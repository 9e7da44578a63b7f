import LittleMan.Compilation
import LittleMan.Machine.Run
import LittleMan.Program.Reader

/-!
# From a source to a report

A source is read, compiled, assembled and run.  To the machine a failed assertion
is a `HLT` like any other; it is told apart by the label at the address where the
machine halted.
-/

namespace LittleMan

inductive PipelineError where
  | parse (error : ParseError)
  | compile (error : CompileError)
  | assemble (error : AssembleError)
  | runtime (fault : Fault)
  | unfinished
deriving DecidableEq, Repr

namespace PipelineError

def message : PipelineError → String
  | .parse error => error.message
  | .compile error => error.message
  | .assemble error => error.message
  | .runtime fault => fault.message
  | .unfinished => "the run does not end"

end PipelineError

inductive Outcome where
  | completed
  | assertionFailed (address : Nat)
  | awaitingInput
deriving DecidableEq, Repr

namespace Outcome

def isAssertionLabel (label : String) : Bool :=
  "assert_".toList.isPrefixOf label.toList && "_fail".toList.isSuffixOf label.toList

/-- What a halt at an address means. -/
def ofHalt (labels : Labels) : Option Nat → Outcome
  | none => .completed
  | some address =>
      if labels.entries.any fun entry => entry.2 == address && isAssertionLabel entry.1 then
        .assertionFailed address
      else .completed

def isAssertionFailed : Outcome → Bool
  | .assertionFailed _ => true
  | _ => false

end Outcome

structure Report where
  outcome : Outcome
  transcript : String
  snapshot : Snapshot
  labels : Labels
deriving DecidableEq, Repr

namespace Report

/-- The last value of a global variable. -/
def valueOf? (report : Report) (name : String) : Option Word :=
  (report.labels.find? ("global_var_" ++ name)).bind fun address =>
    report.snapshot.memory[address]?

def ofEnding (labels : Labels) : Ending × Machine → Except PipelineError Report
  | (.unfinished, _) => .error .unfinished
  | (.faulted fault, _) => .error (.runtime fault)
  | (.stopped status, m) =>
      .ok {
        outcome :=
          if status = .awaitingInput then .awaitingInput
          else Outcome.ofHalt labels m.haltedAt
        transcript := m.transcript
        snapshot := m.snapshot
        labels }

end Report

/-- Source to assembly code. -/
def compile (source : String) (takesNotes : Bool := true) : Except PipelineError Compilation :=
  match Program.parse source with
  | .error error => .error (.parse error)
  | .ok program => (program.compile takesNotes).mapError .compile

/-- Source to a memory image. -/
def build (source : String) : Except PipelineError Image := do
  let compilation ← compile source
  (Image.assemble compilation.text).mapError .assemble

/-- A machine that has loaded an image and has inputs in its queue. -/
def Image.start (image : Image) (inputs : List Word) (config : Config) : Machine :=
  ((Machine.new config).load image.memory).pushInputs inputs

def Image.run (image : Image) (inputs : List Word) (config : Config) :
    Except PipelineError Report :=
  Report.ofEnding image.labels (image.start inputs config).run

def run (source : String) (inputs : List Word) (config : Config) :
    Except PipelineError Report := do
  let image ← build source
  image.run inputs config

def runAssembly (source : String) (inputs : List Word) (config : Config) :
    Except PipelineError Report := do
  let image ← (Image.assemble source).mapError .assemble
  image.run inputs config

end LittleMan
