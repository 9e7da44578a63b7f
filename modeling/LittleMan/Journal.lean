import LittleMan.Log
import LittleMan.Report

/-!
# What the phases log

A phase that succeeds leaves a record of what it made.  The machine leaves a record
of every instruction it is about to execute, and a report one of a failed
assertion.  Phases that fail leave nothing, beyond what they left before.
-/

namespace LittleMan

open Log

def Compilation.record (compilation : Compilation) : Record where
  level := .debug
  message :=
    "compiled " ++ toString compilation.sheet.size ++ " words, " ++
      toString compilation.temporaries ++ " temporaries, " ++
      toString compilation.functions ++ " function(s)"

def Image.record (image : Image) : Record where
  level := .debug
  message :=
    "assembled " ++ toString image.memory.size ++ " words (" ++ toString image.labels.size ++
      " labels)"

def assertionMessage (address : Nat) : String :=
  "assertion failed at " ++ Text.address address

def Outcome.records : Outcome → List Record
  | .assertionFailed address => [{ level := .debug, message := assertionMessage address }]
  | _ => []

def Machine.stepRecords (m : Machine) : List Record :=
  m.trace?.toList.map fun message => { level := .trace, message }

def Machine.runRecords (m : Machine) : List Record :=
  m.traces.toList.map fun message => { level := .trace, message }

namespace Journal

def program (program : Program) (takesNotes : Bool := true) : List Record :=
  match program.compile takesNotes with
  | .ok compilation => [compilation.record]
  | .error _ => []

def compile (source : String) (takesNotes : Bool := true) : List Record :=
  match Program.parse source with
  | .ok tree => program tree takesNotes
  | .error _ => []

def assemble (source : String) : List Record :=
  match Image.assemble source with
  | .ok image => [image.record]
  | .error _ => []

def build (source : String) : List Record :=
  match LittleMan.compile source with
  | .ok compilation => compilation.record :: assemble compilation.text
  | .error _ => []

def image (image : Image) (inputs : List Word) (config : Config) : List Record :=
  (image.start inputs config).runRecords ++
    match image.run inputs config with
    | .ok report => report.outcome.records
    | .error _ => []

def run (source : String) (inputs : List Word) (config : Config) : List Record :=
  build source ++
    match LittleMan.build source with
    | .ok made => image made inputs config
    | .error _ => []

def runAssembly (source : String) (inputs : List Word) (config : Config) : List Record :=
  assemble source ++
    match Image.assemble source with
    | .ok made => image made inputs config
    | .error _ => []

end Journal
end LittleMan
