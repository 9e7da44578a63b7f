import LittleMan.Assembly.Image
import LittleMan.Machine.Fault

/-!
# The machine

One accumulator, a program counter, a stack and a memory of words.  Values for
`INP` wait in a queue; when the queue is empty, and somebody sits at the keyboard,
they are asked for a line.  Everything put out is kept, and a listener, once
attached, hears it too.

A snapshot is the part of the state that decides how the program goes on.  The
stack is a list with its top at the head.
-/

namespace LittleMan

/-- Limits of a machine.  Images are padded with zeros up to `memorySize`, but not
past the addressable words. -/
structure Config where
  maxSteps : Option Nat := none
  maxStack : Nat := 1000
  memorySize : Option Nat := none
deriving DecidableEq, Repr

inductive Output where
  | number (value : Word)
  | char (c : Char)
deriving DecidableEq, Repr

/-- Numbers end their line. -/
def Output.text : Output → String
  | .number value => value.text ++ "\n"
  | .char c => c.toString

inductive Status where
  | running
  | halted
  | awaitingInput
deriving DecidableEq, Repr

def Status.name : Status → String
  | .running => "Running"
  | .halted => "Halted"
  | .awaitingInput => "AwaitingInput"

structure Snapshot where
  memory : Array Word
  accumulator : Word
  pc : Nat
  stack : List Word
  status : Status
deriving DecidableEq, Repr

def Snapshot.isHalted (snapshot : Snapshot) : Bool :=
  snapshot.status == .halted

/-- The lines that will be typed, one for every time a line is asked for.  A missing
line means that there is nothing to type at that time. -/
abbrev Keyboard := List (Option String)

structure Machine where
  config : Config := {}
  memory : Array Word := #[]
  accumulator : Word := 0
  pc : Nat := 0
  stack : List Word := []
  status : Status := .running
  steps : Nat := 0
  queue : List Word := []
  keyboard : Option Keyboard := none
  output : Array Output := #[]
  heard : Option (Array Output) := none
  haltedAt : Option Nat := none
deriving DecidableEq, Repr

namespace Machine

def new (config : Config) : Machine :=
  { config }

/-- Clears registers, stack, counters and output.  Memory and waiting input stay. -/
def reset (m : Machine) : Machine :=
  { m with
    stack := []
    accumulator := 0
    pc := 0
    status := .running
    steps := 0
    output := #[]
    haltedAt := none }

def padded (config : Config) (memory : Array Word) : Array Word :=
  match config.memorySize with
  | none => memory
  | some size => memory ++ Array.replicate (min size Image.memoryLimit - memory.size) 0

def load (m : Machine) (memory : Array Word) : Machine :=
  { m with memory := padded m.config memory }.reset

def loadSource (m : Machine) (source : String) : Except AssembleError (Image × Machine) :=
  (Image.assemble source).map fun image => (image, m.load image.memory)

/-- Queues a value, which ends a wait for input. -/
def pushInput (m : Machine) (value : Word) : Machine :=
  { m with
    queue := m.queue ++ [value]
    status := if m.status = .awaitingInput then .running else m.status }

def pushInputs (m : Machine) (values : List Word) : Machine :=
  values.foldl pushInput m

def withKeyboard (m : Machine) (keyboard : Keyboard) : Machine :=
  { m with keyboard := some keyboard }

/-- Attaches a listener.  One that was there before keeps what it has heard. -/
def listen (m : Machine) : Machine :=
  { m with heard := some (m.heard.getD #[]) }

def transcript (m : Machine) : String :=
  String.join (m.output.toList.map Output.text)

def snapshot (m : Machine) : Snapshot :=
  { memory := m.memory
    accumulator := m.accumulator
    pc := m.pc
    stack := m.stack
    status := m.status }

/-- Goes back to a snapshot.  The count of steps, the output and the input stay. -/
def restore (m : Machine) (snapshot : Snapshot) : Machine :=
  { m with
    memory := snapshot.memory
    accumulator := snapshot.accumulator
    pc := snapshot.pc
    stack := snapshot.stack
    status := snapshot.status
    haltedAt := if snapshot.status = .halted then some snapshot.pc else none }

end Machine
end LittleMan
