import LittleMan.Machine.Step

/-!
# Runs of the machine

A run takes steps until the machine halts, waits for input or meets a fault.  A
program need not do any of these, but its machine has finitely many states: the
memory keeps its size, the stack has a bound, and the program counter lies in the
memory at every step.  Between two inputs a machine that comes back to a state it
was in goes round for ever, so a machine that has made more steps than it has
states, for every input that it could take, never stops.  `Machine.horizon` counts
these steps; under a step limit it counts the steps up to the limit.

The horizon is a very large number.  A run therefore goes over a first stretch,
which no program gets past in practice, before it counts the states.
-/

namespace LittleMan

inductive Ending where
  | stopped (status : Status)
  | faulted (fault : Fault)
  | unfinished
deriving DecidableEq, Repr

namespace Machine

def runFor : Nat → Machine → Ending × Machine
  | 0, m => (.unfinished, m)
  | tries + 1, m =>
      match m.step with
      | (.ok .running, next) => runFor tries next
      | (.ok status, next) => (.stopped status, next)
      | (.error fault, next) => (.faulted fault, next)

def inputsLeft (m : Machine) : Nat :=
  m.queue.length + m.keyboard.elim 0 List.length

def stackBound (m : Machine) : Nat :=
  max m.stack.length m.config.maxStack

/-- No fewer than the states in which a machine can take a step: a word for the
accumulator, for every cell and for every place of the stack, a height of the stack,
and an address. -/
def stateCount (m : Machine) : Nat :=
  m.memory.size * Nat.pow 0x10000000000000000 (m.memory.size + m.stackBound + 2)

def horizon (m : Machine) : Nat :=
  match m.config.maxSteps with
  | some limit => limit - m.steps + 1
  | none => (m.inputsLeft + 1) * m.stateCount + 1

def stretch : Nat :=
  0x4000000000000000

/-- A whole run, which is unfinished only if it never ends. -/
def run (m : Machine) : Ending × Machine :=
  match m.runFor stretch with
  | (.unfinished, later) => later.runFor later.horizon
  | ended => ended

def foldStates {α : Type} (visit : α → Machine → α) : Nat → α → Machine → α
  | 0, seen, _ => seen
  | tries + 1, seen, m =>
      let seen := visit seen m
      match m.step with
      | (.ok .running, next) => foldStates visit tries seen next
      | _ => seen

def traces (m : Machine) : Array String :=
  foldStates (fun seen m => m.trace?.elim seen seen.push) stretch #[] m

end Machine
end LittleMan
