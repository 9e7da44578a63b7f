import LittleMan.Machine
import LittleMan.Text.Blank

/-!
# One step of the machine

A step fetches and decodes the word at the program counter, plans what to do, and
does it.  Everything that can fail is in the fetch and in the plan, which change
nothing; `Machine.perform` cannot fail.  `INP` alone is different: it takes a
value from the queue or asks for a line, and a line that is no numeral is a fault
after the line has been taken.
-/

namespace LittleMan

inductive Action where
  | idle
  | load (value : Word)
  | store (address : Nat)
  | jump (address : Nat)
  | push
  | pop (top : Word) (rest : List Word)
  | put (output : Output)
  | halt
deriving DecidableEq, Repr

namespace Machine

def locate (m : Machine) (address : Word) : Except FaultCause Nat :=
  match address.address? with
  | some a =>
      if a < m.memory.size then .ok a
      else .error (.addressOutOfBounds address m.memory.size)
  | none => .error (.addressOutOfBounds address m.memory.size)

def within (m : Machine) (address : Nat) : Except FaultCause Nat :=
  if address < m.memory.size then .ok address
  else .error (.addressOutOfBounds (Word.ofAddress address) m.memory.size)

def read (m : Machine) (address : Nat) : Except FaultCause Word :=
  match m.memory[address]? with
  | some word => .ok word
  | none => .error (.addressOutOfBounds (Word.ofAddress address) m.memory.size)

def checkLimit (m : Machine) : Except FaultCause Unit :=
  match m.config.maxSteps with
  | some limit => if limit ≤ m.steps then .error (.stepLimitExceeded limit) else .ok ()
  | none => .ok ()

def fetch (m : Machine) : Except FaultCause (Opcode × Nat) := do
  m.checkLimit
  let word ← m.read m.pc
  match Opcode.decode word with
  | some instruction => return instruction
  | none => throw (.unknownOpcode word)

def loadSum (sum : Option Word) : Except FaultCause Action :=
  match sum with
  | some value => .ok (.load value)
  | none => .error .arithmeticOverflow

def charOf (code : Word) : Char :=
  match code.address? with
  | some n => if n.isValidChar then Char.ofNat n else Char.ofNat 0xfffd
  | none => Char.ofNat 0xfffd

/-- What an instruction other than `INP` does in the present state. -/
def plan (m : Machine) (op : Opcode) (operand : Nat) : Except FaultCause Action :=
  match op with
  | .add => do loadSum (m.accumulator.add? (← m.read operand))
  | .sub => do loadSum (m.accumulator.sub? (← m.read operand))
  | .sta => (m.within operand).map .store
  | .lda => (m.read operand).map .load
  | .bra => (m.within operand).map .jump
  | .brz => if m.accumulator = 0 then (m.within operand).map .jump else .ok .idle
  | .brp => if 0 ≤ m.accumulator.toInt then (m.within operand).map .jump else .ok .idle
  | .hlt => .ok .halt
  | .pop =>
      match m.stack with
      | top :: rest => .ok (.pop top rest)
      | [] => .error .stackUnderflow
  | .psh =>
      if m.config.maxStack ≤ m.stack.length then .error (.stackOverflow m.config.maxStack)
      else .ok .push
  | .ldaPc => .ok (.load (Word.ofAddress (m.pc + 1)))
  | .ldaAcc => do
      let address ← m.locate m.accumulator
      (m.read address).map .load
  | .ret => (m.locate m.accumulator).map .jump
  | .out => .ok (.put (.number m.accumulator))
  | .outC => .ok (.put (.char (charOf m.accumulator)))
  | .nop | .inp | .dat => .ok .idle

def proceed (m : Machine) (next : Nat) : Machine :=
  { m with pc := next, steps := m.steps + 1, status := .running }

/-- Keeps a value that was put out, and lets the listener hear it. -/
def put (m : Machine) (output : Output) : Machine :=
  { m with output := m.output.push output, heard := m.heard.map (·.push output) }

def perform (m : Machine) : Action → Machine
  | .idle => m.proceed (m.pc + 1)
  | .load value => { m with accumulator := value }.proceed (m.pc + 1)
  | .store address =>
      { m with memory := m.memory.setIfInBounds address m.accumulator }.proceed (m.pc + 1)
  | .jump address => m.proceed address
  | .push => { m with stack := m.accumulator :: m.stack }.proceed (m.pc + 1)
  | .pop top rest => { m with accumulator := top, stack := rest }.proceed (m.pc + 1)
  | .put output => (m.put output).proceed (m.pc + 1)
  | .halt => { m with status := .halted, haltedAt := some m.pc, steps := m.steps + 1 }

inductive Answer where
  | value (value : Word)
  | nothing
  | unreadable (text : String)
deriving DecidableEq, Repr

def ask (m : Machine) : Answer × Machine :=
  match m.queue, m.keyboard with
  | value :: queue, _ => (.value value, { m with queue })
  | [], some (some text :: keyboard) =>
      let m := { m with keyboard := some keyboard }
      match Word.parse? (Text.trimmed text) with
      | some value => (.value value, m)
      | none => (.unreadable text, m)
  | [], some (none :: keyboard) => (.nothing, { m with keyboard := some keyboard })
  | [], some [] => (.nothing, m)
  | [], none => (.nothing, m)

/-- Executes `INP`.  Without input the machine waits, and the step does not count. -/
def input (m : Machine) : Except Fault Status × Machine :=
  match m.ask with
  | (.value value, m) => (.ok .running, m.perform (.load value))
  | (.nothing, m) => (.ok .awaitingInput, { m with status := .awaitingInput })
  | (.unreadable text, m) => (.error { pc := m.pc, cause := .invalidInput text }, m)

def step (m : Machine) : Except Fault Status × Machine :=
  if m.status = .halted then (.ok .halted, m)
  else
    match m.fetch with
    | .error cause => (.error { pc := m.pc, cause }, m)
    | .ok (op, operand) =>
        if op = .inp then m.input
        else
          match m.plan op operand with
          | .error cause => (.error { pc := m.pc, cause }, m)
          | .ok action =>
              let next := m.perform action
              (.ok next.status, next)

/-- Whether the next step asks for a line. -/
def asksForLine (m : Machine) : Bool :=
  m.status != .halted && m.queue.isEmpty && m.keyboard.isSome &&
    match m.fetch with
    | .ok (op, _) => op == .inp
    | .error _ => false

def trace? (m : Machine) : Option String :=
  if m.status = .halted then none
  else
    match m.fetch with
    | .error _ => none
    | .ok (op, operand) =>
        some (Text.address m.pc ++ ": " ++ Text.padRight 5 op.mnemonic ++ " " ++
          Text.address operand ++ "  acc=" ++ m.accumulator.text ++ " stack=[" ++
          ", ".intercalate (m.stack.reverse.map Word.text) ++ "]")

end Machine
end LittleMan
