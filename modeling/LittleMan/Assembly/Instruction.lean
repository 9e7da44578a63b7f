import LittleMan.Assembly.Field

/-!
# Instructions

A line of assembly is an optional label, an operation, and an operand if the
operation takes one: a number or a label.  `DAT` may do without its operand.
-/

namespace LittleMan

inductive Operand where
  | none
  | value (n : Word)
  | label (name : String)
deriving DecidableEq, Repr

namespace Operand

def text : Operand → String
  | .none => ""
  | .value n => n.text
  | .label name => name

end Operand

structure Instruction where
  label : Option String
  opcode : Opcode
  operand : Operand
  line : Nat
deriving DecidableEq, Repr

namespace Instruction

/-- The fields of a line as one text, in which numbers and mnemonics have their
plain spelling. -/
def malformed (line : FieldLine) : AssembleError :=
  .malformedLine line.line (" ".intercalate (line.fields.map Field.text))

/-- The label in front and the fields after it. -/
def splitLabel : List Field → Option String × List Field
  | .label name :: rest => (some name, rest)
  | fields => (none, fields)

/-- The operation and the field of its operand. -/
def splitOpcode (line : FieldLine) (labelled : Bool) :
    List Field → Except AssembleError (Opcode × Option Field)
  | [.opcode op] => .ok (op, none)
  | [.opcode op, operand] => .ok (op, some operand)
  | .label word :: _ =>
      if labelled then .error (.unknownOpcode line.line word) else .error (malformed line)
  | _ => .error (malformed line)

def readOperand (line : FieldLine) : Option Field → Except AssembleError Operand
  | none => .ok .none
  | some (.number n) => .ok (.value n)
  | some (.label name) => .ok (.label name)
  | some (.opcode _) => .error (malformed line)

/-- Whether an operation has the operand it needs and none that it does not take. -/
def checkOperand (line : Nat) (op : Opcode) (operand : Operand) : Except AssembleError Unit :=
  match operand with
  | .none => if op.takesAddress then .error (.missingOperand line op.mnemonic) else .ok ()
  | operand =>
      if op = .dat ∨ op.takesAddress then .ok ()
      else .error (.unexpectedOperand line op.mnemonic operand.text)

def ofLine (line : FieldLine) : Except AssembleError Instruction := do
  let (label, fields) := splitLabel line.fields
  let (opcode, field) ← splitOpcode line label.isSome fields
  let operand ← readOperand line field
  checkOperand line.line opcode operand
  return { label, opcode, operand, line := line.line }

end Instruction
end LittleMan
