import LittleMan.Assembly.Instruction
import LittleMan.Assembly.Labels

/-!
# Memory images

The address of an instruction is its place in the program, and its label names
that address.  Once all labels are known, every instruction is packed into one
word: the operand is the number given or the address of the label, and it has to
fit into three digits unless the instruction is a `DAT`.
-/

namespace LittleMan

structure Image where
  memory : Array Word := #[]
  labels : Labels := .empty
  instructions : Array Instruction := #[]
deriving DecidableEq, Repr

namespace Image

/-- The addressable words of the machine. -/
def memoryLimit : Nat :=
  Opcode.operandLimit

def addressOf? (image : Image) (label : String) : Option Nat :=
  image.labels.find? label

def labelAt? (image : Image) (address : Nat) : Option String :=
  (image.instructions[address]?).bind Instruction.label

/-- Adds the label of an instruction that is to stand at `address`. -/
def addLabel (instructions : Array Instruction) (labels : Labels) (instruction : Instruction) :
    Except AssembleError Labels :=
  match instruction.label with
  | none => .ok labels
  | some label =>
      match labels.find? label with
      | none => .ok (labels.insert label instructions.size)
      | some first =>
          .error (.duplicateLabel instruction.line label
            ((instructions[first]?).elim 0 Instruction.line))

/-- Reads the instructions of the lines, after those read already. -/
def collectFrom (instructions : Array Instruction) (labels : Labels) :
    List FieldLine → Except AssembleError (Array Instruction × Labels)
  | [] =>
      if memoryLimit < instructions.size then .error (.programTooLarge instructions.size)
      else .ok (instructions, labels)
  | line :: rest =>
      match Instruction.ofLine line with
      | .error error => .error error
      | .ok instruction =>
          match addLabel instructions labels instruction with
          | .error error => .error error
          | .ok labels => collectFrom (instructions.push instruction) labels rest

def collect (lines : List FieldLine) : Except AssembleError (Array Instruction × Labels) :=
  collectFrom #[] .empty lines

def operandValue (labels : Labels) (instruction : Instruction) : Except AssembleError Word :=
  match instruction.operand with
  | .none => .ok 0
  | .value n => .ok n
  | .label name =>
      match labels.find? name with
      | some address => .ok (Word.ofAddress address)
      | none => .error (.undefinedSymbol instruction.line name)

def fitsOperand (value : Word) : Bool :=
  0 ≤ value.toInt && value.toInt < Opcode.operandLimit

def packOne (labels : Labels) (instruction : Instruction) : Except AssembleError Word := do
  let value ← operandValue labels instruction
  if instruction.opcode = .dat || fitsOperand value then
    return instruction.opcode.encode value
  else throw (.operandOverflow instruction.line value)

def packAll (labels : Labels) : List Instruction → Except AssembleError (List Word)
  | [] => .ok []
  | instruction :: rest => do
      let word ← packOne labels instruction
      return word :: (← packAll labels rest)

def pack (instructions : Array Instruction) (labels : Labels) :
    Except AssembleError (Array Word) :=
  (packAll labels instructions.toList).map List.toArray

def assemble (source : String) : Except AssembleError Image := do
  let lines ← FieldLine.readAll source
  let (instructions, labels) ← collect lines
  let memory ← pack instructions labels
  return { memory, labels, instructions }

end Image
end LittleMan
