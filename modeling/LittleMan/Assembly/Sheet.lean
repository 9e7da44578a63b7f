import LittleMan.Opcode
import LittleMan.Scope
import LittleMan.Text.Pad

/-!
# Sheets of assembly code

A sheet collects lines of assembly code.  A label waits for the instruction that
comes next.  When a second label comes first, or the sheet ends, the waiting
label is put on a `NOP`, so that no instruction ever has two labels.  Notes are
written only if the sheet takes notes.
-/

namespace LittleMan

inductive SheetLine where
  | code (label : Option String) (op : Opcode) (operand : Option String)
  | data (declaration : Declaration)
  | raw (text : String)
  | note (text : String)
deriving DecidableEq, Repr

namespace SheetLine

def labelWidth : Nat :=
  20

def text : SheetLine → String
  | .code label op operand =>
      Text.padRight labelWidth (label.getD "") ++ " " ++ op.mnemonic ++
        operand.elim "" (" " ++ ·)
  | .data declaration => declaration.text
  | .raw text => text
  | .note text => "// " ++ text

/-- Whether a line takes up a word of the program. -/
def isWord : SheetLine → Bool
  | .note _ => false
  | _ => true

end SheetLine

/-- The size of a sheet is the number of words written so far. -/
structure Sheet where
  lines : Array SheetLine := #[]
  waiting : Option String := none
  takesNotes : Bool := true
  size : Nat := 0
  counted : size = lines.toList.countP SheetLine.isWord := by exact rfl
deriving DecidableEq, Repr

namespace Sheet

def push (sheet : Sheet) (line : SheetLine) : Sheet where
  lines := sheet.lines.push line
  waiting := sheet.waiting
  takesNotes := sheet.takesNotes
  size := if line.isWord then sheet.size + 1 else sheet.size
  counted := by
    rw [Array.toList_push, List.countP_append, List.countP_singleton, sheet.counted]
    split <;> rfl

@[simp] theorem lines_push (sheet : Sheet) (line : SheetLine) :
    (sheet.push line).lines = sheet.lines.push line := rfl

@[simp] theorem waiting_push (sheet : Sheet) (line : SheetLine) :
    (sheet.push line).waiting = sheet.waiting := rfl

/-- Puts a waiting label on a `NOP`. -/
def settle (sheet : Sheet) : Sheet :=
  match sheet.waiting with
  | none => sheet
  | some label => { sheet.push (.code (some label) .nop none) with waiting := none }

def label (sheet : Sheet) (label : String) : Sheet :=
  { sheet.settle with waiting := some label }

/-- Writes an instruction under the waiting label, if there is one. -/
def write (sheet : Sheet) (op : Opcode) (operand : Option String) : Sheet :=
  { sheet.push (.code sheet.waiting op operand) with waiting := none }

def op (sheet : Sheet) (op : Opcode) : Sheet :=
  sheet.write op none

def opTo (sheet : Sheet) (op : Opcode) (operand : String) : Sheet :=
  sheet.write op (some operand)

/-- A label on a `NOP` of its own. -/
def anchor (sheet : Sheet) (label : String) : Sheet :=
  (sheet.label label).op .nop

def binary (sheet : Sheet) (a : String) (op : Opcode) (b dest : String) : Sheet :=
  ((sheet.opTo .lda a).opTo op b).opTo .sta dest

def copy (sheet : Sheet) (source dest : String) : Sheet :=
  (sheet.opTo .lda source).opTo .sta dest

def note (sheet : Sheet) (text : String) : Sheet :=
  if sheet.takesNotes then sheet.push (.note text) else sheet

def raw (sheet : Sheet) (text : String) : Sheet :=
  sheet.push (.raw text)

def declare (sheet : Sheet) (declaration : Declaration) : Sheet :=
  sheet.push (.data declaration)

/-- The finished text, with a line feed after the last line or in place of one. -/
def text (sheet : Sheet) : String :=
  "\n".intercalate (sheet.settle.lines.toList.map SheetLine.text) ++ "\n"

end Sheet
end LittleMan
