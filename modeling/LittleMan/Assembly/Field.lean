import LittleMan.Assembly.Error
import LittleMan.Opcode
import LittleMan.Text.Blank

/-!
# Fields of assembly lines

A line is cut at its first `//` and split at blanks.  A field is an operation if
it is a mnemonic, else a number if it is a numeral in range, else a label.  Lines
without fields are dropped, and a line with more than three is refused.
-/

namespace LittleMan

inductive Field where
  | label (word : String)
  | opcode (op : Opcode)
  | number (value : Word)
deriving DecidableEq, Repr

namespace Field

def text : Field → String
  | .label word => word
  | .opcode op => op.mnemonic
  | .number value => value.text

def classify (word : String) : Field :=
  match Opcode.ofMnemonic? word with
  | some op => .opcode op
  | none =>
      match Word.parse? word with
      | some value => .number value
      | none => .label word

end Field

/-- The fields of one line, with the number of the line. -/
structure FieldLine where
  line : Nat
  fields : List Field
deriving DecidableEq, Repr

namespace FieldLine

def maxFields : Nat :=
  3

/-- What stands before the first `//`. -/
def code : List Char → List Char
  | '/' :: '/' :: _ => []
  | c :: rest => c :: code rest
  | [] => []

/-- The fields of one line of text, if it has any. -/
def read? (line : Nat) (text : List Char) : Except AssembleError (Option FieldLine) :=
  let code := code text
  let words := Text.fields code
  if words.isEmpty then .ok none
  else if maxFields < words.length then
    .error (.malformedLine line (String.ofList (Text.trim code)))
  else .ok (some { line, fields := words.map fun word => Field.classify (String.ofList word) })

def readFrom (line : Nat) : List (List Char) → Except AssembleError (List FieldLine)
  | [] => .ok []
  | text :: rest =>
      match read? line text with
      | .error error => .error error
      | .ok none => readFrom (line + 1) rest
      | .ok (some fields) => (readFrom (line + 1) rest).map (fields :: ·)

def readAll (source : String) : Except AssembleError (List FieldLine) :=
  readFrom 1 (Text.lines source.toList)

end FieldLine
end LittleMan
