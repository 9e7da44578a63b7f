import LittleMan.Assembly.Labels
import LittleMan.Opcode
import LittleMan.Text.Pad

/-!
# Listings of memory

One row per word: its address, a mark if some branch goes there, the label of the
address, and the word taken apart.  Words that are no instruction are shown as
`DAT`, and so are the words that would halt with an operand, since small numbers
are data more often than not.  A row with a mark has a rule above it.
-/

namespace LittleMan
namespace Listing

/-- The addresses that the branches of a memory go to. -/
def branchTargets (memory : List Word) : List Nat :=
  memory.filterMap fun word =>
    match Opcode.decode word with
    | some (op, operand) => if op.isBranch then some operand else none
    | none => none

def dataText (word : Word) : String :=
  Text.padRight 6 Opcode.dat.mnemonic ++ " " ++ word.text

def instructionText (labels : Labels) (word : Word) : String :=
  match Opcode.decode word with
  | none => dataText word
  | some (op, operand) =>
      if op.takesAddress then
        Text.padRight 6 op.mnemonic ++ " " ++ Text.address operand ++
          (labels.nameAt? operand).elim "" ("  ; " ++ ·)
      else if op = .hlt ∧ word ≠ 0 then dataText word
      else op.mnemonic

def rule : String :=
  "      ┌──────────────────────────────────\n"

def row (targets : List Nat) (labels : Labels) (address : Nat) (word : Word) : String :=
  let marked := targets.contains address
  (if marked then rule else "") ++ Text.address address ++ " " ++
    (if marked then "► " else "  ") ++
    Text.padRight 16 ((labels.nameAt? address).getD "") ++ " " ++
    instructionText labels word ++ "\n"

def rowsFrom (targets : List Nat) (labels : Labels) (address : Nat) : List Word → List String
  | [] => []
  | word :: rest => row targets labels address word :: rowsFrom targets labels (address + 1) rest

def ofMemory (memory : List Word) (labels : Labels) : String :=
  String.join (rowsFrom (branchTargets memory) labels 0 memory)

/-- The listing under a title with the numbers of words and labels. -/
def report (memory : List Word) (labels : Labels) : String :=
  "=== MEMORY IMAGE ===\n\n" ++ toString memory.length ++ " words, " ++
    toString labels.size ++ " labels\n" ++
    "════════════════════════════════════════\n" ++ ofMemory memory labels

end Listing
end LittleMan
