import LittleMan.Text.Letter
import LittleMan.Word

/-!
# Operations of the machine

A packed word is a digit times a thousand plus an operand below a thousand.  The
digits 4 and 9 stand for groups in which the operand selects the operation, and
a word with the digit 0 halts whatever its operand is.  `DAT` is no operation of
the machine: it stands for a word of data and is stored as it is.
-/

namespace LittleMan

inductive Opcode where
  | hlt
  | add
  | sub
  | sta
  | lda
  | bra
  | brz
  | brp
  | nop
  | pop
  | psh
  | ldaPc
  | ldaAcc
  | ret
  | inp
  | out
  | outC
  | dat
deriving DecidableEq, Repr

namespace Opcode

def all : List Opcode :=
  [.hlt, .add, .sub, .sta, .lda, .bra, .brz, .brp, .nop, .pop, .psh, .ldaPc, .ldaAcc, .ret,
    .inp, .out, .outC, .dat]

def mnemonic : Opcode → String
  | .hlt => "HLT"
  | .add => "ADD"
  | .sub => "SUB"
  | .sta => "STA"
  | .lda => "LDA"
  | .bra => "BRA"
  | .brz => "BRZ"
  | .brp => "BRP"
  | .nop => "NOP"
  | .pop => "POP"
  | .psh => "PSH"
  | .ldaPc => "LDAPC"
  | .ldaAcc => "LDACC"
  | .ret => "RET"
  | .inp => "INP"
  | .out => "OUT"
  | .outC => "OUTC"
  | .dat => "DAT"

/-- Mnemonics are read in any mixture of ASCII capitals and small letters. -/
def ofMnemonic? (word : String) : Option Opcode :=
  all.find? fun op => Text.foldCase op.mnemonic.toList == Text.foldCase word.toList

/-- Operations whose operand is the address of a cell or the target of a branch. -/
def takesAddress : Opcode → Bool
  | .add | .sub | .sta | .lda | .bra | .brz | .brp => true
  | _ => false

def isBranch : Opcode → Bool
  | .bra | .brz | .brp => true
  | _ => false

def operandLimit : Nat :=
  1000

def wordLimit : Nat :=
  10 * operandLimit

/-- The digit of an operation, and its operand if that is fixed. -/
def packing? : Opcode → Option (Nat × Option Nat)
  | .hlt => some (0, some 0)
  | .add => some (1, none)
  | .sub => some (2, none)
  | .sta => some (3, none)
  | .lda => some (5, none)
  | .bra => some (6, none)
  | .brz => some (7, none)
  | .brp => some (8, none)
  | .nop => some (4, some 0)
  | .pop => some (4, some 1)
  | .psh => some (4, some 2)
  | .ldaPc => some (4, some 3)
  | .ldaAcc => some (4, some 4)
  | .ret => some (4, some 5)
  | .inp => some (9, some 1)
  | .out => some (9, some 2)
  | .outC => some (9, some 3)
  | .dat => none

def encode (op : Opcode) (operand : Word) : Word :=
  match op.packing? with
  | some (digit, some fixed) => Int64.ofNat (digit * operandLimit + fixed)
  | some (digit, none) => Int64.ofNat (digit * operandLimit) + operand
  | none => operand

def ofDigit? (digit operand : Nat) : Option Opcode :=
  match digit, operand with
  | 0, _ => some .hlt
  | 1, _ => some .add
  | 2, _ => some .sub
  | 3, _ => some .sta
  | 5, _ => some .lda
  | 6, _ => some .bra
  | 7, _ => some .brz
  | 8, _ => some .brp
  | 4, 0 => some .nop
  | 4, 1 => some .pop
  | 4, 2 => some .psh
  | 4, 3 => some .ldaPc
  | 4, 4 => some .ldaAcc
  | 4, 5 => some .ret
  | 9, 1 => some .inp
  | 9, 2 => some .out
  | 9, 3 => some .outC
  | _, _ => none

def decode (word : Word) : Option (Opcode × Nat) :=
  match word.address? with
  | none => none
  | some n =>
      if n < wordLimit then
        (ofDigit? (n / operandLimit) (n % operandLimit)).map (·, n % operandLimit)
      else none

end Opcode
end LittleMan
