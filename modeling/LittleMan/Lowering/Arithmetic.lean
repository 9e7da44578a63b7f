import LittleMan.Lowering.Draft
import LittleMan.Program

/-!
# Operators without an instruction of their own

The machine adds and subtracts, and branches on a zero or on a word that is not
negative.  Comparisons subtract and pick 0 or 1; products, quotients, remainders
and powers are loops of additions and subtractions.  Every operator takes the
cells of its operands and leaves its result in a temporary.
-/

namespace LittleMan
namespace Lowering

/-- Puts 1 or 0 into `result`, depending on whether `branch` is taken on what the
accumulator holds.  `whenTaken` says which of the two a taken branch means. -/
def select (result : String) (branch : Opcode) (whenTaken : Bool) : Lowering Unit := do
  let one ← literal 1
  let zero ← literal 0
  let taken := if whenTaken then one else zero
  let passed := if whenTaken then zero else one
  let mark := result ++ (if whenTaken then "_true" else "_false")
  let done := result ++ "_end"
  opTo branch mark
  opTo .lda passed
  opTo .bra done
  label mark
  opTo .lda taken
  label done
  opTo .sta result

def compare (a b result : String) (branch : Opcode) (whenTaken : Bool) : Lowering Unit := do
  opTo .lda a
  opTo .sub b
  select result branch whenTaken

/-- Adds `l` to the total `r` times.  A negative count is flipped together with
the addend, so that the counter always runs down to zero. -/
def multiply (l r total : String) : Lowering Unit := do
  let zero ← literal 0
  let one ← literal 1
  let addend ← temporary
  let counter ← temporary
  let top := total ++ "_start"
  let done := total ++ "_end"
  copy zero total
  copy l addend
  copy r counter
  opTo .brp top
  binary zero .sub counter counter
  binary zero .sub addend addend
  label top
  opTo .lda counter
  opTo .brz done
  binary total .add addend total
  binary counter .sub one counter
  opTo .bra top
  anchor done

/-- Division rounded down, with a remainder of the sign of the divisor.

Both operands are made magnitudes and the divisor is subtracted until the rest is
negative, which is one time too often and is taken back.  Then the signs are put
right: if they differ, the quotient is negated and rounded down.  A zero divisor
never leaves the loop. -/
def floorDivMod (l r quotient remainder base : String) : Lowering Unit := do
  let zero ← literal 0
  let one ← literal 1
  let dividend ← temporary
  let divisor ← temporary
  let leftNegative ← temporary
  let rightNegative ← temporary
  let leftReady := base ++ "_lpos"
  let rightReady := base ++ "_rpos"
  let top := base ++ "_start"
  let sign := base ++ "_sign"
  let done := base ++ "_end"
  copy zero leftNegative
  copy zero rightNegative
  copy l dividend
  opTo .brp leftReady
  binary zero .sub dividend dividend
  copy one leftNegative
  label leftReady
  copy r divisor
  opTo .brp rightReady
  binary zero .sub divisor divisor
  copy one rightNegative
  label rightReady
  copy zero quotient
  copy dividend remainder
  label top
  binary quotient .add one quotient
  binary remainder .sub divisor remainder
  opTo .brp top
  binary quotient .sub one quotient
  binary remainder .add divisor remainder
  opTo .lda leftNegative
  opTo .sub rightNegative
  opTo .brz sign
  binary zero .sub quotient quotient
  opTo .lda remainder
  opTo .brz sign
  binary quotient .sub one quotient
  binary divisor .sub remainder remainder
  label sign
  opTo .lda rightNegative
  opTo .brz done
  binary zero .sub remainder remainder
  anchor done

def divide (l r quotient : String) : Lowering Unit := do
  let remainder ← temporary
  floorDivMod l r quotient remainder quotient

def modulo (l r remainder : String) : Lowering Unit := do
  let quotient ← temporary
  floorDivMod l r quotient remainder remainder

def power (l r total : String) : Lowering Unit := do
  let one ← literal 1
  let exponent ← temporary
  let product ← temporary
  let outer := total ++ "_outer"
  let body := total ++ "_body"
  let done := total ++ "_outer_end"
  copy one total
  copy r exponent
  label outer
  opTo .lda exponent
  opTo .brz done
  opTo .brp body
  opTo .bra done
  label body
  multiply total l product
  copy product total
  binary exponent .sub one exponent
  opTo .bra outer
  anchor done

/-- An operator whose operands are both evaluated.  `BRP` branches on a word that
is not negative and `BRZ` on zero, which fixes the order of each subtraction. -/
def combine (op : BinaryOp) (l r : String) : Lowering String := do
  let result ← temporary
  match op with
  | .add => binary l .add r result
  | .sub => binary l .sub r result
  | .mul => multiply l r result
  | .div => divide l r result
  | .mod => modulo l r result
  | .pow => power l r result
  | .lt => compare l r result .brp false
  | .gt => compare r l result .brp false
  | .ltEq => compare r l result .brp true
  | .gtEq => compare l r result .brp true
  | .eq => compare r l result .brz true
  | .notEq => compare l r result .brz false
  | .and | .or =>
      refuse (.internal ("'" ++ op.symbol ++ "' must be lowered with short-circuiting"))
  return result

def conjunction (left right : Lowering String) : Lowering String := do
  let result ← temporary
  let fail := result ++ "_false"
  let done := result ++ "_end"
  let one ← literal 1
  let zero ← literal 0
  let l ← left
  opTo .lda l
  opTo .brz fail
  let r ← right
  opTo .lda r
  opTo .brz fail
  opTo .lda one
  opTo .bra done
  label fail
  opTo .lda zero
  label done
  opTo .sta result
  return result

def disjunction (left right : Lowering String) : Lowering String := do
  let result ← temporary
  let checkRight := result ++ "_right"
  let pass := result ++ "_true"
  let fail := result ++ "_false"
  let done := result ++ "_end"
  let one ← literal 1
  let zero ← literal 0
  let l ← left
  opTo .lda l
  opTo .brz checkRight
  opTo .bra pass
  label checkRight
  let r ← right
  opTo .lda r
  opTo .brz fail
  label pass
  opTo .lda one
  opTo .bra done
  label fail
  opTo .lda zero
  label done
  opTo .sta result
  return result

def negative (operand : Lowering String) : Lowering String := do
  let value ← operand
  let zero ← literal 0
  let result ← temporary
  binary zero .sub value result
  return result

def negation (operand : Lowering String) : Lowering String := do
  let value ← operand
  let result ← temporary
  opTo .lda value
  select result .brz true
  return result

end Lowering
end LittleMan
