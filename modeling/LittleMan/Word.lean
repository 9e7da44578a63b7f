/-!
# Machine words

Every number that the machine holds, and every literal of the language, is a
signed word of 64 bits.  Arithmetic on words never wraps: a sum or difference
that leaves the range is refused, and the caller decides what the refusal means.
A numeral is an optional sign followed by ASCII digits, and one that names a
number out of range names nothing.
-/

namespace LittleMan

abbrev Word := Int64

namespace Word

def ofInt? (n : Int) : Option Word :=
  if -0x8000000000000000 ≤ n ∧ n < 0x8000000000000000 then some (Int64.ofInt n) else none

def add? (a b : Word) : Option Word :=
  ofInt? (a.toInt + b.toInt)

def sub? (a b : Word) : Option Word :=
  ofInt? (a.toInt - b.toInt)

def ofBool (b : Bool) : Word :=
  if b then 1 else 0

/-- Addresses past the range of a word come out as the word with the same bits. -/
def ofAddress (a : Nat) : Word :=
  Int64.ofNat a

/-- The address that a word names, if it is not negative. -/
def address? (w : Word) : Option Nat :=
  if 0 ≤ w.toInt then some w.toInt.toNat else none

/-- Decimal text, with a leading minus sign for the negative words. -/
def text (w : Word) : String :=
  toString w.toInt

end Word

namespace Numeral

def isDigit (c : Char) : Bool :=
  '0' ≤ c && c ≤ '9'

def digitValue (c : Char) : Nat :=
  c.toNat - '0'.toNat

/-- The number that a string of digits names, most significant digit first. -/
def value (digits : List Char) : Nat :=
  digits.foldl (fun n c => 10 * n + digitValue c) 0

def natural? (digits : List Char) : Option Nat :=
  if !digits.isEmpty && digits.all isDigit then some (value digits) else none

/-- A numeral that may have a plus sign but no minus sign. -/
def unsigned? : List Char → Option Nat
  | '+' :: digits => natural? digits
  | digits => natural? digits

def integer? : List Char → Option Int
  | '-' :: digits => (natural? digits).map fun n => -(n : Int)
  | '+' :: digits => (natural? digits).map fun n => (n : Int)
  | digits => (natural? digits).map fun n => (n : Int)

end Numeral

def Word.parse? (numeral : String) : Option Word :=
  (Numeral.integer? numeral.toList).bind Word.ofInt?

end LittleMan
