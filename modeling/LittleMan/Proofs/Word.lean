import LittleMan.Word
import Mathlib

/-!
# Words as numbers

A word is determined by the number it stands for.  The partial operations are told
apart by the range: a result in the range is the word of the exact number, and a
refusal means that the exact number lies outside.  The decimal text of a word is a
numeral that reads back as the word.
-/

namespace LittleMan
namespace Word

theorem toInt_bounds (w : Word) :
    -0x8000000000000000 ≤ w.toInt ∧ w.toInt < 0x8000000000000000 := by
  have hlow := Int64.le_toInt w
  have hhigh := Int64.toInt_lt w
  norm_num at hlow hhigh
  exact ⟨hlow, hhigh⟩

/-- The number is that of a word. -/
def InRange (n : Int) : Prop :=
  -0x8000000000000000 ≤ n ∧ n < 0x8000000000000000

instance (n : Int) : Decidable (InRange n) :=
  inferInstanceAs (Decidable (_ ∧ _))

theorem toInt_ofInt {n : Int} (hlow : -0x8000000000000000 ≤ n)
    (hhigh : n < 0x8000000000000000) : (Int64.ofInt n).toInt = n :=
  Int64.toInt_ofInt_of_le (by norm_num; exact hlow) (by norm_num; exact hhigh)

theorem toInt_ofNat {n : Nat} (h : n < 0x8000000000000000) : (Int64.ofNat n).toInt = n :=
  Int64.toInt_ofNat_of_lt (by norm_num; exact h)

theorem ofInt?_eq_some_iff {n : Int} {w : Word} : ofInt? n = some w ↔ w.toInt = n := by
  unfold ofInt?
  constructor
  · intro h
    split at h
    · rename_i hrange
      obtain rfl := Option.some.inj h
      exact toInt_ofInt hrange.1 hrange.2
    · cases h
  · rintro rfl
    rw [if_pos w.toInt_bounds, Int64.ofInt_toInt]

theorem ofInt?_eq_none_iff {n : Int} :
    ofInt? n = none ↔ ¬(-0x8000000000000000 ≤ n ∧ n < 0x8000000000000000) := by
  unfold ofInt?
  split <;> simp_all

@[simp] theorem ofInt?_toInt (w : Word) : ofInt? w.toInt = some w :=
  ofInt?_eq_some_iff.2 rfl

theorem add?_eq_some_iff {a b c : Word} : add? a b = some c ↔ c.toInt = a.toInt + b.toInt :=
  ofInt?_eq_some_iff

theorem sub?_eq_some_iff {a b c : Word} : sub? a b = some c ↔ c.toInt = a.toInt - b.toInt :=
  ofInt?_eq_some_iff

theorem add?_eq_none_iff {a b : Word} : add? a b = none ↔ ¬ InRange (a.toInt + b.toInt) :=
  ofInt?_eq_none_iff

theorem sub?_eq_none_iff {a b : Word} : sub? a b = none ↔ ¬ InRange (a.toInt - b.toInt) :=
  ofInt?_eq_none_iff

@[simp] theorem toInt_zero : (0 : Word).toInt = 0 := rfl

@[simp] theorem toInt_one : (1 : Word).toInt = 1 := rfl

theorem eq_zero_iff {w : Word} : w = 0 ↔ w.toInt = 0 := by
  rw [← Int64.toInt_inj, toInt_zero]

@[simp] theorem address?_ofAddress {a : Nat} (h : a < 0x8000000000000000) :
    address? (ofAddress a) = some a := by
  unfold address? ofAddress
  rw [toInt_ofNat h, if_pos (Int.natCast_nonneg a), Int.toNat_natCast]

theorem eq_ofAddress_of_address? {w : Word} {a : Nat} (h : w.address? = some a) :
    w = ofAddress a := by
  obtain ⟨hsign, hvalue⟩ := Option.ite_none_right_eq_some.1 h
  obtain rfl := Option.some.inj hvalue
  have hbounds := w.toInt_bounds
  rw [ofAddress, ← Int64.toInt_inj, toInt_ofNat (by omega), Int.toNat_of_nonneg hsign]

/-! ## Numerals -/

end Word

namespace Numeral

theorem isDigit_eq (c : Char) : isDigit c = c.isDigit := by
  simp only [isDigit, Char.isDigit, Char.le_def]

theorem value_toDigits (n : Nat) : value (Nat.toDigits 10 n) = n := by
  have h := Nat.ofDigitChars_ten_toDigits (n := n)
  rw [Nat.ofDigitChars_eq_foldl] at h
  exact h

theorem toDigits_injective {m n : Nat} (h : Nat.toDigits 10 m = Nat.toDigits 10 n) : m = n := by
  rw [← value_toDigits m, h, value_toDigits]

theorem toString_injective {m n : Nat} (h : toString m = toString n) : m = n := by
  apply toDigits_injective
  simpa using congrArg String.toList h

theorem natural?_of_isDigit {digits : List Char} (hne : digits ≠ [])
    (h : ∀ c ∈ digits, c.isDigit) : natural? digits = some (value digits) := by
  have hdigits : digits.all isDigit := by
    rw [List.all_eq_true]
    intro c hc
    rw [isDigit_eq]
    exact h c hc
  have hempty : digits.isEmpty = false := List.isEmpty_eq_false_iff.2 hne
  simp [natural?, hdigits, hempty]

theorem natural?_toDigits (n : Nat) : natural? (Nat.toDigits 10 n) = some n := by
  have hdigits : ∀ c ∈ Nat.toDigits 10 n, c.isDigit :=
    fun c hc => Nat.isDigit_of_mem_toDigits (by decide) (by decide) hc
  rw [natural?_of_isDigit Nat.toDigits_ne_nil hdigits, value_toDigits]

theorem integer?_of_isDigit {digits : List Char} (h : ∀ c ∈ digits, c.isDigit) :
    integer? digits = (natural? digits).map fun n => (n : Int) := by
  cases digits with
  | nil => rfl
  | cons c rest =>
      have hc := h c List.mem_cons_self
      have hminus : c ≠ '-' := by
        rintro rfl
        exact absurd hc (by decide)
      have hplus : c ≠ '+' := by
        rintro rfl
        exact absurd hc (by decide)
      unfold integer?
      split <;> simp_all

end Numeral

namespace Word

theorem text_toList (w : Word) :
    w.text.toList =
      (if w.toInt < 0 then ['-'] else []) ++ Nat.toDigits 10 w.toInt.natAbs := by
  unfold text
  rw [Int.toString_eq_repr, Int.repr_eq_if]
  by_cases hsign : 0 ≤ w.toInt
  · have habs : w.toInt.natAbs = w.toInt.toNat := by omega
    rw [if_pos hsign, if_neg (by omega), habs]
    simp
  · have habs : w.toInt.natAbs = (-w.toInt).toNat := by omega
    rw [if_neg hsign, if_pos (by omega), habs]
    simp

theorem parse?_text (w : Word) : parse? w.text = some w := by
  have hread : Numeral.integer? w.text.toList = some w.toInt := by
    rw [text_toList]
    split
    · rename_i hneg
      have habs : -(w.toInt.natAbs : Int) = w.toInt := by omega
      simp only [List.cons_append, List.nil_append, Numeral.integer?,
        Numeral.natural?_toDigits]
      exact congrArg some habs
    · rename_i hpos
      have habs : (w.toInt.natAbs : Int) = w.toInt := by omega
      rw [List.nil_append, Numeral.integer?_of_isDigit, Numeral.natural?_toDigits]
      · simp [habs]
      · intro c hc
        exact Nat.isDigit_of_mem_toDigits (by decide) (by decide) hc
  simp [parse?, hread]

theorem text_injective {v w : Word} (h : v.text = w.text) : v = w := by
  have hv := parse?_text v
  rw [h, parse?_text] at hv
  exact (Option.some.inj hv).symm

end Word
end LittleMan
