import LittleMan.Proofs.Blocks

/-!
# The blocks of operators

For every operator there is a lemma on the block that it is lowered to: under the exact
condition given it leads to the end of the block with the value of the operator in the
cell of the result, changes only cells of its own, and otherwise it overflows.

Multiplication adds up, division counts how often the divisor can be taken away, and a
power is a loop around a multiplication, so each of them is an induction on the number
of passes that are left.
-/

namespace LittleMan

open Mark

namespace Layout

variable {L : Layout} {v : View} {p : Nat} {acc : Word} {cells : Cell → Word}

/-! ## Comparisons -/

theorem select_leads (hL : L.Placed) {n : Nat} {branch : Opcode} {whenTaken taken : Bool}
    (hlaid : Laid L.code p (select n branch whenTaken))
    (hbranch : (branch = .brz ∧ taken = decide (acc.toInt = 0)) ∨
      (branch = .brp ∧ taken = decide (0 ≤ acc.toInt)))
    (hliteral : ∀ b, cells (.literal (Word.ofBool b)) = Word.ofBool b) :
    L.Leads v p acc cells True (p + 5) fun _ cells' =>
      cells' = Function.update cells (.temporary n) (Word.ofBool (taken == whenTaken)) := by
  simp only [select, laid_order, laid_place, laid_nil, and_true, Nat.add_assoc,
    Nat.reduceAdd] at hlaid
  obtain ⟨hjump, hother, hover, hmark, hload, hdone, hstore⟩ := hlaid
  have htaken : taken = true → L.Leads v (p + 3) acc cells True (p + 5) fun _ cells' =>
      cells' = Function.update cells (.temporary n) (Word.ofBool (taken == whenTaken)) := by
    rintro rfl
    refine .lda hload (.sta hstore (.done ?_))
    simp [hliteral]
  have hmissed : taken = false → L.Leads v (p + 1) acc cells True (p + 5) fun _ cells' =>
      cells' = Function.update cells (.temporary n) (Word.ofBool (taken == whenTaken)) := by
    rintro rfl
    refine .lda hother (.bra hover (hL hdone) (.sta hstore (.done ?_)))
    simp [hliteral]
  rcases hbranch with ⟨rfl, hcase⟩ | ⟨rfl, hcase⟩
  · exact .brz hjump (hL hmark) (fun h => htaken (by simp [hcase, h]))
      fun h => hmissed (by simp [hcase, h])
  · exact .brp hjump (hL hmark) (fun h => htaken (by simp [hcase, h]))
      fun h => hmissed (by simp [hcase, h])

/-- A comparison overflows if the difference of its operands does. -/
theorem compare_leads (hL : L.Placed) {a b : Cell} {n : Nat} {branch : Opcode}
    {whenTaken taken : Bool} (hlaid : Laid L.code p (Mark.compare a b n branch whenTaken))
    (hbranch : (branch = .brz ∧ taken = decide ((cells a).toInt = (cells b).toInt)) ∨
      (branch = .brp ∧ taken = decide ((cells b).toInt ≤ (cells a).toInt)))
    (hliteral : ∀ b, cells (.literal (Word.ofBool b)) = Word.ofBool b) :
    L.Leads v p acc cells (Word.InRange ((cells a).toInt - (cells b).toInt)) (p + 7)
      fun _ cells' =>
        cells' = Function.update cells (.temporary n) (Word.ofBool (taken == whenTaken)) := by
  simp only [Mark.compare, List.cons_append, List.nil_append, laid_order] at hlaid
  refine .congr (.lda hlaid.1 (.sub hlaid.2.1 fun w hw =>
    @select_leads L v _ w cells hL n branch whenTaken taken hlaid.2.2 ?_ hliteral)) (by simp)
  rcases hbranch with ⟨rfl, hcase⟩ | ⟨rfl, hcase⟩
  · refine .inl ⟨rfl, ?_⟩
    simp only [hcase, hw, sub_eq_zero]
  · refine .inr ⟨rfl, ?_⟩
    simp only [hcase, hw, sub_nonneg]

/-! ## Multiplication -/

/-- Where the loop of a multiplication is, with the sum and the summands that are left. -/
structure Multiplying (total addend counter : Nat) (first cells : Cell → Word) (t a : Int)
    (n : Nat) : Prop where
  kept : Kept [.temporary total, .temporary addend, .temporary counter] first cells
  total : (cells (.temporary total)).toInt = t
  addend : (cells (.temporary addend)).toInt = a
  counter : (cells (.temporary counter)).toInt = n

theorem multiply_loop (hL : L.Placed) {l r : Cell} {total addend counter : Nat}
    (hlaid : Laid L.code p (multiply l r total addend counter))
    (hta : total ≠ addend) (htc : total ≠ counter) (hac : addend ≠ counter)
    {first : Cell → Word} (hone : first (.literal 1) = 1) {t a goal : Int} {n : Nat}
    (h : Multiplying total addend counter first cells t a n) (hgoal : t + n * a = goal) :
    L.Leads v (p + 13) acc cells (∀ k < n, Word.InRange (t + (k + 1) * a)) (p + 22)
      fun _ cells' => Multiplying total addend counter first cells' goal a 0 := by
  simp only [multiply, laid_append, laid_order, laid_place, laid_nil, and_true, width_append,
    width_copy, width_sum, width_difference, width_cons, width_nil, anchor, orders,
    List.length_cons, List.length_nil, and_assoc, Nat.add_assoc, Nat.reduceAdd] at hlaid
  obtain ⟨-, -, -, -, -, -, hstart, htest, hexit, hadd, hcount, hagain, hend, -⟩ := hlaid
  induction n generalizing acc cells t with
  | zero =>
      refine .lda htest (.brz hexit (hL hend) (fun _ => ?_) fun hne => ?_)
      · refine .congr (.done ?_) (by simp)
        simpa [← hgoal] using h
      · exact absurd (by simpa using h.counter) hne
  | succ n ih =>
      have hcounter := h.counter
      have hbounds := Word.toInt_bounds (cells (.temporary counter))
      have hliteral : cells (.literal 1) = 1 := (h.kept _ (by simp)).trans hone
      have hrange : Word.InRange (((n + 1 : Nat) : Int) - 1) := by
        constructor <;> push_cast at * <;> omega
      refine .lda htest (.brz hexit (hL hend) (fun hzero => by omega) fun _ => ?_)
      refine .congr (.sum hadd h.total h.addend fun w hw => .safe (.difference hcount
        (by simpa [htc.symm] using hcounter) (by simp [hliteral]) fun u hu =>
        .bra hagain (hL hstart) (ih (t := t + a) ⟨?_, ?_, ?_, ?_⟩ ?_)) hrange) ?_
      · exact (h.kept.update (by simp) w).update (by simp) u
      · simp [htc, hw]
      · simp [hac, hta.symm, h.addend]
      · simpa using hu
      · rw [← hgoal]
        push_cast
        ring
      · rw [Nat.forall_lt_succ_left]
        refine and_congr (by simp) (forall₂_congr fun k _ => ?_)
        rw [show t + a + ((k : Int) + 1) * a = t + (((k + 1 : Nat) : Int) + 1) * a by
          push_cast
          ring]

theorem forall_inRange_mul (a : Int) (n : Nat) :
    (∀ k < n, Word.InRange ((k + 1) * a)) ↔ Word.InRange (n * a) := by
  constructor
  · intro h
    cases n with
    | zero => simp [Word.InRange]
    | succ n => exact_mod_cast h n (by omega)
  · rintro ⟨hlow, hhigh⟩ k hk
    have hle : (k : Int) + 1 ≤ n := by exact_mod_cast hk
    rcases le_total 0 a with ha | ha
    · have hmul := mul_le_mul_of_nonneg_right hle ha
      have hpos : 0 ≤ ((k : Int) + 1) * a := by positivity
      constructor <;> omega
    · have hmul := mul_le_mul_of_nonpos_right hle ha
      have hneg : ((k : Int) + 1) * a ≤ 0 := mul_nonpos_of_nonneg_of_nonpos (by positivity) ha
      constructor <;> omega

theorem inRange_mul_neg {x y : Int} (hx : Word.InRange x) (hy : Word.InRange y) (hneg : y < 0) :
    (Word.InRange (0 - y) ∧ Word.InRange (0 - x) ∧ Word.InRange ((0 - y) * (0 - x))) ↔
      y ≠ -0x8000000000000000 ∧ Word.InRange (x * y) := by
  have hproduct : (0 - y) * (0 - x) = x * y := by ring
  rw [hproduct]
  unfold Word.InRange at *
  constructor
  · rintro ⟨hy', hx', hxy⟩
    exact ⟨by omega, hxy⟩
  · rintro ⟨hmin, hxy⟩
    refine ⟨by omega, ⟨by omega, ?_⟩, hxy⟩
    by_contra hlarge
    have hx' : x = -0x8000000000000000 := by omega
    subst hx'
    omega

/-- A multiplication overflows if the product does, or if the second operand is the least
word.  Otherwise it comes to the `NOP` at its end. -/
theorem multiply_reaches (hL : L.Placed) {l r : Cell} {total addend counter : Nat}
    (hlaid : Laid L.code p (multiply l r total addend counter))
    (hta : total ≠ addend) (htc : total ≠ counter) (hac : addend ≠ counter)
    (hl : l ∉ [.temporary total, .temporary addend, .temporary counter])
    (hr : r ∉ [.temporary total, .temporary addend, .temporary counter])
    (hzero : cells (.literal 0) = 0) (hone : cells (.literal 1) = 1) :
    L.Leads v p acc cells
      ((cells r).toInt ≠ -0x8000000000000000 ∧
        Word.InRange ((cells l).toInt * (cells r).toInt)) (p + 22)
      fun _ cells' =>
        (cells' (.temporary total)).toInt = (cells l).toInt * (cells r).toInt ∧
          Kept [.temporary total, .temporary addend, .temporary counter] cells cells' := by
  have hwhole := hlaid
  simp only [multiply, laid_append, laid_order, laid_place, laid_nil, and_true, width_append,
    width_copy, width_sum, width_difference, width_cons, width_nil, anchor, orders,
    List.length_cons, List.length_nil, and_assoc, Nat.add_assoc, Nat.reduceAdd] at hlaid
  obtain ⟨hinit, hleft, hright, hsign, hcounter, haddend, hstart, -⟩ := hlaid
  simp only [List.mem_cons, List.not_mem_nil, or_false, not_or] at hl hr
  obtain ⟨hlt, hla, hlc⟩ := hl
  obtain ⟨hrt, hra, hrc⟩ := hr
  have hx := Word.toInt_bounds (cells l)
  have hy := Word.toInt_bounds (cells r)
  -- What the two ways into the loop have in common.
  have hrest : ∀ {acc : Word} {cells' : Cell → Word} {a : Int} {n : Nat},
      Multiplying total addend counter cells cells' 0 a n →
      n * a = (cells l).toInt * (cells r).toInt →
      L.Leads v (p + 13) acc cells' (Word.InRange (n * a)) (p + 22) fun _ cells' =>
        (cells' (.temporary total)).toInt = (cells l).toInt * (cells r).toInt ∧
          Kept [.temporary total, .temporary addend, .temporary counter] cells cells' := by
    intro acc cells' a n h hgoal
    refine .congr (.mono (multiply_loop hL hwhole hta htc hac hone h ((zero_add _).trans hgoal))
      fun _ _ h' => ⟨h'.total, h'.kept⟩) ?_
    simp [forall_inRange_mul]
  refine .copy hinit (.copy hleft (.copy hright (.brp hsign (hL hstart) (fun hpos => ?_)
    fun hneg => ?_)))
  · simp only [Function.update_of_ne hlt, Function.update_of_ne hra, Function.update_of_ne hrt]
      at hpos ⊢
    have hn : (((cells r).toInt.toNat : Nat) : Int) = (cells r).toInt := Int.toNat_of_nonneg hpos
    refine .congr (hrest (a := (cells l).toInt) (n := (cells r).toInt.toNat) ⟨?_, ?_, ?_, ?_⟩
      (by rw [hn, mul_comm])) ?_
    · exact (((Kept.refl _ _).update (by simp) _).update (by simp) _).update (by simp) _
    · simp [hta, htc, hzero]
    · simp [hac]
    · rw [hn]
      simp
    · rw [hn, mul_comm]
      exact ⟨fun h => ⟨by omega, h⟩, And.right⟩
  · simp only [Function.update_of_ne hlt, Function.update_of_ne hra, Function.update_of_ne hrt]
      at hneg ⊢
    have hn : (((0 - (cells r).toInt).toNat : Nat) : Int) = 0 - (cells r).toInt :=
      Int.toNat_of_nonneg (by omega)
    refine .congr (.difference hcounter (x := 0) (y := (cells r).toInt) ?_ ?_ fun w hw =>
      .difference haddend (x := 0) (y := (cells l).toInt) ?_ ?_ fun u hu =>
        hrest (a := 0 - (cells l).toInt) (n := (0 - (cells r).toInt).toNat) ⟨?_, ?_, ?_, ?_⟩ ?_) ?_
    · simp [hzero]
    · simp
    · simp [hzero]
    · simp [hac]
    · exact (((((Kept.refl _ _).update (by simp) _).update (by simp) _).update (by simp) _).update
        (by simp) _).update (by simp) _
    · simp [hta, htc, hzero]
    · simp [hu]
    · rw [hn]
      simp [hac.symm, hw]
    · rw [hn]
      ring
    · rw [hn]
      exact inRange_mul_neg hx hy hneg

theorem orderAt_multiply_end {code : List Entry} {l r : Cell} {total addend counter : Nat}
    (hlaid : Laid code p (multiply l r total addend counter)) :
    PlaceAt code (p + 22) (spot total "_end") ∧ OrderAt code (p + 22) .nop .none := by
  rw [multiply, laid_append, anchor, laid_place, laid_order] at hlaid
  exact ⟨hlaid.2.1, hlaid.2.2.1⟩

theorem multiply_leads (hL : L.Placed) {l r : Cell} {total addend counter : Nat}
    (hlaid : Laid L.code p (multiply l r total addend counter))
    (hta : total ≠ addend) (htc : total ≠ counter) (hac : addend ≠ counter)
    (hl : l ∉ [.temporary total, .temporary addend, .temporary counter])
    (hr : r ∉ [.temporary total, .temporary addend, .temporary counter])
    (hzero : cells (.literal 0) = 0) (hone : cells (.literal 1) = 1) :
    L.Leads v p acc cells
      ((cells r).toInt ≠ -0x8000000000000000 ∧
        Word.InRange ((cells l).toInt * (cells r).toInt)) (p + 23)
      fun _ cells' =>
        (cells' (.temporary total)).toInt = (cells l).toInt * (cells r).toInt ∧
          Kept [.temporary total, .temporary addend, .temporary counter] cells cells' := by
  have hnop := (orderAt_multiply_end hlaid).2
  exact .congr ((multiply_reaches hL hlaid hta htc hac hl hr hzero hone).bind
    fun _ _ hpost => .nop hnop (.done hpost)) (and_iff_left trivial)

/-! ## Powers -/

@[simp] theorem width_multiply (l r : Cell) (total addend counter : Nat) :
    width (multiply l r total addend counter) = 23 := rfl

theorem forall_inRange_pow (a : Int) (n : Nat) :
    (∀ k < n, Word.InRange (a ^ (k + 1))) ↔ n = 0 ∨ Word.InRange (a ^ n) := by
  constructor
  · intro h
    cases n with
    | zero => exact .inl rfl
    | succ n => exact .inr (h n (by omega))
  · rintro (rfl | hn) k hk
    · omega
    · rcases Nat.lt_or_ge (k + 1) n with hlt | hge
      · have hsmall : |a ^ (k + 1)| < |a ^ n| ∨ |a ^ (k + 1)| ≤ 1 := by
          rw [abs_pow, abs_pow]
          rcases le_or_gt |a| 1 with hle | hgt
          · exact .inr (pow_le_one₀ (abs_nonneg a) hle)
          · exact .inl (pow_lt_pow_right₀ hgt hlt)
        obtain ⟨hlow, hhigh⟩ := hn
        have habs : |a ^ n| ≤ 0x8000000000000000 := abs_le.2 ⟨by omega, by omega⟩
        have hbounds := abs_le.1 (le_refl |a ^ (k + 1)|)
        constructor <;> omega
      · rwa [show k + 1 = n by omega]

/-- Where the loop of a power is, with the product and the factors that are left. -/
structure Raising (total exponent : Nat) (own : List Cell) (first cells : Cell → Word) (t : Int)
    (e : Int) : Prop where
  kept : Kept own first cells
  total : (cells (.temporary total)).toInt = t
  exponent : (cells (.temporary exponent)).toInt = e

def powerCells (n : Nat) : List Cell :=
  [.temporary n, .temporary (n + 1), .temporary (n + 2), .temporary (n + 3), .temporary (n + 4)]

theorem power_loop (hL : L.Placed) {l r : Cell} {n : Nat}
    (hlaid : Laid L.code p (power l r n (n + 1) (n + 2) (n + 3) (n + 4)))
    (hl : l ∉ powerCells n) {first : Cell → Word} (hzero : first (.literal 0) = 0)
    (hone : first (.literal 1) = 1) {t e goal : Int} {count : Nat} (hcount : e.toNat = count)
    (h : Raising n (n + 1) (powerCells n) first cells t e)
    (hgoal : t * (first l).toInt ^ count = goal) :
    L.Leads v (p + 4) acc cells
      (∀ k < count, (first l).toInt ≠ -0x8000000000000000 ∧
        Word.InRange (t * (first l).toInt ^ (k + 1))) (p + 37)
      fun _ cells' =>
        (cells' (.temporary n)).toInt = goal ∧ Kept (powerCells n) first cells' := by
  simp only [power, laid_append, laid_order, laid_place, laid_nil, and_true, width_append,
    width_copy, width_difference, width_multiply, width_cons, width_nil, anchor, orders,
    List.length_cons, List.length_nil, and_assoc, Nat.add_assoc, Nat.reduceAdd] at hlaid
  obtain ⟨-, -, houter, htest, hexit, hbody, hleave, hentry, hmultiply, hcopy, hless, hagain, hend,
    -⟩ := hlaid
  have hlcells : l ∉ [Cell.temporary (n + 2), .temporary (n + 3), .temporary (n + 4)] :=
    fun hmem => hl (.tail _ (.tail _ hmem))
  induction count generalizing acc cells t e with
  | zero =>
      have hdone : ∀ {acc : Word}, L.Leads v (p + 37) acc cells
          (∀ k < 0, (first l).toInt ≠ -0x8000000000000000 ∧
            Word.InRange (t * (first l).toInt ^ (k + 1))) (p + 37)
          fun _ cells' =>
            (cells' (.temporary n)).toInt = goal ∧ Kept (powerCells n) first cells' := by
        intro acc
        refine .congr (.done ⟨?_, h.kept⟩) (by simp)
        rw [h.total, ← hgoal, pow_zero, mul_one]
      refine .lda htest (.brz hexit (hL hend) (fun _ => hdone) fun hne =>
        .brp hbody (hL hentry) (fun hpos => ?_) fun _ => .bra hleave (hL hend) hdone)
      rw [h.exponent] at hne hpos
      omega
  | succ count ih =>
      have he := h.exponent
      have hbounds := Word.toInt_bounds (cells (.temporary (n + 1)))
      have hrange : Word.InRange (e - 1) := by
        constructor <;> omega
      have hl' : cells l = first l := h.kept l hl
      have hzero' : cells (.literal 0) = 0 := (h.kept _ (by simp [powerCells])).trans hzero
      have hone' : cells (.literal 1) = 1 := (h.kept _ (by simp [powerCells])).trans hone
      refine .lda htest (.brz hexit (hL hend) (fun hz => by omega) fun _ =>
        .brp hbody (hL hentry) (fun _ => ?_) fun hneg => by omega)
      refine .congr ((multiply_leads hL hmultiply (by omega) (by omega) (by omega) (by simp)
        hlcells hzero' hone').bind fun acc cells' hpost => .copy hcopy (.safe (.difference hless
          (x := e) (y := 1) ?_ ?_ fun w hw => .bra hagain (hL houter)
            (ih (t := t * (first l).toInt) (e := e - 1) (by omega) ⟨?_, ?_, ?_⟩ ?_)) hrange)) ?_
      · obtain ⟨-, hkept⟩ := hpost
        simp [hkept _ (show Cell.temporary (n + 1) ∉ _ by simp), he]
      · obtain ⟨-, hkept⟩ := hpost
        simp [hkept _ (show Cell.literal 1 ∉ _ by simp), hone']
      · obtain ⟨-, hkept⟩ := hpost
        refine ((h.kept.trans (hkept.mono ?_)).update (by simp [powerCells]) _).update
          (by simp [powerCells]) _
        simp [powerCells]
      · simp [hpost.1, h.total, hl']
      · simp [hw]
      · rw [← hgoal, pow_succ]
        ring
      · rw [Nat.forall_lt_succ_left, h.total, hl']
        refine and_congr (by simp) (forall₂_congr fun k _ => and_congr_right fun _ => ?_)
        rw [pow_succ _ (k + 1)]
        ring_nf

/-- A power with a positive exponent overflows if its value does, or if the base is the
least word.  Otherwise it comes to the `NOP` at its end. -/
theorem power_reaches (hL : L.Placed) {l r : Cell} {n : Nat}
    (hlaid : Laid L.code p (power l r n (n + 1) (n + 2) (n + 3) (n + 4)))
    (hl : l ∉ powerCells n) (hr : r ∉ powerCells n)
    (hzero : cells (.literal 0) = 0) (hone : cells (.literal 1) = 1) :
    L.Leads v p acc cells
      (0 < (cells r).toInt → (cells l).toInt ≠ -0x8000000000000000 ∧
        Word.InRange ((cells l).toInt ^ (cells r).toInt.toNat)) (p + 37)
      fun _ cells' =>
        (cells' (.temporary n)).toInt = (cells l).toInt ^ (cells r).toInt.toNat ∧
          Kept (powerCells n) cells cells' := by
  have hwhole := hlaid
  simp only [power, laid_append, width_copy] at hlaid
  obtain ⟨⟨⟨⟨⟨⟨⟨hinit, hcopy⟩, -⟩, -⟩, -⟩, -⟩, -⟩, -⟩ := hlaid
  have hrn : r ≠ .temporary n := fun h => hr (by simp [powerCells, h])
  refine .copy hinit (.copy hcopy ?_)
  refine .congr (power_loop hL hwhole hl hzero hone (t := 1) (e := (cells r).toInt) rfl
    ⟨?_, ?_, ?_⟩ (one_mul _)) ?_
  · exact ((Kept.refl _ _).update (by simp [powerCells]) _).update (by simp [powerCells]) _
  · simp [hone]
  · simp [hrn]
  · simp only [one_mul]
    constructor
    · intro h hpos
      have hcount : 0 < (cells r).toInt.toNat := by omega
      refine ⟨(h 0 hcount).1, ?_⟩
      exact ((forall_inRange_pow _ _).1 fun k hk => (h k hk).2).resolve_left hcount.ne'
    · intro h k hk
      obtain ⟨hmin, hrange⟩ := h (by omega)
      exact ⟨hmin, (forall_inRange_pow _ _).2 (.inr hrange) k hk⟩

theorem orderAt_power_end {code : List Entry} {l r : Cell}
    {total exponent product addend counter : Nat}
    (hlaid : Laid code p (power l r total exponent product addend counter)) :
    PlaceAt code (p + 37) (spot total "_outer_end") ∧ OrderAt code (p + 37) .nop .none := by
  rw [power, laid_append, anchor, laid_place, laid_order] at hlaid
  simp only [width_append, width_copy, width_difference, width_multiply, width_cons, width_nil,
    orders, List.length_cons, List.length_nil, Nat.reduceAdd] at hlaid
  exact ⟨hlaid.2.1, hlaid.2.2.1⟩

theorem power_leads (hL : L.Placed) {l r : Cell} {n : Nat}
    (hlaid : Laid L.code p (power l r n (n + 1) (n + 2) (n + 3) (n + 4)))
    (hl : l ∉ powerCells n) (hr : r ∉ powerCells n)
    (hzero : cells (.literal 0) = 0) (hone : cells (.literal 1) = 1) :
    L.Leads v p acc cells
      (0 < (cells r).toInt → (cells l).toInt ≠ -0x8000000000000000 ∧
        Word.InRange ((cells l).toInt ^ (cells r).toInt.toNat)) (p + 38)
      fun _ cells' =>
        (cells' (.temporary n)).toInt = (cells l).toInt ^ (cells r).toInt.toNat ∧
          Kept (powerCells n) cells cells' := by
  have hnop := (orderAt_power_end hlaid).2
  exact .congr ((power_reaches hL hlaid hl hr hzero hone).bind
    fun _ _ hpost => .nop hnop (.done hpost)) (and_iff_left trivial)

/-! ## Division -/

/-- Taking the magnitude of an operand overflows if the operand is the least word. -/
theorem magnitude_leads (hL : L.Placed) {operand : Cell} {copied flag : Nat} {ready : Place}
    (hlaid : Laid L.code p (magnitude operand (.temporary copied) (.temporary flag) ready))
    (hne : copied ≠ flag) (hzero : cells (.literal 0) = 0) (hone : cells (.literal 1) = 1)
    (hflag : (cells (.temporary flag)).toInt = 0) {x : Int} (hx : (cells operand).toInt = x) :
    L.Leads v p acc cells (x ≠ -0x8000000000000000) (p + 8) fun _ cells' =>
      (cells' (.temporary copied)).toInt = |x| ∧
        (cells' (.temporary flag)).toInt = (if x < 0 then 1 else 0) ∧
        Kept [.temporary copied, .temporary flag] cells cells' := by
  subst hx
  simp only [magnitude, laid_append, laid_order, laid_place, laid_nil, and_true, width_append,
    width_copy, width_difference, width_cons, width_nil, orders, List.length_cons,
    List.length_nil, and_assoc, Nat.add_assoc, Nat.reduceAdd] at hlaid
  obtain ⟨hcopy, hsign, hnegate, hset, hready⟩ := hlaid
  have hbounds := Word.toInt_bounds (cells operand)
  refine .copy hcopy (.brp hsign (hL hready) (fun hpos => ?_) fun hneg => ?_)
  · refine .congr (.done ⟨?_, ?_, (Kept.refl _ _).update (by simp) _⟩) ?_
    · rw [Function.update_self, abs_of_nonneg hpos]
    · rw [if_neg (by omega)]
      simpa [hne.symm] using hflag
    · simp only [true_iff]
      omega
  · refine .congr (.difference hnegate (x := 0) (y := (cells operand).toInt) ?_ ?_ fun w hw =>
      .copy hset (.done ⟨?_, ?_, ?_⟩)) ?_
    · simp [hzero]
    · simp
    · simp [hne, hw, abs_of_neg hneg]
    · simp [hone, hneg]
    · exact (((Kept.refl _ _).update (by simp) _).update (by simp) _).update (by simp) _
    · unfold Word.InRange
      simp only [and_true]
      omega

/-- Where the loop of a division is: how often the divisor has been taken away, and what is
left of the dividend. -/
structure Dividing (quotient remainder : Nat) (divisor : Cell) (first cells : Cell → Word)
    (k rest d : Int) : Prop where
  kept : Kept [.temporary quotient, .temporary remainder] first cells
  quotient : (cells (.temporary quotient)).toInt = k
  remainder : (cells (.temporary remainder)).toInt = rest
  divisor : (cells divisor).toInt = d

section DivisionLoop

variable {quotient remainder base : Nat} {w : DivisionCells} {first : Cell → Word} {k rest d : Int}

theorem division_pass
    (hlaid : Laid L.code p (divisionLoop quotient remainder w base)) (hqr : quotient ≠ remainder)
    (hqd : quotient ≠ w.divisor) (hrd : remainder ≠ w.divisor) (hone : first (.literal 1) = 1)
    (h : Dividing quotient remainder (.temporary w.divisor) first cells k rest d)
    (hrest : 0 ≤ rest) (hd : 0 ≤ d) {ok : Prop} {q : Nat} {Q : Word → (Cell → Word) → Prop}
    (hnext : ∀ (acc : Word) (cells : Cell → Word), acc.toInt = rest - d →
      Dividing quotient remainder (.temporary w.divisor) first cells (k + 1) (rest - d) d →
      L.Leads v (p + 10) acc cells ok q Q) :
    L.Leads v (p + 4) acc cells (Word.InRange (k + 1) ∧ ok) q Q := by
  simp only [divisionLoop, laid_append, laid_order, laid_place, laid_nil, and_true, width_append,
    width_copy, width_sum, width_difference, width_cons, width_nil, orders, List.length_cons,
    List.length_nil, and_assoc, Nat.add_assoc, Nat.reduceAdd] at hlaid
  obtain ⟨-, -, -, hcount, htake, -⟩ := hlaid
  have hliteral : cells (.literal 1) = 1 := (h.kept _ (by simp)).trans hone
  have hremainder := h.remainder
  have hdivisor := h.divisor
  have hboundsR := Word.toInt_bounds (cells (.temporary remainder))
  have hboundsD := Word.toInt_bounds (cells (.temporary w.divisor))
  have hrange : Word.InRange (rest - d) := by
    constructor <;> omega
  refine .sum hcount h.quotient (y := 1) ?_ fun u hu => .safe (.difference htake (x := rest)
    (y := d) ?_ ?_ fun u' hu' => hnext _ _ hu' ⟨?_, ?_, ?_, ?_⟩) hrange
  · simp [hliteral]
  · simpa [hqr.symm] using hremainder
  · simpa [hqd.symm] using hdivisor
  · exact (h.kept.update (by simp) _).update (by simp) _
  · simp [hqr, hu]
  · simp [hu']
  · simpa [hqd.symm, hrd.symm] using hdivisor

/-- With a positive divisor the loop counts up to the quotient and one beyond. -/
theorem division_loop (hL : L.Placed)
    (hlaid : Laid L.code p (divisionLoop quotient remainder w base)) (hqr : quotient ≠ remainder)
    (hqd : quotient ≠ w.divisor) (hrd : remainder ≠ w.divisor) (hone : first (.literal 1) = 1)
    {n : Nat} {left : Int}
    (h : Dividing quotient remainder (.temporary w.divisor) first cells k rest d) (hk : 0 ≤ k)
    (hrest : rest = n * d + left) (hleft : 0 ≤ left) (hless : left < d) {goal : Int}
    (hgoal : k + n = goal) :
    L.Leads v (p + 4) acc cells (Word.InRange (goal + 1)) (p + 17) fun _ cells' =>
      Dividing quotient remainder (.temporary w.divisor) first cells' goal left d := by
  have hd : 0 ≤ d := by omega
  have hwhole := hlaid
  simp only [divisionLoop, laid_append, laid_order, laid_place, laid_nil, and_true, width_append,
    width_copy, width_sum, width_difference, width_cons, width_nil, orders, List.length_cons,
    List.length_nil, and_assoc, Nat.add_assoc, Nat.reduceAdd] at hlaid
  obtain ⟨-, -, hstart, -, -, hagain, hback, hput⟩ := hlaid
  induction n generalizing acc cells k rest with
  | zero =>
      obtain rfl : rest = left := by simpa using hrest
      obtain rfl : k = goal := by simpa using hgoal
      have hbounds := Word.toInt_bounds (cells (.temporary quotient))
      have hboundsR := Word.toInt_bounds (cells (.temporary remainder))
      rw [h.quotient] at hbounds
      rw [h.remainder] at hboundsR
      have hrange : Word.InRange (k + 1 - 1) := by
        constructor <;> omega
      have hrangeR : Word.InRange (rest - d + d) := by
        constructor <;> omega
      refine .congr (division_pass hwhole hqr hqd hrd hone h hleft hd fun acc cells hacc h' =>
        .brp hagain (hL hstart) (fun hpos => by omega) fun _ => .safe (.difference hback h'.quotient
          (y := 1) ?_ fun u hu => .safe (.sum hput (x := rest - d) (y := d) ?_ ?_ fun u' hu' =>
            .done ⟨?_, ?_, ?_, ?_⟩) hrangeR) hrange) (and_iff_left trivial)
      · simp [(h'.kept (.literal 1) (by simp)).trans hone]
      · simpa [hqr.symm] using h'.remainder
      · simpa [hqd.symm] using h'.divisor
      · exact (h'.kept.update (by simp) _).update (by simp) _
      · simp [hqr, hu]
      · simp [hu']
      · simpa [hqd.symm, hrd.symm] using h'.divisor
  | succ n ih =>
      have hmore : 0 ≤ rest - d := by
        rw [hrest]
        push_cast
        have := mul_nonneg (Int.natCast_nonneg n) hd
        linarith
      refine .congr (division_pass hwhole hqr hqd hrd hone h (by omega) hd fun acc cells hacc h' =>
        .brp hagain (hL hstart) (fun _ => ih h' (by omega) ?_ ?_) fun hneg => by omega) ?_
      · rw [hrest]
        push_cast
        ring
      · rw [← hgoal]
        push_cast
        ring
      · have hbounds := Word.toInt_bounds (cells (.temporary quotient))
        rw [h.quotient] at hbounds
        push_cast at hgoal
        unfold Word.InRange
        omega

/-- A divisor that is zero can be taken away for ever, until the count overflows. -/
theorem division_by_zero (hL : L.Placed)
    (hlaid : Laid L.code p (divisionLoop quotient remainder w base)) (hqr : quotient ≠ remainder)
    (hqd : quotient ≠ w.divisor) (hrd : remainder ≠ w.divisor) (hone : first (.literal 1) = 1)
    (h : Dividing quotient remainder (.temporary w.divisor) first cells k rest 0) (hk : 0 ≤ k)
    (hrest : 0 ≤ rest) {q : Nat} {Q : Word → (Cell → Word) → Prop} :
    L.Leads v (p + 4) acc cells False q Q := by
  have hwhole := hlaid
  simp only [divisionLoop, laid_append, laid_order, laid_place, laid_nil, and_true, width_append,
    width_copy, width_sum, width_difference, width_cons, width_nil, orders, List.length_cons,
    List.length_nil, and_assoc, Nat.add_assoc, Nat.reduceAdd] at hlaid
  obtain ⟨-, -, hstart, -, -, hagain, -, -⟩ := hlaid
  have hbounds := Word.toInt_bounds (cells (.temporary quotient))
  rw [h.quotient] at hbounds
  -- The induction is on how far the count is from the last word.
  obtain ⟨n, hn⟩ : ∃ n : Nat, k + n = 0x7fffffffffffffff :=
    ⟨(0x7fffffffffffffff - k).toNat, by omega⟩
  clear hbounds
  induction n generalizing acc cells k with
  | zero =>
      refine .congr (division_pass hwhole hqr hqd hrd hone h hrest le_rfl fun acc cells _ h' => ?_)
        (iff_of_eq (and_false _))
      have hbounds := Word.toInt_bounds (cells (.temporary quotient))
      rw [h'.quotient] at hbounds
      push_cast at hn
      omega
  | succ n ih =>
      refine .congr (division_pass hwhole hqr hqd hrd hone h hrest le_rfl fun acc cells hacc h' =>
        .brp hagain (hL hstart) (fun _ => ih (by simpa using h') (by omega) (by push_cast at hn; omega))
          fun hneg => by omega) (by simp)

theorem divisionLoop_leads (hL : L.Placed)
    (hlaid : Laid L.code p (divisionLoop quotient remainder w base)) (hqr : quotient ≠ remainder)
    (hqd : quotient ≠ w.divisor) (hrd : remainder ≠ w.divisor) (hqD : quotient ≠ w.dividend)
    (hzero : cells (.literal 0) = 0) (hone : cells (.literal 1) = 1) {dividend : Int}
    (hdividend : (cells (.temporary w.dividend)).toInt = dividend)
    (hdivisor : (cells (.temporary w.divisor)).toInt = d)
    (hpos : 0 ≤ dividend) (hd : 0 ≤ d) :
    L.Leads v p acc cells (d ≠ 0 ∧ Word.InRange (dividend / d + 1)) (p + 17) fun _ cells' =>
      Dividing quotient remainder (.temporary w.divisor) cells cells' (dividend / d)
        (dividend % d) d := by
  have hwhole := hlaid
  simp only [divisionLoop, laid_append, width_copy] at hlaid
  obtain ⟨⟨⟨⟨⟨⟨⟨hcount, hrest⟩, -⟩, -⟩, -⟩, -⟩, -⟩, -⟩ := hlaid
  refine .copy hcount (.copy hrest ?_)
  have hstate : Dividing quotient remainder (.temporary w.divisor) cells
      (Function.update (Function.update cells (.temporary quotient) (cells (.literal 0)))
        (.temporary remainder) (Function.update cells (.temporary quotient) (cells (.literal 0))
          (.temporary w.dividend))) 0 dividend d := by
    refine ⟨((Kept.refl _ _).update (by simp) _).update (by simp) _, ?_, ?_, ?_⟩
    · simp [hqr, hzero]
    · simp [hqD.symm, hdividend]
    · simp [hqd.symm, hrd.symm, hdivisor]
  by_cases hzeroD : d = 0
  · subst hzeroD
    exact .congr (division_by_zero hL hwhole hqr hqd hrd hone hstate le_rfl hpos) (by simp)
  · have hquotient : ((dividend / d).toNat : Int) = dividend / d :=
      Int.toNat_of_nonneg (Int.ediv_nonneg hpos hd)
    refine .congr (division_loop hL hwhole hqr hqd hrd hone (n := (dividend / d).toNat)
      hstate le_rfl ?_ (Int.emod_nonneg _ hzeroD) (Int.emod_lt_of_pos _ (by omega)) ?_) ?_
    · rw [hquotient, mul_comm]
      exact (Int.mul_ediv_add_emod dividend d).symm
    · rw [hquotient, zero_add]
    · simp [hzeroD]

end DivisionLoop

structure Signed (x y q r : Int) : Prop where
  sum : r + y * q = x
  pos : 0 < y → 0 ≤ r ∧ r < y
  neg : y < 0 → y < r ∧ r ≤ 0

theorem Signed.eq {x y q r : Int} (h : Signed x y q r) (hy : y ≠ 0) :
    q = x.fdiv y ∧ r = x.fmod y := by
  rcases lt_or_gt_of_ne hy with hneg | hpos
  · have hunique := (Int.fdiv_fmod_unique' hneg).2 ⟨h.sum, h.neg hneg⟩
    exact ⟨hunique.1.symm, hunique.2.symm⟩
  · have hunique := (Int.fdiv_fmod_unique hpos).2 ⟨h.sum, h.pos hpos⟩
    exact ⟨hunique.1.symm, hunique.2.symm⟩

section DivisionSigns

variable {quotient remainder base : Nat} {w : DivisionCells} {first : Cell → Word} {x y q r : Int}

structure Apart (quotient remainder : Nat) (w : DivisionCells) : Prop where
  quotient_remainder : quotient ≠ remainder
  quotient_dividend : quotient ≠ w.dividend
  quotient_divisor : quotient ≠ w.divisor
  quotient_left : quotient ≠ w.leftNegative
  quotient_right : quotient ≠ w.rightNegative
  remainder_divisor : remainder ≠ w.divisor
  remainder_left : remainder ≠ w.leftNegative
  remainder_right : remainder ≠ w.rightNegative
  dividend_divisor : w.dividend ≠ w.divisor
  dividend_left : w.dividend ≠ w.leftNegative
  dividend_right : w.dividend ≠ w.rightNegative
  divisor_left : w.divisor ≠ w.leftNegative
  divisor_right : w.divisor ≠ w.rightNegative
  left_right : w.leftNegative ≠ w.rightNegative

structure Divided (quotient remainder : Nat) (w : DivisionCells) (first cells : Cell → Word)
    (x y q r : Int) : Prop where
  kept : Kept [.temporary quotient, .temporary remainder] first cells
  quotient : (cells (.temporary quotient)).toInt = q
  remainder : (cells (.temporary remainder)).toInt = r
  divisor : (cells (.temporary w.divisor)).toInt = |y|
  left : (cells (.temporary w.leftNegative)).toInt = if x < 0 then 1 else 0
  right : (cells (.temporary w.rightNegative)).toInt = if y < 0 then 1 else 0

theorem remainderSign_leads (hL : L.Placed)
    (hlaid : Laid L.code p (divisionSigns quotient remainder w base))
    (hapart : Apart quotient remainder w) (hzero : first (.literal 0) = 0)
    (h : Divided quotient remainder w first cells x y q r) (hy : y ≠ 0)
    (hsigned : Signed x y q (if y < 0 then -r else r)) :
    L.Leads v (p + 14) acc cells True (p + 19) fun _ cells' =>
      (cells' (.temporary quotient)).toInt = x.fdiv y ∧
        (cells' (.temporary remainder)).toInt = x.fmod y ∧
        Kept [.temporary quotient, .temporary remainder] first cells' := by
  simp only [divisionSigns, laid_append, laid_order, laid_place, laid_nil, and_true, width_append,
    width_difference, width_cons, width_nil, anchor, orders, List.length_cons, List.length_nil,
    and_assoc, Nat.add_assoc, Nat.reduceAdd] at hlaid
  obtain ⟨-, -, -, -, -, -, -, -, -, htest, hskip, hnegate, hend, -⟩ := hlaid
  obtain ⟨hquotient, hremainder⟩ := hsigned.eq hy
  have hright := h.right
  have hbounds := Word.toInt_bounds (cells (.temporary remainder))
  have hliteral : cells (.literal 0) = 0 := (h.kept _ (by simp)).trans hzero
  refine .lda htest (.brz hskip (hL hend) (fun hflag => ?_) fun hflag => ?_)
  · rw [hright] at hflag
    have hpos : ¬ y < 0 := fun hneg => by simp [hneg] at hflag
    rw [if_neg hpos] at hremainder
    exact .done ⟨h.quotient.trans hquotient, h.remainder.trans hremainder, h.kept⟩
  · rw [hright] at hflag
    have hneg : y < 0 := by
      by_contra hpos
      simp [hpos] at hflag
    rw [if_pos hneg] at hremainder
    have hrange : Word.InRange (0 - r) := by
      have hwords := hsigned.neg hneg
      rw [if_pos hneg] at hwords
      rw [h.remainder] at hbounds
      constructor <;> omega
    refine .safe (.difference hnegate (x := 0) (y := r) ?_ h.remainder fun u hu =>
      .done ⟨?_, ?_, h.kept.update (by simp) _⟩) hrange
    · simp [hliteral]
    · rw [← hquotient]
      simpa [hapart.quotient_remainder] using h.quotient
    · simp [hu, ← hremainder]

theorem signed_of_same (hy : y ≠ 0) (hsame : x < 0 ↔ y < 0) :
    Signed x y (|x| / |y|) (if y < 0 then -(|x| % |y|) else |x| % |y|) := by
  have hy' : |y| ≠ 0 := abs_ne_zero.2 hy
  have heuclid := Int.mul_ediv_add_emod |x| |y|
  have hlow := Int.emod_nonneg |x| hy'
  have hhigh := Int.emod_lt_of_pos |x| (abs_pos.2 hy)
  by_cases hneg : y < 0
  · rw [if_pos hneg]
    rw [abs_of_neg (hsame.2 hneg), abs_of_neg hneg] at *
    refine ⟨by linarith, fun hpos => by omega, fun _ => ⟨by omega, by omega⟩⟩
  · rw [if_neg hneg]
    rw [abs_of_nonneg (not_lt.1 fun hx => hneg (hsame.1 hx)), abs_of_nonneg (not_lt.1 hneg)] at *
    exact ⟨by linarith, fun _ => ⟨hlow, hhigh⟩, fun h => absurd h hneg⟩

theorem signed_of_even (hother : ¬ (x < 0 ↔ y < 0)) (heven : |x| % |y| = 0) :
    Signed x y (0 - |x| / |y|) (if y < 0 then -0 else 0) := by
  have heuclid := Int.mul_ediv_add_emod |x| |y|
  rw [heven, add_zero] at heuclid
  rw [neg_zero, ite_self]
  refine ⟨?_, fun hpos => ⟨le_rfl, hpos⟩, fun hneg => ⟨hneg, le_rfl⟩⟩
  by_cases hneg : y < 0
  · have hx : 0 ≤ x := not_lt.1 fun hx => hother ⟨fun _ => hneg, fun _ => hx⟩
    rw [abs_of_nonneg hx, abs_of_neg hneg] at *
    linarith
  · have hx : x < 0 := by
      by_contra hx
      exact hother ⟨fun h => absurd h hx, fun h => absurd h hneg⟩
    rw [abs_of_neg hx, abs_of_nonneg (not_lt.1 hneg)] at *
    linarith

theorem signed_of_odd (hy : y ≠ 0) (hother : ¬ (x < 0 ↔ y < 0)) (hodd : |x| % |y| ≠ 0) :
    Signed x y (0 - |x| / |y| - 1)
      (if y < 0 then -(|y| - |x| % |y|) else |y| - |x| % |y|) := by
  have hy' : |y| ≠ 0 := abs_ne_zero.2 hy
  have heuclid := Int.mul_ediv_add_emod |x| |y|
  have hlow := Int.emod_nonneg |x| hy'
  have hhigh := Int.emod_lt_of_pos |x| (abs_pos.2 hy)
  by_cases hneg : y < 0
  · have hx : 0 ≤ x := not_lt.1 fun hx => hother ⟨fun _ => hneg, fun _ => hx⟩
    rw [if_pos hneg]
    rw [abs_of_nonneg hx, abs_of_neg hneg] at *
    refine ⟨by linarith, fun hpos => by omega, fun _ => ⟨by omega, by omega⟩⟩
  · have hx : x < 0 := by
      by_contra hx
      exact hother ⟨fun h => absurd h hx, fun h => absurd h hneg⟩
    rw [if_neg hneg]
    rw [abs_of_neg hx, abs_of_nonneg (not_lt.1 hneg)] at *
    refine ⟨by linarith, fun _ => ⟨by omega, by omega⟩, fun h => absurd h hneg⟩

/-- After the loop no part of a division overflows. -/
theorem divisionSigns_leads (hL : L.Placed)
    (hlaid : Laid L.code p (divisionSigns quotient remainder w base))
    (hapart : Apart quotient remainder w) (hzero : first (.literal 0) = 0)
    (hone : first (.literal 1) = 1)
    (h : Divided quotient remainder w first cells x y (|x| / |y|) (|x| % |y|)) (hy : y ≠ 0) :
    L.Leads v p acc cells True (p + 19) fun _ cells' =>
      (cells' (.temporary quotient)).toInt = x.fdiv y ∧
        (cells' (.temporary remainder)).toInt = x.fmod y ∧
        Kept [.temporary quotient, .temporary remainder] first cells' := by
  have hwhole := hlaid
  simp only [divisionSigns, laid_append, laid_order, laid_place, laid_nil, and_true, width_append,
    width_difference, width_cons, width_nil, anchor, orders, List.length_cons, List.length_nil,
    and_assoc, Nat.add_assoc, Nat.reduceAdd] at hlaid
  obtain ⟨hleft, hright, hsame, hnegate, htest, heven, hless, hrest, hsign, -⟩ := hlaid
  have hzero' : cells (.literal 0) = 0 := (h.kept _ (by simp)).trans hzero
  have hone' : cells (.literal 1) = 1 := (h.kept _ (by simp)).trans hone
  have hquotient := Word.toInt_bounds (cells (.temporary quotient))
  have hremainder := Word.toInt_bounds (cells (.temporary remainder))
  have hdivisor := Word.toInt_bounds (cells (.temporary w.divisor))
  rw [h.quotient] at hquotient
  rw [h.remainder] at hremainder
  rw [h.divisor] at hdivisor
  have hpos := Int.ediv_nonneg (abs_nonneg x) (abs_nonneg y)
  have hlow := Int.emod_nonneg |x| (abs_ne_zero.2 hy)
  have hhigh := Int.emod_lt_of_pos |x| (abs_pos.2 hy)
  have hflags : Word.InRange ((cells (.temporary w.leftNegative)).toInt -
      (cells (.temporary w.rightNegative)).toInt) := by
    rw [h.left, h.right]
    split <;> split <;> exact ⟨by norm_num, by norm_num⟩
  have hflag : ∀ u : Word, u.toInt = (cells (.temporary w.leftNegative)).toInt -
      (cells (.temporary w.rightNegative)).toInt → (u.toInt = 0 ↔ (x < 0 ↔ y < 0)) := by
    intro u hu
    rw [hu, h.left, h.right]
    by_cases hx : x < 0 <;> by_cases hneg : y < 0 <;> simp [hx, hneg]
  refine .lda hleft (.safe (.sub hright fun u hu => .brz hsame (hL hsign) (fun hz => ?_)
    fun hnz => ?_) hflags)
  · exact remainderSign_leads hL hwhole hapart hzero h hy
      (signed_of_same hy ((hflag u hu).1 hz))
  · have hother : ¬ (x < 0 ↔ y < 0) := fun hiff => hnz ((hflag u hu).2 hiff)
    refine .safe (.difference hnegate (x := 0) (y := |x| / |y|) (by simp [hzero']) h.quotient
      fun u' hu' => .lda htest (.brz heven (hL hsign) (fun hz => ?_) fun hnz => ?_)) ?_
    · rw [Function.update_of_ne (by simpa using hapart.quotient_remainder.symm), h.remainder] at hz
      refine remainderSign_leads hL hwhole hapart hzero (q := 0 - |x| / |y|) (r := 0)
        ⟨h.kept.update (by simp) _, ?_, ?_, ?_, ?_, ?_⟩ hy (signed_of_even hother hz)
      · simp [hu']
      · simp [hapart.quotient_remainder.symm, h.remainder, hz]
      · simp [hapart.quotient_divisor.symm, h.divisor]
      · simp [hapart.quotient_left.symm, h.left]
      · simp [hapart.quotient_right.symm, h.right]
    · rw [Function.update_of_ne (by simpa using hapart.quotient_remainder.symm), h.remainder] at hnz
      refine .safe (.difference hless (x := 0 - |x| / |y|) (y := 1) ?_ ?_ fun u₁ hu₁ => .safe
        (.difference hrest (x := |y|) (y := |x| % |y|) ?_ ?_ fun u₂ hu₂ =>
          remainderSign_leads hL hwhole hapart hzero (q := 0 - |x| / |y| - 1)
            (r := |y| - |x| % |y|) ⟨?_, ?_, ?_, ?_, ?_, ?_⟩ hy (signed_of_odd hy hother hnz)) ?_) ?_
      · simp [hu']
      · simp [hone']
      · simp [hapart.quotient_divisor.symm, h.divisor]
      · simp [hapart.quotient_remainder.symm, h.remainder]
      · exact ((h.kept.update (by simp) _).update (by simp) _).update (by simp) _
      · simp [hapart.quotient_remainder, hu₁]
      · simp [hu₂]
      · simp [hapart.quotient_divisor.symm, hapart.remainder_divisor.symm, h.divisor]
      · simp [hapart.quotient_left.symm, hapart.remainder_left.symm, h.left]
      · simp [hapart.quotient_right.symm, hapart.remainder_right.symm, h.right]
      · constructor <;> omega
      · constructor <;> omega
    · constructor <;> omega

end DivisionSigns

def divisionCells (quotient remainder : Nat) (w : DivisionCells) : List Cell :=
  [.temporary quotient, .temporary remainder, .temporary w.dividend, .temporary w.divisor,
    .temporary w.leftNegative, .temporary w.rightNegative]

section Division

variable {l r : Cell} {quotient remainder base : Nat} {w : DivisionCells}

@[simp] theorem width_magnitude (operand copied flag : Cell) (ready : Place) :
    width (magnitude operand copied flag ready) = 8 := rfl

theorem divisionOperands_leads (hL : L.Placed)
    (hlaid : Laid L.code p (divisionOperands l r w base)) (hapart : Apart quotient remainder w)
    (hl : l ∉ divisionCells quotient remainder w) (hr : r ∉ divisionCells quotient remainder w)
    (hzero : cells (.literal 0) = 0) (hone : cells (.literal 1) = 1) :
    L.Leads v p acc cells
      ((cells l).toInt ≠ -0x8000000000000000 ∧ (cells r).toInt ≠ -0x8000000000000000) (p + 20)
      fun _ cells' =>
        (cells' (.temporary w.dividend)).toInt = |(cells l).toInt| ∧
          (cells' (.temporary w.divisor)).toInt = |(cells r).toInt| ∧
          (cells' (.temporary w.leftNegative)).toInt = (if (cells l).toInt < 0 then 1 else 0) ∧
          (cells' (.temporary w.rightNegative)).toInt = (if (cells r).toInt < 0 then 1 else 0) ∧
          Kept (divisionCells quotient remainder w) cells cells' := by
  simp only [divisionOperands, laid_append, width_append, width_copy, width_magnitude, and_assoc,
    Nat.reduceAdd] at hlaid
  obtain ⟨hleft, hright, hdividend, hdivisor⟩ := hlaid
  simp only [divisionCells, List.mem_cons, List.not_mem_nil, or_false, not_or] at hl hr
  refine .copy hleft (.copy hright ?_)
  generalize hstart : Function.update (Function.update cells (.temporary w.leftNegative)
    (cells (.literal 0))) (.temporary w.rightNegative) _ = start
  have hkept : Kept [.temporary w.leftNegative, .temporary w.rightNegative] cells start := by
    rw [← hstart]
    exact ((Kept.refl _ _).update (by simp) _).update (by simp) _
  have hliteral : ∀ u, start (.literal u) = cells (.literal u) := fun u => hkept _ (by simp)
  have hzeroL : (start (.temporary w.leftNegative)).toInt = 0 := by
    simp [← hstart, hapart.left_right, hzero]
  have hzeroR : (start (.temporary w.rightNegative)).toInt = 0 := by
    simp [← hstart, hzero]
  refine (magnitude_leads hL hdividend hapart.dividend_left ((hliteral 0).trans hzero)
    ((hliteral 1).trans hone) hzeroL (congrArg Int64.toInt (hkept l (by simp [hl])))).bind ?_
  rintro acc next ⟨hdividend', hleft', hkeptL⟩
  have hliteral' : ∀ u, next (.literal u) = cells (.literal u) :=
    fun u => (hkeptL _ (by simp)).trans (hliteral u)
  have hr' : next r = cells r := (hkeptL r (by simp [hr])).trans (hkept r (by simp [hr]))
  have hzeroR' : (next (.temporary w.rightNegative)).toInt = 0 := by
    rw [hkeptL _ (by simp [hapart.dividend_right.symm, hapart.left_right.symm]), hzeroR]
  refine .mono (magnitude_leads hL hdivisor hapart.divisor_right ((hliteral' 0).trans hzero)
    ((hliteral' 1).trans hone) hzeroR' (congrArg Int64.toInt hr')) ?_
  rintro acc final ⟨hdivisor', hright', hkeptR⟩
  refine ⟨?_, hdivisor', ?_, hright', ?_⟩
  · rw [hkeptR _ (by simp [hapart.dividend_divisor, hapart.dividend_right]), hdividend']
  · rw [hkeptR _ (by simp [hapart.divisor_left.symm, hapart.left_right]), hleft']
  · refine ((hkept.mono ?_).trans (hkeptL.mono ?_)).trans (hkeptR.mono ?_) <;>
      simp [divisionCells]

/-- The count of a division overflows only for the greatest word and a divisor of one. -/
theorem inRange_quotient {x y : Int} (hx : |x| < 0x8000000000000000) (hy : y ≠ 0) :
    Word.InRange (|x| / |y| + 1) ↔ ¬ (|x| = 0x7fffffffffffffff ∧ |y| = 1) := by
  have hpos : 0 < |y| := abs_pos.2 hy
  have hlow := Int.ediv_nonneg (abs_nonneg x) hpos.le
  have hhigh := Int.ediv_le_self |y| (abs_nonneg x)
  unfold Word.InRange
  constructor
  · rintro ⟨-, hlt⟩ ⟨hmax, hone⟩
    rw [hmax, hone] at hlt
    norm_num at hlt
  · intro hnot
    refine ⟨by omega, ?_⟩
    by_contra hlarge
    have hle : 0x7fffffffffffffff ≤ |x| / |y| := by omega
    rw [Int.le_ediv_iff_mul_le hpos] at hle
    refine hnot ⟨by nlinarith, by nlinarith⟩

/-- A division overflows if its divisor is zero, if an operand is the least word, or if the
greatest magnitude is divided by one.  Otherwise it comes to the `NOP` at its end. -/
theorem floorDivMod_reaches (hL : L.Placed)
    (hlaid : Laid L.code p (floorDivMod l r quotient remainder w base))
    (hapart : Apart quotient remainder w)
    (hl : l ∉ divisionCells quotient remainder w) (hr : r ∉ divisionCells quotient remainder w)
    (hzero : cells (.literal 0) = 0) (hone : cells (.literal 1) = 1) {x y : Int}
    (hx : (cells l).toInt = x) (hy : (cells r).toInt = y) :
    L.Leads v p acc cells
      (x ≠ -0x8000000000000000 ∧ y ≠ -0x8000000000000000 ∧ y ≠ 0 ∧
        ¬ (|x| = 0x7fffffffffffffff ∧ |y| = 1)) (p + 56) fun _ cells' =>
      (cells' (.temporary quotient)).toInt = x.fdiv y ∧
        (cells' (.temporary remainder)).toInt = x.fmod y ∧
        Kept (divisionCells quotient remainder w) cells cells' := by
  have hwidth : width (divisionOperands l r w base) = 20 := rfl
  have hwidth' : width (divisionLoop quotient remainder w base) = 17 := rfl
  simp only [floorDivMod, laid_append, width_append, hwidth, hwidth', and_assoc,
    Nat.reduceAdd] at hlaid
  obtain ⟨hoperands, hloop, hsigns⟩ := hlaid
  have hbounds := Word.toInt_bounds (cells l)
  have hboundsR := Word.toInt_bounds (cells r)
  rw [hx] at hbounds
  rw [hy] at hboundsR
  have hrest : ∀ {acc : Word} {next : Cell → Word},
      (next (.temporary w.dividend)).toInt = |x| → (next (.temporary w.divisor)).toInt = |y| →
      (next (.temporary w.leftNegative)).toInt = (if x < 0 then 1 else 0) →
      (next (.temporary w.rightNegative)).toInt = (if y < 0 then 1 else 0) →
      Kept (divisionCells quotient remainder w) cells next →
      L.Leads v (p + 20) acc next (|y| ≠ 0 ∧ Word.InRange (|x| / |y| + 1)) (p + 56)
        fun _ cells' =>
          (cells' (.temporary quotient)).toInt = x.fdiv y ∧
            (cells' (.temporary remainder)).toInt = x.fmod y ∧
            Kept (divisionCells quotient remainder w) cells cells' := by
    intro acc next hdividend hdivisor hleft hright hkept
    have hzero' : next (.literal 0) = 0 := (hkept _ (by simp [divisionCells])).trans hzero
    have hone' : next (.literal 1) = 1 := (hkept _ (by simp [divisionCells])).trans hone
    refine .congr ((divisionLoop_leads hL hloop hapart.quotient_remainder hapart.quotient_divisor
      hapart.remainder_divisor hapart.quotient_dividend hzero' hone' hdividend hdivisor
      (abs_nonneg x) (abs_nonneg y)).remember.bind ?_) (and_iff_left trivial)
    rintro acc final ⟨⟨hne, -⟩, hdividing⟩
    refine .mono (divisionSigns_leads hL hsigns hapart hzero' hone'
      ⟨hdividing.kept, hdividing.quotient, hdividing.remainder, hdividing.divisor, ?_, ?_⟩
      (abs_ne_zero.1 hne)) ?_
    · rw [hdividing.kept _ (by simp [hapart.quotient_left.symm, hapart.remainder_left.symm]), hleft]
    · rw [hdividing.kept _ (by simp [hapart.quotient_right.symm, hapart.remainder_right.symm]),
        hright]
    · rintro acc last ⟨hquotient, hremainder, hkept'⟩
      refine ⟨hquotient, hremainder, hkept.trans (hkept'.mono ?_)⟩
      simp [divisionCells]
  refine .congr ((divisionOperands_leads hL hoperands hapart hl hr hzero hone).bind
    fun acc next hnext => hrest (hnext.1.trans (by rw [hx])) (hnext.2.1.trans (by rw [hy]))
      (hnext.2.2.1.trans (by rw [hx])) (hnext.2.2.2.1.trans (by rw [hy])) hnext.2.2.2.2) ?_
  rw [hx, hy, abs_ne_zero, and_assoc]
  refine and_congr_right fun hmin => and_congr_right fun _ => and_congr_right fun hne => ?_
  exact inRange_quotient (abs_lt.2 ⟨by omega, by omega⟩) hne

theorem orderAt_floorDivMod_end {code : List Entry}
    (hlaid : Laid code p (floorDivMod l r quotient remainder w base)) :
    PlaceAt code (p + 56) (spot base "_end") ∧ OrderAt code (p + 56) .nop .none := by
  have hwidth : width (divisionOperands l r w base ++ divisionLoop quotient remainder w base) = 37 :=
    rfl
  rw [floorDivMod, laid_append, hwidth] at hlaid
  obtain ⟨-, hsigns⟩ := hlaid
  simp only [divisionSigns, laid_append, laid_order, laid_place, laid_nil, and_true, width_append,
    width_difference, width_cons, width_nil, anchor, orders, List.length_cons, List.length_nil,
    and_assoc, Nat.add_assoc, Nat.reduceAdd] at hsigns
  obtain ⟨-, -, -, -, -, -, -, -, -, -, -, -, hplace, hnop⟩ := hsigns
  exact ⟨hplace, hnop⟩

theorem floorDivMod_leads (hL : L.Placed)
    (hlaid : Laid L.code p (floorDivMod l r quotient remainder w base))
    (hapart : Apart quotient remainder w)
    (hl : l ∉ divisionCells quotient remainder w) (hr : r ∉ divisionCells quotient remainder w)
    (hzero : cells (.literal 0) = 0) (hone : cells (.literal 1) = 1) {x y : Int}
    (hx : (cells l).toInt = x) (hy : (cells r).toInt = y) :
    L.Leads v p acc cells
      (x ≠ -0x8000000000000000 ∧ y ≠ -0x8000000000000000 ∧ y ≠ 0 ∧
        ¬ (|x| = 0x7fffffffffffffff ∧ |y| = 1)) (p + 57) fun _ cells' =>
      (cells' (.temporary quotient)).toInt = x.fdiv y ∧
        (cells' (.temporary remainder)).toInt = x.fmod y ∧
        Kept (divisionCells quotient remainder w) cells cells' := by
  have hnop := (orderAt_floorDivMod_end hlaid).2
  exact .congr ((floorDivMod_reaches hL hlaid hapart hl hr hzero hone hx hy).bind
    fun _ _ hpost => .nop hnop (.done hpost)) (and_iff_left trivial)

end Division

/-! ## Widths -/

theorem width_product (l r : Cell) (n : Nat) : width (combine .mul l r n) = 23 := by
  simp [combine, multiply, anchor, Mark.orders]

theorem width_quotient (l r : Cell) (n : Nat) : width (combine .div l r n) = 57 := by
  simp [combine, floorDivMod, divisionOperands, divisionLoop, divisionSigns, anchor, Mark.orders]

theorem width_remainder (l r : Cell) (n : Nat) : width (combine .mod l r n) = 57 := by
  simp [combine, floorDivMod, divisionOperands, divisionLoop, divisionSigns, anchor, Mark.orders]

theorem width_power (l r : Cell) (n : Nat) : width (combine .pow l r n) = 38 := by
  simp [combine, power, multiply, anchor, Mark.orders]

end Layout
end LittleMan
