import LittleMan.Proofs.Blocks.Operators
import LittleMan.Proofs.Blueprint.Guards
import LittleMan.Proofs.Evaluation

/-!
# Code that follows an evaluation

`Mirrors` relates the store of an evaluation to a view of the machine: variables have their
values, inputs and output are the same, and the literals are as they were.  Temporaries are
free.

`Layout.Reaches` relates what an evaluation comes to and a run of the machine.  If there is a
value, the run gets to an address that may depend on it; if the evaluation is interrupted,
the run halts, waits or overflows.  The rules below follow the structure of an evaluation:
`Reaches.bind` puts two of them together, and `Reaches.loop` repeats one.
-/

namespace LittleMan

open Mark

/-! ## Stores and views -/

structure Mirrors (σ : Store) (v : View) : Prop where
  vars : ∀ x, (v.cells (.var none x)).toInt = σ.vars x
  literals : ∀ value, v.cells (.literal value) = value
  queue : v.queue = σ.queue
  transcript : String.join (v.output.map Output.text) = σ.transcript

/-- All cells but the temporaries from a number on. -/
def Cell.Before (n : Nat) : Cell → Prop
  | .temporary m => m < n
  | _ => True

def Same (n : Nat) (cells cells' : Cell → Word) : Prop :=
  ∀ c : Cell, c.Before n → cells' c = cells c

/-- The temporaries before a number are the same. -/
def SameTemporaries (n : Nat) (cells cells' : Cell → Word) : Prop :=
  ∀ m < n, cells' (.temporary m) = cells (.temporary m)

theorem Cell.Before.mono {c : Cell} {n n' : Nat} (h : c.Before n) (hle : n ≤ n') :
    c.Before n' := by
  cases c with
  | temporary m => exact Nat.lt_of_lt_of_le h hle
  | _ => trivial

namespace Same

variable {n n' : Nat} {cells cells' cells'' : Cell → Word}

theorem refl (n : Nat) (cells : Cell → Word) : Same n cells cells :=
  fun _ _ => rfl

theorem trans (h : Same n cells cells') (h' : Same n cells' cells'') : Same n cells cells'' :=
  fun c hc => (h' c hc).trans (h c hc)

theorem mono (h : Same n' cells cells') (hle : n ≤ n') : Same n cells cells' :=
  fun c hc => h c (hc.mono hle)

theorem update (h : Same n cells cells') {c : Cell} (hc : ¬ c.Before n) (w : Word) :
    Same n cells (Function.update cells' c w) := by
  intro d hd
  rw [Function.update_of_ne (by rintro rfl; exact hc hd)]
  exact h d hd

theorem of_kept {own : List Cell} (h : Kept own cells cells') (hown : ∀ c ∈ own, ¬ c.Before n) :
    Same n cells cells' :=
  fun c hc => h c fun hmem => hown c hmem hc

theorem temporaries (h : Same n cells cells') : SameTemporaries n cells cells' :=
  fun m hm => h (.temporary m) hm

end Same

namespace SameTemporaries

variable {n n' : Nat} {cells cells' cells'' : Cell → Word}

theorem refl (n : Nat) (cells : Cell → Word) : SameTemporaries n cells cells :=
  fun _ _ => rfl

theorem trans (h : SameTemporaries n cells cells') (h' : SameTemporaries n cells' cells'') :
    SameTemporaries n cells cells'' :=
  fun m hm => (h' m hm).trans (h m hm)

theorem mono (h : SameTemporaries n' cells cells') (hle : n ≤ n') :
    SameTemporaries n cells cells' :=
  fun m hm => h m (Nat.lt_of_lt_of_le hm hle)

end SameTemporaries

namespace Mirrors

variable {σ : Store} {v : View} {n : Nat} {cells : Cell → Word}

theorem at_of_same (h : Mirrors σ v) (p : Nat) (acc : Word) (hsame : Same n v.cells cells) :
    Mirrors σ (v.at p acc cells) where
  vars := fun x => (congrArg Int64.toInt (hsame (.var none x) trivial)).trans (h.vars x)
  literals := fun value => (hsame (.literal value) trivial).trans (h.literals value)
  queue := h.queue
  transcript := h.transcript

theorem at_same (h : Mirrors σ v) (p : Nat) (acc : Word) : Mirrors σ (v.at p acc v.cells) :=
  h.at_of_same p acc (.refl 0 v.cells)

theorem assign (h : Mirrors σ v) (p : Nat) (acc : Word) (x : String) {w : Word} {n : Int}
    (hw : w.toInt = n) :
    Mirrors { σ with vars := Function.update σ.vars x n }
      (v.at p acc (Function.update v.cells (.var none x) w)) where
  vars := by
    intro y
    by_cases hy : y = x
    · subst hy
      simpa [View.at] using hw
    · simpa [View.at, hy] using h.vars y
  literals := fun value => by simpa [View.at] using h.literals value
  queue := h.queue
  transcript := h.transcript

end Mirrors

/-! ## Runs -/

namespace Layout

variable {L : Layout} {α β : Type} {v v' : View} {q : α → Nat} {q' : β → Nat}
  {Q : α → View → Prop} {Q' : β → View → Prop} {σ : Store}

/-- The run from a view follows what an evaluation comes to. -/
def Reaches (L : Layout) (v : View) (q : α → Nat) (Q : α → View → Prop) :
    Except Interrupt (α × Store) → Prop
  | .ok (a, σ) => ∃ v', L.Runs v v' ∧ v'.pc = q a ∧ Mirrors σ v' ∧ Q a v'
  | .error (.failed σ) => ∃ v' n, L.Runs v v' ∧ L.Turns v' .halts ∧
      PlaceAt L.code v'.pc (failure n) ∧ Mirrors σ v'
  | .error (.waiting σ) => ∃ v', L.Runs v v' ∧ L.Turns v' .waits ∧ Mirrors σ v'
  | .error .overflowed => L.Overflows v
  | .error .unsupported => False
  | .error .unfinished => True

namespace Reaches

theorem pure {a : α} (hpc : v.pc = q a) (hmirrors : Mirrors σ v) (hQ : Q a v) :
    L.Reaches v q Q ((Pure.pure a : Eval α) σ) :=
  ⟨v, .refl, hpc, hmirrors, hQ⟩

theorem of_runs {result : Except Interrupt (α × Store)} (hruns : L.Runs v v')
    (h : L.Reaches v' q Q result) : L.Reaches v q Q result := by
  cases result with
  | ok value =>
      obtain ⟨u, hu, hrest⟩ := h
      exact ⟨u, hruns.trans hu, hrest⟩
  | error interrupt =>
      cases interrupt with
      | failed σ =>
          obtain ⟨u, n, hu, hrest⟩ := h
          exact ⟨u, n, hruns.trans hu, hrest⟩
      | waiting σ =>
          obtain ⟨u, hu, hrest⟩ := h
          exact ⟨u, hruns.trans hu, hrest⟩
      | overflowed => exact Overflows.of_runs hruns h
      | unsupported => exact h
      | unfinished => trivial

theorem goes {result : Except Interrupt (α × Store)} (hgoes : L.Goes v v')
    (h : L.Reaches v' q Q result) : L.Reaches v q Q result :=
  of_runs (.single hgoes) h

theorem bind {e : Eval α} {f : α → Eval β} (h : L.Reaches v q Q (e σ))
    (h' : ∀ a σ' v', v'.pc = q a → Mirrors σ' v' → Q a v' → L.Reaches v' q' Q' (f a σ')) :
    L.Reaches v q' Q' ((e >>= f) σ) := by
  have hbind : (e >>= f) σ = (e σ).bind fun x => f x.1 x.2 := rfl
  rw [hbind]
  cases hresult : e σ with
  | ok value =>
      rw [hresult] at h
      obtain ⟨u, hruns, hpc, hmirrors, hQ⟩ := h
      exact of_runs hruns (h' value.1 value.2 u hpc hmirrors hQ)
  | error interrupt =>
      rw [hresult] at h
      cases interrupt <;> exact h

theorem mono {result : Except Interrupt (α × Store)} (h : L.Reaches v q Q result)
    {q₁ : α → Nat} {Q₁ : α → View → Prop}
    (hQ : ∀ a v', v'.pc = q a → Q a v' → q a = q₁ a ∧ Q₁ a v') : L.Reaches v q₁ Q₁ result := by
  cases result with
  | ok value =>
      obtain ⟨u, hruns, hpc, hmirrors, hpost⟩ := h
      obtain ⟨haddress, hpost'⟩ := hQ _ u hpc hpost
      exact ⟨u, hruns, hpc.trans haddress, hmirrors, hpost'⟩
  | error interrupt => cases interrupt <;> exact h

theorem after {p s : Nat} {P : Word → (Cell → Word) → Prop}
    {result : Except Interrupt (α × Store)} (hpc : v.pc = p)
    (h : L.Leads v p v.acc v.cells True s P)
    (h' : ∀ acc cells, P acc cells → L.Reaches (v.at s acc cells) q Q result) :
    L.Reaches v q Q result := by
  subst hpc
  obtain ⟨acc, cells, hruns, hP⟩ := h.1 trivial
  exact of_runs hruns (h' acc cells hP)

/-- A block that computes an operation. -/
theorem apply {op : BinaryOp} {x y : Int} {p s : Nat} {P : Word → (Cell → Word) → Prop}
    {q : Int → Nat} {Q : Int → View → Prop} (hpc : v.pc = p)
    (h : L.Leads v p v.acc v.cells (op.Fits x y) s P) (hq : q (op.value x y) = s)
    (h' : ∀ acc cells, P acc cells →
      Mirrors σ (v.at s acc cells) ∧ Q (op.value x y) (v.at s acc cells)) :
    L.Reaches v q Q (op.apply x y σ) := by
  subst hpc
  by_cases hfits : op.Fits x y
  · have happly : op.apply x y σ = .ok (op.value x y, σ) := by
      simp [BinaryOp.apply, hfits]
      rfl
    obtain ⟨acc, cells, hruns, hP⟩ := h.1 hfits
    obtain ⟨hmirrors, hQ⟩ := h' acc cells hP
    rw [happly]
    exact ⟨_, hruns, hq.symm, hmirrors, hQ⟩
  · have happly : op.apply x y σ = .error .overflowed := by
      simp [BinaryOp.apply, hfits]
      rfl
    rw [happly]
    exact h.2 hfits

theorem test {p : Nat} {c : Cell} {l : Place} {result : Except Interrupt (α × Store)}
    (hpc : v.pc = p) (hlda : OrderAt L.code p .lda (.cell c))
    (hbrz : OrderAt L.code (p + 1) .brz (.place l))
    (hzero : (v.cells c).toInt = 0 →
      L.Reaches (v.at (L.place l) (v.cells c) v.cells) q Q result)
    (hnext : (v.cells c).toInt ≠ 0 →
      L.Reaches (v.at (p + 2) (v.cells c) v.cells) q Q result) :
    L.Reaches v q Q result := by
  subst hpc
  refine goes ⟨_, _, hlda, rfl⟩ ?_
  by_cases hc : v.cells c = 0
  · have hgoes : L.Goes (v.load (v.cells c)) (v.at (L.place l) (v.cells c) v.cells) :=
      ⟨_, _, hbrz, congrArg Turn.goes (if_pos hc)⟩
    exact goes hgoes (hzero (Word.eq_zero_iff.1 hc))
  · have hgoes : L.Goes (v.load (v.cells c)) (v.at (v.pc + 2) (v.cells c) v.cells) :=
      ⟨_, _, hbrz, congrArg Turn.goes (if_neg hc)⟩
    exact goes hgoes (hnext fun h => hc (Word.eq_zero_iff.2 h))

/-- Passes are made from one address until one of them leads to another. -/
theorem loop {pass : Eval Bool} {top done : Nat} {I : View → Prop}
    (hpass : ∀ σ v, v.pc = top → Mirrors σ v → I v →
      L.Reaches v (fun more => if more then top else done) (fun _ => I) (pass σ))
    (fuel : Nat) (hpc : v.pc = top) (hmirrors : Mirrors σ v) (hI : I v) :
    L.Reaches v (fun _ => done) (fun _ => I) (Eval.loop pass fuel σ) := by
  induction fuel generalizing v σ with
  | zero => trivial
  | succ fuel ih =>
      refine bind (hpass σ v hpc hmirrors hI) ?_
      intro more σ' v' hpc' hmirrors' hI'
      cases more with
      | true => exact ih hpc' hmirrors' hI'
      | false => exact .pure hpc' hmirrors' hI'

end Reaches

/-! ## Operators -/

theorem toInt_ofBool (b : Bool) : (Word.ofBool b).toInt = truth (b = true) := by
  cases b <;> rfl

theorem compare_value {p : Nat} {acc : Word} {cells : Cell → Word} (hL : L.Placed) {a b : Cell}
    {n : Nat} {branch : Opcode} {whenTaken taken : Bool}
    (hlaid : Laid L.code p (Mark.compare a b n branch whenTaken))
    (hbranch : (branch = .brz ∧ taken = decide ((cells a).toInt = (cells b).toInt)) ∨
      (branch = .brp ∧ taken = decide ((cells b).toInt ≤ (cells a).toInt)))
    (hliterals : ∀ value, cells (.literal value) = value) {P : Prop} [Decidable P]
    (hvalue : (taken == whenTaken) = true ↔ P) :
    L.Leads v p acc cells (Word.InRange ((cells a).toInt - (cells b).toInt)) (p + 7)
      fun _ cells' => (cells' (.temporary n)).toInt = truth P ∧ Same n cells cells' := by
  refine .mono (compare_leads hL hlaid hbranch fun b => hliterals _) ?_
  rintro acc' cells' rfl
  refine ⟨?_, Same.update (.refl n cells) (by simp [Cell.Before]) _⟩
  rw [Function.update_self, toInt_ofBool]
  simp only [truth, hvalue]

theorem combine_leads {p : Nat} {acc : Word} {cells : Cell → Word} (hL : L.Placed)
    {op : BinaryOp} (hand : op ≠ .and) (hor : op ≠ .or) {l r : Cell} {n : Nat}
    (hlaid : Laid L.code p (combine op l r n)) (hl : l.Before n) (hr : r.Before n)
    (hliterals : ∀ value, cells (.literal value) = value) :
    L.Leads v p acc cells (op.Fits (cells l).toInt (cells r).toInt)
      (p + width (combine op l r n)) fun _ cells' =>
        (cells' (.temporary n)).toInt = op.value (cells l).toInt (cells r).toInt ∧
          Same n cells cells' := by
  have houtside : ∀ {c : Cell} {own : List Cell}, c.Before n → (∀ d ∈ own, ¬ d.Before n) →
      c ∉ own := fun hc hown hmem => hown _ hmem hc
  cases op with
  | add =>
      refine .congr (.sum hlaid rfl rfl fun w hw => .done ⟨?_, ?_⟩) (and_iff_left trivial)
      · rw [Function.update_self, hw]
        rfl
      · exact Same.update (.refl n cells) (by simp [Cell.Before]) _
  | sub =>
      refine .congr (.difference hlaid rfl rfl fun w hw => .done ⟨?_, ?_⟩) (and_iff_left trivial)
      · rw [Function.update_self, hw]
        rfl
      · exact Same.update (.refl n cells) (by simp [Cell.Before]) _
  | mul =>
      have hown : ∀ d ∈ [Cell.temporary n, .temporary (n + 1), .temporary (n + 2)],
          ¬ d.Before n := by simp [Cell.Before]
      rw [width_product]
      refine .mono (multiply_leads hL hlaid (by omega) (by omega) (by omega) (houtside hl hown)
        (houtside hr hown) (hliterals 0) (hliterals 1)) ?_
      rintro acc' cells' ⟨hvalue, hkept⟩
      exact ⟨hvalue, .of_kept hkept hown⟩
  | div =>
      have hown : ∀ d ∈ divisionCells n (n + 1) (.startingAt (n + 2)), ¬ d.Before n := by
        simp [divisionCells, DivisionCells.startingAt, Cell.Before, Nat.add_assoc]
      rw [width_quotient]
      refine .mono (floorDivMod_leads hL hlaid ?_ (houtside hl hown) (houtside hr hown)
        (hliterals 0) (hliterals 1) rfl rfl) ?_
      · constructor <;> simp [DivisionCells.startingAt, Nat.add_assoc]
      · rintro acc' cells' ⟨hquotient, -, hkept⟩
        exact ⟨hquotient, .of_kept hkept hown⟩
  | mod =>
      have hown : ∀ d ∈ divisionCells (n + 1) n (.startingAt (n + 2)), ¬ d.Before n := by
        simp [divisionCells, DivisionCells.startingAt, Cell.Before, Nat.add_assoc]
      rw [width_remainder]
      refine .mono (floorDivMod_leads hL hlaid ?_ (houtside hl hown) (houtside hr hown)
        (hliterals 0) (hliterals 1) rfl rfl) ?_
      · constructor <;> simp [DivisionCells.startingAt, Nat.add_assoc]
      · rintro acc' cells' ⟨-, hremainder, hkept⟩
        exact ⟨hremainder, .of_kept hkept hown⟩
  | pow =>
      have hown : ∀ d ∈ powerCells n, ¬ d.Before n := by simp [powerCells, Cell.Before]
      rw [width_power]
      refine .mono (power_leads hL hlaid (houtside hl hown) (houtside hr hown) (hliterals 0)
        (hliterals 1)) ?_
      rintro acc' cells' ⟨hvalue, hkept⟩
      refine ⟨hvalue.trans ?_, .of_kept hkept hown⟩
      change _ = if (cells r).toInt ≤ 0 then 1 else (cells l).toInt ^ (cells r).toInt.toNat
      split
      next hneg => rw [Int.toNat_of_nonpos hneg, pow_zero]
      next => rfl
  | lt => exact compare_value hL hlaid (.inr ⟨rfl, rfl⟩) hliterals (by simp)
  | gt => exact compare_value hL hlaid (.inr ⟨rfl, rfl⟩) hliterals (by simp)
  | ltEq => exact compare_value hL hlaid (.inr ⟨rfl, rfl⟩) hliterals (by simp)
  | gtEq => exact compare_value hL hlaid (.inr ⟨rfl, rfl⟩) hliterals (by simp)
  | eq => exact compare_value hL hlaid (.inl ⟨rfl, rfl⟩) hliterals (by simp [eq_comm])
  | notEq => exact compare_value hL hlaid (.inl ⟨rfl, rfl⟩) hliterals (by simp)
  | and => exact absurd rfl hand
  | or => exact absurd rfl hor

end Layout
end LittleMan
