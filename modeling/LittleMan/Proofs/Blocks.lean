import LittleMan.Proofs.View

/-!
# Blocks of code

`Layout.Leads` says of a state of the machine that its run comes to an address if a
condition holds, and meets an overflow if it does not.  The rules for single orders take
a run apart from its front; an order that adds or subtracts puts the range of its result
into the condition.  Stack, input and output stay the same throughout.

`Kept` says which cells a block leaves alone.
-/

namespace LittleMan

open Mark

/-- The view with other registers and cells. -/
def View.at (v : View) (pc : Nat) (acc : Word) (cells : Cell → Word) : View :=
  { v with pc, acc, cells }

namespace Layout

/-- Places stand where the layout says. -/
def Placed (L : Layout) : Prop :=
  ∀ ⦃a : Nat⦄ ⦃l : Place⦄, PlaceAt L.code a l → L.place l = a

/-- The run from an address leads to another one if `ok` holds, and else overflows. -/
def Leads (L : Layout) (v : View) (p : Nat) (acc : Word) (cells : Cell → Word) (ok : Prop)
    (q : Nat) (Q : Word → (Cell → Word) → Prop) : Prop :=
  (ok → ∃ acc' cells', L.Runs (v.at p acc cells) (v.at q acc' cells') ∧ Q acc' cells') ∧
    (¬ ok → L.Overflows (v.at p acc cells))

variable {L : Layout} {v : View} {p q s : Nat} {acc acc' : Word} {cells cells' : Cell → Word}
  {ok ok' : Prop} {Q Q' : Word → (Cell → Word) → Prop}

namespace Leads

theorem done (h : Q acc cells) : L.Leads v p acc cells True p Q :=
  ⟨fun _ => ⟨acc, cells, .refl, h⟩, fun hnot => absurd trivial hnot⟩

theorem congr (h : L.Leads v p acc cells ok q Q) (hok : ok ↔ ok') :
    L.Leads v p acc cells ok' q Q :=
  ⟨fun h' => h.1 (hok.2 h'), fun h' => h.2 fun hyes => h' (hok.1 hyes)⟩

theorem mono (h : L.Leads v p acc cells ok q Q) (hQ : ∀ acc cells, Q acc cells → Q' acc cells) :
    L.Leads v p acc cells ok q Q' := by
  refine ⟨fun hok => ?_, h.2⟩
  obtain ⟨acc', cells', hruns, hpost⟩ := h.1 hok
  exact ⟨acc', cells', hruns, hQ _ _ hpost⟩

/-- What was asked for holds where the run leads to. -/
theorem remember (h : L.Leads v p acc cells ok q Q) :
    L.Leads v p acc cells ok q fun acc cells => ok ∧ Q acc cells := by
  refine ⟨fun hok => ?_, h.2⟩
  obtain ⟨acc', cells', hruns, hpost⟩ := h.1 hok
  exact ⟨acc', cells', hruns, hok, hpost⟩

/-- One block after another. -/
theorem bind (h : L.Leads v p acc cells ok s Q)
    (h' : ∀ acc cells, Q acc cells → L.Leads v s acc cells ok' q Q') :
    L.Leads v p acc cells (ok ∧ ok') q Q' := by
  constructor
  · rintro ⟨hok, hok'⟩
    obtain ⟨acc₁, cells₁, hruns, hpost⟩ := h.1 hok
    obtain ⟨acc₂, cells₂, hruns', hpost'⟩ := (h' acc₁ cells₁ hpost).1 hok'
    exact ⟨acc₂, cells₂, hruns.trans hruns', hpost'⟩
  · intro hnot
    by_cases hok : ok
    · obtain ⟨acc₁, cells₁, hruns, hpost⟩ := h.1 hok
      exact .of_runs hruns ((h' acc₁ cells₁ hpost).2 fun hok' => hnot ⟨hok, hok'⟩)
    · exact h.2 hok

theorem goes (hgoes : L.Goes (v.at p acc cells) (v.at s acc' cells'))
    (h : L.Leads v s acc' cells' ok q Q) : L.Leads v p acc cells ok q Q := by
  constructor
  · intro hok
    obtain ⟨acc₁, cells₁, hruns, hpost⟩ := h.1 hok
    exact ⟨acc₁, cells₁, .head hgoes hruns, hpost⟩
  · intro hnot
    exact .of_runs (.single hgoes) (h.2 hnot)

variable {c : Cell} {l : Place}

theorem lda (hat : OrderAt L.code p .lda (.cell c))
    (h : L.Leads v (p + 1) (cells c) cells ok q Q) : L.Leads v p acc cells ok q Q :=
  goes ⟨_, _, hat, rfl⟩ h

theorem sta (hat : OrderAt L.code p .sta (.cell c))
    (h : L.Leads v (p + 1) acc (Function.update cells c acc) ok q Q) :
    L.Leads v p acc cells ok q Q :=
  goes ⟨_, _, hat, rfl⟩ h

theorem nop (hat : OrderAt L.code p .nop .none)
    (h : L.Leads v (p + 1) acc cells ok q Q) : L.Leads v p acc cells ok q Q :=
  goes ⟨_, _, hat, rfl⟩ h

theorem bra (hat : OrderAt L.code p .bra (.place l)) (hl : L.place l = s)
    (h : L.Leads v s acc cells ok q Q) : L.Leads v p acc cells ok q Q := by
  subst hl
  exact goes ⟨_, _, hat, rfl⟩ h

theorem brz (hat : OrderAt L.code p .brz (.place l)) (hl : L.place l = s)
    (hzero : acc.toInt = 0 → L.Leads v s acc cells ok q Q)
    (hnext : acc.toInt ≠ 0 → L.Leads v (p + 1) acc cells ok q Q) :
    L.Leads v p acc cells ok q Q := by
  subst hl
  by_cases hacc : acc = 0
  · exact goes ⟨_, _, hat, congrArg Turn.goes (if_pos hacc)⟩ (hzero (Word.eq_zero_iff.1 hacc))
  · exact goes ⟨_, _, hat, congrArg Turn.goes (if_neg hacc)⟩
      (hnext fun h => hacc (Word.eq_zero_iff.2 h))

theorem brp (hat : OrderAt L.code p .brp (.place l)) (hl : L.place l = s)
    (hpos : 0 ≤ acc.toInt → L.Leads v s acc cells ok q Q)
    (hnext : acc.toInt < 0 → L.Leads v (p + 1) acc cells ok q Q) :
    L.Leads v p acc cells ok q Q := by
  subst hl
  by_cases hacc : 0 ≤ acc.toInt
  · exact goes ⟨_, _, hat, congrArg Turn.goes (if_pos hacc)⟩ (hpos hacc)
  · exact goes ⟨_, _, hat, congrArg Turn.goes (if_neg hacc)⟩ (hnext (by omega))

theorem calculate {op : Opcode} {value : Option Word}
    (hat : OrderAt L.code p op (.cell c))
    (hturn : L.turn op (.cell c) (v.at p acc cells) = Layout.calculate (v.at p acc cells) value)
    {n : Int} (hsome : ∀ w, value = some w ↔ w.toInt = n)
    (hnone : value = none ↔ ¬ Word.InRange n)
    (h : ∀ w : Word, w.toInt = n → L.Leads v (p + 1) w cells ok q Q) :
    L.Leads v p acc cells (Word.InRange n ∧ ok) q Q := by
  cases hvalue : value with
  | none =>
      have hrange := hnone.1 hvalue
      rw [hvalue] at hturn
      refine ⟨fun hok => absurd hok.1 hrange, fun _ => ?_⟩
      exact ⟨_, .refl, op, _, hat, hturn⟩
  | some w =>
      have hrange : Word.InRange n := by
        by_contra hnot
        rw [hnone.2 hnot] at hvalue
        cases hvalue
      rw [hvalue] at hturn
      refine congr (goes ⟨_, _, hat, hturn⟩ (h w ((hsome w).1 hvalue))) ?_
      simp [hrange]

theorem add (hat : OrderAt L.code p .add (.cell c))
    (h : ∀ w : Word, w.toInt = acc.toInt + (cells c).toInt →
      L.Leads v (p + 1) w cells ok q Q) :
    L.Leads v p acc cells (Word.InRange (acc.toInt + (cells c).toInt) ∧ ok) q Q :=
  calculate hat rfl (fun _ => Word.add?_eq_some_iff) Word.add?_eq_none_iff h

theorem sub (hat : OrderAt L.code p .sub (.cell c))
    (h : ∀ w : Word, w.toInt = acc.toInt - (cells c).toInt →
      L.Leads v (p + 1) w cells ok q Q) :
    L.Leads v p acc cells (Word.InRange (acc.toInt - (cells c).toInt) ∧ ok) q Q :=
  calculate hat rfl (fun _ => Word.sub?_eq_some_iff) Word.sub?_eq_none_iff h

theorem copy {a d : Cell} (hlaid : Laid L.code p (copy a d))
    (h : L.Leads v (p + 2) (cells a) (Function.update cells d (cells a)) ok q Q) :
    L.Leads v p acc cells ok q Q := by
  simp only [Mark.copy, laid_order] at hlaid
  exact .lda hlaid.1 (.sta hlaid.2.1 h)

theorem sum {a b d : Cell} (hlaid : Laid L.code p (sum a b d)) {x y : Int}
    (ha : (cells a).toInt = x) (hb : (cells b).toInt = y)
    (h : ∀ w : Word, w.toInt = x + y → L.Leads v (p + 3) w (Function.update cells d w) ok q Q) :
    L.Leads v p acc cells (Word.InRange (x + y) ∧ ok) q Q := by
  subst ha hb
  simp only [Mark.sum, laid_order] at hlaid
  exact .lda hlaid.1 (.add hlaid.2.1 fun w hw => .sta hlaid.2.2.1 (h w hw))

theorem difference {a b d : Cell} (hlaid : Laid L.code p (difference a b d)) {x y : Int}
    (ha : (cells a).toInt = x) (hb : (cells b).toInt = y)
    (h : ∀ w : Word, w.toInt = x - y → L.Leads v (p + 3) w (Function.update cells d w) ok q Q) :
    L.Leads v p acc cells (Word.InRange (x - y) ∧ ok) q Q := by
  subst ha hb
  simp only [Mark.difference, laid_order] at hlaid
  exact .lda hlaid.1 (.sub hlaid.2.1 fun w hw => .sta hlaid.2.2.1 (h w hw))

/-- A range that is known need not be asked for. -/
theorem safe (h : L.Leads v p acc cells (ok ∧ ok') q Q) (hok : ok) :
    L.Leads v p acc cells ok' q Q :=
  h.congr (and_iff_right hok)

end Leads
end Layout

/-! ## Cells that a block keeps -/

/-- Only the given cells are changed. -/
def Kept (own : List Cell) (cells cells' : Cell → Word) : Prop :=
  ∀ c, c ∉ own → cells' c = cells c

namespace Kept

variable {own own' : List Cell} {cells cells' cells'' : Cell → Word}

theorem refl (own : List Cell) (cells : Cell → Word) : Kept own cells cells :=
  fun _ _ => rfl

theorem trans (h : Kept own cells cells') (h' : Kept own cells' cells'') :
    Kept own cells cells'' :=
  fun c hc => (h' c hc).trans (h c hc)

theorem mono (h : Kept own cells cells') (hsubset : own ⊆ own') : Kept own' cells cells' :=
  fun c hc => h c fun hmem => hc (hsubset hmem)

theorem update (h : Kept own cells cells') {c : Cell} (hc : c ∈ own) (w : Word) :
    Kept own cells (Function.update cells' c w) := by
  intro d hd
  rw [Function.update_of_ne (by rintro rfl; exact hd hc)]
  exact h d hd

end Kept

namespace Mark

@[simp] theorem width_copy (a d : Cell) : width (copy a d) = 2 := rfl

@[simp] theorem width_sum (a b d : Cell) : width (sum a b d) = 3 := rfl

@[simp] theorem width_difference (a b d : Cell) : width (difference a b d) = 3 := rfl

@[simp] theorem width_anchor (l : Place) : width (anchor l) = 1 := rfl

end Mark

end LittleMan
