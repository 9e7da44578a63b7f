import LittleMan.Proofs.Blueprint.Effects
import LittleMan.Proofs.Simulation
import LittleMan.Lowering.Expression

/-!
# Expressions follow their evaluation

The code of an expression leaves its value in a cell.  It changes no variable, and of the
temporaries only those that are handed out for it, so that the value of an operand is still
there when the code of the next operand has run.
-/

namespace LittleMan

open Mark Layout

/-- A mark that is a place or an order. -/
def Mark.isLocal : Mark → Bool
  | .place _ | .order .. => true
  | _ => false

/-- The code of an expression at an address computes its value and keeps the temporaries
before `n`. -/
def Computes (L : Layout) (n p : Nat) (x : Emitted Cell) (e : Eval Int) : Prop :=
  ∀ ⦃σ v⦄, v.pc = p → Mirrors σ v →
    L.Reaches v (fun _ => p + width x.marks)
      (fun a v' => (v'.cells x.result).toInt = a ∧ Same n v.cells v'.cells) (e σ)

variable {L : Layout} {n p : Nat} {x l r : Emitted Cell} {e el er : Eval Int}

theorem Computes.mono {n' : Nat} (h : Computes L n' p x e) (hle : n ≤ n') : Computes L n p x e :=
  fun _ _ hpc hmirrors => .mono (h hpc hmirrors) fun _ _ _ hpost =>
    ⟨rfl, hpost.1, hpost.2.mono hle⟩

/-- A block that puts its result into a temporary. -/
theorem reaches_result {v : View} {σ : Store} {m p s : Nat} {w : Word} {a : Int}
    {first : Cell → Word} (hpc : v.pc = p)
    (h : L.Leads v p v.acc v.cells True s fun _ cells =>
      cells = Function.update v.cells (.temporary m) w)
    (hw : w.toInt = a) (hmirrors : Mirrors σ v) (hsame : Same n first v.cells) (hle : n ≤ m) :
    L.Reaches v (fun _ => s)
      (fun a v' => (v'.cells (.temporary m)).toInt = a ∧ Same n first v'.cells)
      ((pure a : Eval Int) σ) := by
  refine .after hpc h ?_
  rintro acc cells rfl
  have hfresh : ¬ (Cell.temporary m).Before n := Nat.not_lt.2 hle
  refine .pure rfl (hmirrors.at_of_same s acc (.update (.refl n v.cells) hfresh w)) ⟨?_, ?_⟩
  · simpa [View.at] using hw
  · exact hsame.update hfresh w

/-- An operator puts its result into a temporary. -/
theorem reaches_apply {v : View} {σ : Store} {m p : Nat} {op : BinaryOp} {c d : Cell} {a b : Int}
    {first : Cell → Word} (hL : L.Placed) (hpc : v.pc = p) (hand : op ≠ .and) (hor : op ≠ .or)
    (hlaid : Laid L.code p (combine op c d m)) (hc : c.Before m) (hd : d.Before m)
    (ha : (v.cells c).toInt = a) (hb : (v.cells d).toInt = b) (hmirrors : Mirrors σ v)
    (hsame : Same n first v.cells) (hle : n ≤ m) :
    L.Reaches v (fun _ => p + width (combine op c d m))
      (fun a v' => (v'.cells (.temporary m)).toInt = a ∧ Same n first v'.cells)
      (op.apply a b σ) := by
  subst ha hb
  refine .apply hpc (combine_leads hL hand hor hlaid hc hd hmirrors.literals) rfl ?_
  rintro acc cells ⟨hvalue, hkept⟩
  exact ⟨hmirrors.at_of_same _ acc hkept, hvalue, hsame.trans (hkept.mono hle)⟩

/-! ## Operators -/

theorem negation_computes (hL : L.Placed) (h : Computes L n p x e)
    (hlaid : Laid L.code p
      (x.marks ++ difference (.literal 0) x.result (.temporary x.counters.temporaries)))
    (hbefore : x.result.Before x.counters.temporaries) (hle : n ≤ x.counters.temporaries)
    (k : Counters) :
    Computes L n p ⟨x.marks ++ difference (.literal 0) x.result (.temporary x.counters.temporaries),
      .temporary x.counters.temporaries, k⟩ (do BinaryOp.sub.apply 0 (← e)) := by
  intro σ v hpc hmirrors
  rw [laid_append] at hlaid
  refine .bind (h hpc hmirrors) ?_
  rintro a σ' v' hpc' hmirrors' ⟨hvalue, hsame⟩
  have hzero : (v'.cells (.literal 0)).toInt = 0 := by rw [hmirrors'.literals]; rfl
  have hmarks : Laid L.code (p + width x.marks)
      (combine .sub (.literal 0) x.result x.counters.temporaries) := hlaid.2
  rw [width_append, ← Nat.add_assoc]
  exact reaches_apply hL hpc' (by simp) (by simp) hmarks trivial hbefore hzero hvalue hmirrors'
    hsame hle

theorem not_computes (hL : L.Placed) (h : Computes L n p x e)
    (hlaid : Laid L.code p (x.marks ++ lda x.result :: select x.counters.temporaries .brz true))
    (hle : n ≤ x.counters.temporaries) (k : Counters) :
    Computes L n p ⟨x.marks ++ lda x.result :: select x.counters.temporaries .brz true,
      .temporary x.counters.temporaries, k⟩ (do return truth ((← e) = 0)) := by
  intro σ v hpc hmirrors
  rw [laid_append, laid_order] at hlaid
  refine .bind (h hpc hmirrors) ?_
  rintro a σ' v' hpc' hmirrors' ⟨hvalue, hsame⟩
  have hleads : L.Leads v' (p + width x.marks) v'.acc v'.cells True (p + width x.marks + 1 + 5)
      fun _ cells => cells = Function.update v'.cells (.temporary x.counters.temporaries)
        (Word.ofBool (decide (a = 0))) := by
    refine .lda hlaid.2.1 (.mono (select_leads hL hlaid.2.2 (.inl ⟨rfl, rfl⟩)
      fun b => hmirrors'.literals _) ?_)
    rintro acc cells rfl
    rw [hvalue]
    simp
  rw [width_append, ← Nat.add_assoc]
  refine reaches_result hpc' hleads ?_ hmirrors' hsame hle
  simp [toInt_ofBool]

theorem binary_computes (hL : L.Placed) {op : BinaryOp} (hand : op ≠ .and) (hor : op ≠ .or)
    (hl : Computes L n p l el) (hr : Computes L l.counters.temporaries (p + width l.marks) r er)
    (hlaid : Laid L.code p
      (l.marks ++ r.marks ++ combine op l.result r.result r.counters.temporaries))
    (hbefore : l.result.Before l.counters.temporaries)
    (hbefore' : r.result.Before r.counters.temporaries) (hle : n ≤ l.counters.temporaries)
    (hle' : l.counters.temporaries ≤ r.counters.temporaries) (k : Counters) :
    Computes L n p ⟨l.marks ++ r.marks ++ combine op l.result r.result r.counters.temporaries,
      .temporary r.counters.temporaries, k⟩ (do
        let a ← el
        let b ← er
        op.apply a b) := by
  intro σ v hpc hmirrors
  rw [laid_append, width_append, ← Nat.add_assoc] at hlaid
  refine .bind (hl hpc hmirrors) ?_
  rintro a σ₁ v₁ hpc₁ hmirrors₁ ⟨hvalue, hsame⟩
  refine .bind (hr hpc₁ hmirrors₁) ?_
  rintro b σ₂ v₂ hpc₂ hmirrors₂ ⟨hvalue', hsame'⟩
  -- the code of the right operand has not changed the left one
  have hkept : (v₂.cells l.result).toInt = a := by rw [hsame' _ hbefore, hvalue]
  rw [width_append, width_append, ← Nat.add_assoc, ← Nat.add_assoc]
  exact reaches_apply hL hpc₂ hand hor hlaid.2 (hbefore.mono hle') hbefore' hkept hvalue' hmirrors₂
    (hsame.trans (hsame'.mono hle)) (hle.trans hle')

/-! ## Connectives -/

section Constants

variable {v : View} {σ : Store} {m q : Nat} {w : Word} {a : Int} {first : Cell → Word}

/-- A literal is put into a temporary. -/
theorem reaches_constant (hpc : v.pc = p) (hlda : OrderAt L.code p .lda (.cell (.literal w)))
    (hsta : OrderAt L.code (p + 1) .sta (.cell (.temporary m))) (hw : w.toInt = a)
    (hmirrors : Mirrors σ v) (hsame : Same n first v.cells) (hle : n ≤ m) :
    L.Reaches v (fun _ => p + 1 + 1)
      (fun a v' => (v'.cells (.temporary m)).toInt = a ∧ Same n first v'.cells)
      ((pure a : Eval Int) σ) :=
  reaches_result hpc (.lda hlda (.sta hsta (.done (by rw [hmirrors.literals])))) hw hmirrors hsame
    hle

/-- The same with a branch to the order that stores it. -/
theorem reaches_constant_over {l : Place} (hpc : v.pc = p)
    (hlda : OrderAt L.code p .lda (.cell (.literal w)))
    (hbra : OrderAt L.code (p + 1) .bra (.place l)) (hl : L.place l = q)
    (hsta : OrderAt L.code q .sta (.cell (.temporary m))) (hw : w.toInt = a)
    (hmirrors : Mirrors σ v) (hsame : Same n first v.cells) (hle : n ≤ m) :
    L.Reaches v (fun _ => q + 1)
      (fun a v' => (v'.cells (.temporary m)).toInt = a ∧ Same n first v'.cells)
      ((pure a : Eval Int) σ) :=
  reaches_result hpc (.lda hlda (.bra hbra hl (.sta hsta (.done (by rw [hmirrors.literals]))))) hw
    hmirrors hsame hle

end Constants

theorem conjunction_computes {m : Nat} (hL : L.Placed) (hl : Computes L (m + 1) p l el)
    (hr : Computes L l.counters.temporaries (p + width l.marks + 2) r er)
    (hlaid : Laid L.code p (emitConjunction m l r).marks)
    (hle : m + 1 ≤ l.counters.temporaries) :
    Computes L m p (emitConjunction m l r) (do
      if (← el) = 0 then return 0
      else return truth ((← er) ≠ 0)) := by
  intro σ v hpc hmirrors
  simp only [emitConjunction, List.append_assoc, List.cons_append, List.nil_append, laid_append,
    laid_order, laid_place, laid_nil, and_true] at hlaid
  obtain ⟨-, hlda, hbrz, -, hlda', hbrz', hone, hbra, hfalse, hzero, hend, hsta⟩ := hlaid
  have hwidth : p + width (emitConjunction m l r).marks =
      p + width l.marks + 1 + 1 + width r.marks + 1 + 1 + 1 + 1 + 1 + 1 := by
    simp [emitConjunction, Mark.orders]
    omega
  simp only [hwidth]
  refine .bind (hl hpc hmirrors) ?_
  rintro a σ₁ v₁ hpc₁ hmirrors₁ ⟨hvalue, hsame⟩
  refine .test hpc₁ hlda hbrz ?_ ?_
  · intro h
    rw [hvalue] at h
    rw [if_pos h]
    exact reaches_constant (hL hfalse) hzero hsta rfl (hmirrors₁.at_same _ _)
      (hsame.mono (by omega)) (Nat.le_refl m)
  · intro h
    rw [hvalue] at h
    rw [if_neg h]
    refine .bind (hr rfl (hmirrors₁.at_same _ _)) ?_
    rintro b σ₂ v₂ hpc₂ hmirrors₂ ⟨hvalue', hsame'⟩
    have hkept : Same m v.cells v₂.cells :=
      (hsame.mono (by omega)).trans (hsame'.mono (by omega))
    refine .test hpc₂ hlda' hbrz' ?_ ?_
    · intro h'
      rw [hvalue'] at h'
      exact reaches_constant (hL hfalse) hzero hsta (by simp [h', truth]) (hmirrors₂.at_same _ _)
        hkept (Nat.le_refl m)
    · intro h'
      rw [hvalue'] at h'
      exact reaches_constant_over rfl hone hbra (hL hend) hsta (by simp [h', truth])
        (hmirrors₂.at_same _ _) hkept (Nat.le_refl m)

theorem disjunction_computes {m : Nat} (hL : L.Placed) (hl : Computes L (m + 1) p l el)
    (hr : Computes L l.counters.temporaries (p + width l.marks + 3) r er)
    (hlaid : Laid L.code p (emitDisjunction m l r).marks)
    (hle : m + 1 ≤ l.counters.temporaries) :
    Computes L m p (emitDisjunction m l r) (do
      if (← el) = 0 then return truth ((← er) ≠ 0)
      else return 1) := by
  intro σ v hpc hmirrors
  simp only [emitDisjunction, List.append_assoc, List.cons_append, List.nil_append, laid_append,
    laid_order, laid_place, laid_nil, and_true] at hlaid
  obtain ⟨-, hlda, hbrz, hover, hright, -, hlda', hbrz', htrue, hone, hbra, hfalse, hzero, hend,
    hsta⟩ := hlaid
  have hwidth : p + width (emitDisjunction m l r).marks =
      p + width l.marks + 1 + 1 + 1 + width r.marks + 1 + 1 + 1 + 1 + 1 + 1 := by
    simp [emitDisjunction, Mark.orders]
    omega
  simp only [hwidth]
  refine .bind (hl hpc hmirrors) ?_
  rintro a σ₁ v₁ hpc₁ hmirrors₁ ⟨hvalue, hsame⟩
  refine .test hpc₁ hlda hbrz ?_ ?_
  · intro h
    rw [hvalue] at h
    rw [if_pos h]
    refine .bind (hr (hL hright) (hmirrors₁.at_same _ _)) ?_
    rintro b σ₂ v₂ hpc₂ hmirrors₂ ⟨hvalue', hsame'⟩
    have hkept : Same m v.cells v₂.cells :=
      (hsame.mono (by omega)).trans (hsame'.mono (by omega))
    refine .test hpc₂ hlda' hbrz' ?_ ?_
    · intro h'
      rw [hvalue'] at h'
      exact reaches_constant (hL hfalse) hzero hsta (by simp [h', truth]) (hmirrors₂.at_same _ _)
        hkept (Nat.le_refl m)
    · intro h'
      rw [hvalue'] at h'
      exact reaches_constant_over rfl hone hbra (hL hend) hsta (by simp [h', truth])
        (hmirrors₂.at_same _ _) hkept (Nat.le_refl m)
  · intro h
    rw [hvalue] at h
    rw [if_neg h]
    refine .goes ⟨_, _, hover, rfl⟩ ?_
    exact reaches_constant_over (hL htrue) hone hbra (hL hend) hsta rfl (hmirrors₁.at_same _ _)
      (hsame.mono (by omega)) (Nat.le_refl m)

/-! ## Built-in functions -/

theorem assertion_computes {m : Nat} (hL : L.Placed) (h : Computes L n p x e)
    (hlaid : Laid L.code p (emitAssertion m x).marks) :
    Computes L n p (emitAssertion m x) (do
      if (← e) = 0 then Eval.fail else return 1) := by
  intro σ v hpc hmirrors
  simp only [emitAssertion, anchor, List.append_assoc, List.cons_append, List.nil_append,
    laid_append, laid_order, laid_place, laid_nil, and_true] at hlaid
  obtain ⟨-, hlda, hbrz, hbra, hfail, hhlt, hok, hnop⟩ := hlaid
  have hwidth : p + width (emitAssertion m x).marks =
      p + width x.marks + 1 + 1 + 1 + 1 + 1 := by
    simp [emitAssertion, anchor, Mark.orders]
    omega
  simp only [hwidth]
  refine .bind (h hpc hmirrors) ?_
  rintro a σ' v' hpc' hmirrors' ⟨hvalue, hsame⟩
  refine .test hpc' hlda hbrz ?_ ?_
  · intro h
    rw [hvalue] at h
    rw [if_pos h]
    have hplace := hL hfail
    refine ⟨_, m, .refl, ⟨.hlt, .none, ?_, rfl⟩, ?_, hmirrors'.at_same _ _⟩
    · exact hplace ▸ hhlt
    · exact hplace ▸ hfail
  · intro h
    rw [hvalue] at h
    rw [if_neg h]
    refine .goes ⟨_, _, hbra, rfl⟩ (.goes ⟨_, _, (hL hok) ▸ hnop, rfl⟩ ?_)
    refine .pure ?_ (hmirrors'.at_same _ _) ⟨?_, hsame⟩
    · exact congrArg (· + 1) (hL hok)
    · exact congrArg Int64.toInt (hmirrors'.literals 1)

theorem input_computes (k : Counters)
    (hlaid : Laid L.code p [bare .inp, sta (.temporary n)]) :
    Computes L n p ⟨[bare .inp, sta (.temporary n)], .temporary n, k⟩ Eval.input := by
  intro σ v hpc hmirrors
  subst hpc
  simp only [laid_order, laid_nil, and_true] at hlaid
  obtain ⟨hinp, hsta⟩ := hlaid
  cases hqueue : σ.queue with
  | nil =>
      have hinput : Eval.input σ = .error (.waiting σ) := by simp [Eval.input, hqueue]
      have hturn : L.turn .inp .none v = .waits := by
        simp [Layout.turn, hmirrors.queue, hqueue]
      rw [hinput]
      exact ⟨v, .refl, ⟨_, _, hinp, hturn⟩, hmirrors⟩
  | cons value queue =>
      have hinput : Eval.input σ = .ok (value.toInt, { σ with queue }) := by
        simp [Eval.input, hqueue]
      have hturn : L.turn .inp .none v = .goes (v.take value queue) := by
        simp [Layout.turn, hmirrors.queue, hqueue]
      rw [hinput]
      refine ⟨_, .head ⟨_, _, hinp, hturn⟩ (.single ⟨_, _, hsta, rfl⟩), rfl, ?_, ?_, ?_⟩
      · constructor
        · intro y
          simpa [View.store, View.take] using hmirrors.vars y
        · intro y
          simpa [View.store, View.take] using hmirrors.literals y
        · rfl
        · exact hmirrors.transcript
      · simp [View.store, View.take]
      · exact Same.update (.refl n v.cells) (by simp [Cell.Before]) _

/-! ## Output -/

theorem join_append (a b : List String) : String.join (a ++ b) = String.join a ++ String.join b := by
  simp [String.join_eq]

theorem join_chars (cs : List Char) : String.join (cs.map Char.toString) = String.ofList cs := by
  induction cs with
  | nil => rfl
  | cons c rest ih =>
      rw [List.map_cons, ← List.singleton_append, join_append, ih]
      simp [String.join_eq]

/-- The view after some output. -/
def View.wrote (v : View) (pc : Nat) (acc : Word) (output : List Output) : View :=
  { v with pc, acc, output := v.output ++ output }

theorem Mirrors.wrote {σ : Store} {v : View} (h : Mirrors σ v) (pc : Nat) (acc : Word)
    (output : List Output) {text : String} (htext : String.join (output.map Output.text) = text) :
    Mirrors { σ with transcript := σ.transcript ++ text } (v.wrote pc acc output) where
  vars := h.vars
  literals := h.literals
  queue := h.queue
  transcript := by
    simp only [View.wrote, List.map_append, join_append, h.transcript, htext]

theorem charOf_toNat (c : Char) : Machine.charOf (Int64.ofNat c.toNat) = c := by
  have hvalid : c.toNat.isValidChar := c.valid
  have hlt : c.toNat < 2 ^ 32 := c.val.toNat_lt
  have haddress : Word.address? (Int64.ofNat c.toNat) = some c.toNat :=
    Word.address?_ofAddress (by omega)
  simp [Machine.charOf, haddress, hvalid]

theorem chars_run {cs : List Char} {v : View} (hlaid : Laid L.code v.pc (cs.flatMap emitChar))
    (hliterals : ∀ value, v.cells (.literal value) = value) :
    ∃ acc, L.Runs v (v.wrote (v.pc + width (cs.flatMap emitChar)) acc (cs.map .char)) := by
  induction cs generalizing v with
  | nil =>
      refine ⟨v.acc, ?_⟩
      simp only [View.wrote, List.flatMap_nil, width_nil, List.map_nil, List.append_nil]
      exact .refl
  | cons c rest ih =>
      simp only [List.flatMap_cons, emitChar, List.cons_append, List.nil_append,
        laid_order] at hlaid
      obtain ⟨hlda, hout, hrest⟩ := hlaid
      let v' := v.wrote (v.pc + 1 + 1) (Int64.ofNat c.toNat) [.char c]
      have hgoes : L.Goes (v.load (v.cells (.literal (Int64.ofNat c.toNat)))) v' := by
        refine ⟨_, _, hout, congrArg Turn.goes ?_⟩
        simp only [View.load, hliterals, charOf_toNat]
        rfl
      obtain ⟨acc, hruns⟩ := ih (v := v') hrest hliterals
      have hlast : v'.wrote (v'.pc + width (rest.flatMap emitChar)) acc (rest.map .char) =
          v.wrote (v.pc + width ((c :: rest).flatMap emitChar)) acc ((c :: rest).map .char) := by
        simp [v', View.wrote, emitChar, Mark.orders]
        omega
      exact ⟨acc, .head ⟨_, _, hlda, rfl⟩ (.head hgoes (hlast ▸ hruns))⟩

/-- Text is written. -/
theorem write_reaches {cs : List Char} {v : View} {σ : Store} (hpc : v.pc = p)
    (hlaid : Laid L.code p (cs.flatMap emitChar)) (hmirrors : Mirrors σ v) :
    L.Reaches v (fun _ => p + width (cs.flatMap emitChar)) (fun _ v' => Same n v.cells v'.cells)
      (Eval.write (String.ofList cs) σ) := by
  subst hpc
  obtain ⟨acc, hruns⟩ := chars_run hlaid hmirrors.literals
  refine ⟨_, hruns, rfl, hmirrors.wrote _ acc _ ?_, .refl n v.cells⟩
  rw [← join_chars, List.map_map]
  rfl

/-- A number is written. -/
theorem number_reaches {c : Cell} {v : View} {σ : Store} {a : Int} (hpc : v.pc = p)
    (hlda : OrderAt L.code p .lda (.cell c)) (hout : OrderAt L.code (p + 1) .out .none)
    (hmirrors : Mirrors σ v) (hvalue : (v.cells c).toInt = a) :
    L.Reaches v (fun _ => p + 1 + 1) (fun _ v' => Same n v.cells v'.cells)
      (Eval.write (toString a ++ "\n") σ) := by
  subst hpc
  refine ⟨v.wrote _ (v.cells c) [.number (v.cells c)], .head ⟨_, _, hlda, rfl⟩
    (.single ⟨_, _, hout, rfl⟩), rfl, hmirrors.wrote _ _ _ ?_, .refl n v.cells⟩
  simp [String.join_eq, Output.text, Word.text, hvalue]

/-- Whether a line is open after the arguments of `print`. -/
def endsOpen : List Expr → Bool → Bool
  | [], isOpen => isOpen
  | .text _ :: rest, _ => endsOpen rest true
  | _ :: rest, _ => endsOpen rest false

theorem leavesLineOpen_eq_endsOpen (args : List Expr) :
    Lowering.leavesLineOpen args = endsOpen args true := by
  induction args with
  | nil => rfl
  | cons e rest ih =>
      cases rest with
      | nil => cases e <;> rfl
      | cons e' rest' =>
          have hskip : Lowering.leavesLineOpen (e :: e' :: rest') =
              Lowering.leavesLineOpen (e' :: rest') := by
            simp [Lowering.leavesLineOpen, List.getLast?_cons_cons]
          rw [hskip, ih]
          cases e <;> cases e' <;> rfl

/-! ## All expressions -/

theorem Expr.temporaries_le (e : Expr) (vars : String → Cell) (k : Counters) :
    k.temporaries ≤ (e.emit vars k).counters.temporaries :=
  (e.emit_fits k []).before .temporary

theorem Cell.Between.before {k k' : Counters} {c : Cell} (h : c.Between k k') :
    c.Before k'.temporaries := by
  cases c with
  | temporary n => exact h.2
  | _ => trivial

/-- The cell of a value is not handed out again. -/
theorem Expr.result_before (e : Expr) (k : Counters) :
    (e.emit (Cell.var none) k).result.Before (e.emit (Cell.var none) k).counters.temporaries := by
  rcases @Expr.emit_result (Cell.var none) e k with ⟨value, hliteral⟩ | ⟨x, hvar⟩ | hstored
  · rw [hliteral]
    trivial
  · rw [hvar]
    trivial
  · exact ((e.emit_fresh k).stores _ hstored).before

mutual

theorem Expr.emit_computes (hL : L.Placed) (e : Expr) (k : Counters) {p : Nat}
    (hlaid : Laid L.code p (e.emit (Cell.var none) k).marks)
    (hplain : (e.emit (Cell.var none) k).marks.all isLocal = true) :
    Computes L k.temporaries p (e.emit (Cell.var none) k) e.eval := by
  cases e with
  | integer value => exact fun σ v hpc h => .pure hpc h ⟨congrArg _ (h.literals value), .refl _ _⟩
  | bool value =>
      refine fun σ v hpc h => .pure hpc h ⟨?_, .refl _ _⟩
      exact (congrArg _ (h.literals _)).trans (toInt_ofBool value)
  | text content => cases hplain
  | name word => exact fun σ v hpc h => ⟨v, .refl, hpc, h, h.vars word, .refl _ _⟩
  | group inner => exact Expr.emit_computes hL inner k hlaid hplain
  | unary op operand =>
      have hle := operand.temporaries_le (Cell.var none) k
      have hbefore := operand.result_before k
      cases op with
      | neg =>
          simp only [Expr.emit, List.all_append, Bool.and_eq_true] at hplain
          have hoperand := Expr.emit_computes hL operand k (laid_append.1 hlaid).1 hplain.1
          exact negation_computes hL hoperand hlaid hbefore hle _
      | not =>
          simp only [Expr.emit, List.all_append, Bool.and_eq_true] at hplain
          have hoperand := Expr.emit_computes hL operand k (laid_append.1 hlaid).1 hplain.1
          exact not_computes hL hoperand hlaid hle _
  | binary left op right =>
      by_cases hand : op = .and
      · subst hand
        have hle := left.temporaries_le (Cell.var none) (k.taking 1)
        have hparts := hlaid
        simp only [Expr.emit, emitConjunction, laid_append, width_append] at hparts
        simp only [Expr.emit, emitConjunction, List.all_append, Bool.and_eq_true] at hplain
        have hl := Expr.emit_computes hL left (k.taking 1) hparts.1.1.1 hplain.1.1.1
        have hr := Expr.emit_computes hL right _ hparts.1.2 hplain.1.2
        simp only [Expr.eval]
        exact conjunction_computes hL hl hr hlaid hle
      by_cases hor : op = .or
      · subst hor
        have hle := left.temporaries_le (Cell.var none) (k.taking 1)
        have hparts := hlaid
        simp only [Expr.emit, emitDisjunction, laid_append, width_append] at hparts
        simp only [Expr.emit, emitDisjunction, List.all_append, Bool.and_eq_true] at hplain
        have hl := Expr.emit_computes hL left (k.taking 1) hparts.1.1.1 hplain.1.1.1
        have hr := Expr.emit_computes hL right _ hparts.1.2 hplain.1.2
        simp only [Expr.eval]
        exact disjunction_computes hL hl hr hlaid hle
      rw [Expr.emit] at hlaid hplain ⊢
      · rw [Expr.eval]
        · have hparts := hlaid
          simp only [laid_append] at hparts
          simp only [List.all_append, Bool.and_eq_true] at hplain
          have hl := Expr.emit_computes hL left k hparts.1.1 hplain.1.1
          have hr := Expr.emit_computes hL right _ hparts.1.2 hplain.1.2
          exact binary_computes hL hand hor hl hr hlaid (left.result_before k)
            (right.result_before _) (left.temporaries_le _ k) (right.temporaries_le _ _) _
        all_goals assumption
      all_goals assumption
  | call callee args =>
      by_cases hprint : callee = "print"
      · subst hprint
        unfold Expr.emit at hlaid hplain ⊢
        unfold Expr.eval
        simp only [if_true, leavesLineOpen_eq_endsOpen] at hlaid hplain ⊢
        rw [List.all_append, Bool.and_eq_true] at hplain
        intro σ v hpc hmirrors
        refine .bind (Expr.emitPrinted_reaches hL args k true hlaid hplain.1 hpc hmirrors) ?_
        intro _ σ' v' hpc' hmirrors' hsame
        exact .pure hpc' hmirrors' ⟨congrArg Int64.toInt (hmirrors'.literals 0), hsame⟩
      by_cases hinput : callee = "input"
      · subst hinput
        cases args with
        | nil => exact input_computes _ hlaid
        | cons e rest =>
            unfold Expr.emit at hplain
            cases hplain
      by_cases hassert : callee = "assert"
      · subst hassert
        rcases args with _ | ⟨condition, _ | ⟨other, rest⟩⟩
        · cases hplain
        · have hparts := hlaid
          simp only [Expr.emit, hprint, hinput, if_true, if_false, emitAssertion,
            laid_append] at hparts
          simp only [Expr.emit, hprint, hinput, if_true, if_false, emitAssertion, List.all_append,
            Bool.and_eq_true] at hplain
          exact assertion_computes hL (Expr.emit_computes hL condition _ hparts.1.1 hplain.1.1) hlaid
        · unfold Expr.emit at hplain
          cases hplain
      · unfold Expr.emit at hplain
        simp [hprint, hinput, hassert, isLocal] at hplain

theorem Expr.emitPrinted_reaches (hL : L.Placed) (args : List Expr) (k : Counters)
    (isOpen : Bool) {p : Nat}
    (hlaid : Laid L.code p ((Expr.emitPrinted (Cell.var none) args k).marks ++
      if endsOpen args isOpen then emitChar '\n' else []))
    (hplain : (Expr.emitPrinted (Cell.var none) args k).marks.all isLocal = true)
    {σ : Store} {v : View} (hpc : v.pc = p) (hmirrors : Mirrors σ v) :
    L.Reaches v (fun _ => p + width ((Expr.emitPrinted (Cell.var none) args k).marks ++
        if endsOpen args isOpen then emitChar '\n' else []))
      (fun _ v' => Same k.temporaries v.cells v'.cells) (Expr.print args isOpen σ) := by
  cases args with
  | nil =>
      cases isOpen with
      | false => exact .pure hpc hmirrors (.refl _ _)
      | true =>
          have hline : Laid L.code p (['\n'].flatMap emitChar) := hlaid
          exact write_reaches hpc hline hmirrors
  | cons e rest =>
      by_cases htext : ∃ content, e = .text content
      · obtain ⟨content, rfl⟩ := htext
        simp only [Expr.emitPrinted, endsOpen, List.append_assoc] at hlaid hplain ⊢
        rw [laid_append] at hlaid
        rw [List.all_append, Bool.and_eq_true] at hplain
        rw [width_append, ← Nat.add_assoc]
        have hwrite := write_reaches (n := k.temporaries) hpc hlaid.1 hmirrors
        rw [String.ofList_toList] at hwrite
        refine .bind hwrite ?_
        intro _ σ' v' hpc' hmirrors' hsame
        refine .mono (Expr.emitPrinted_reaches hL rest k true hlaid.2 hplain.2 hpc' hmirrors') ?_
        exact fun _ _ _ h => ⟨rfl, hsame.trans h⟩
      · have hnot : ∀ content, e ≠ .text content := fun content h => htext ⟨content, h⟩
        have hemitted : Expr.emitPrinted (Cell.var none) (e :: rest) k =
            let x := e.emit (Cell.var none) k
            let y := Expr.emitPrinted (Cell.var none) rest x.counters
            ⟨x.marks ++ [lda x.result, bare .out] ++ y.marks, (), y.counters⟩ := by
          rw [Expr.emitPrinted]
          exact hnot
        have hends : endsOpen (e :: rest) isOpen = endsOpen rest false := by
          rw [endsOpen]
          exact hnot
        rw [Expr.print]
        · simp only [hemitted, hends, List.append_assoc, List.cons_append, List.nil_append,
            laid_append, laid_order, List.all_append, Bool.and_eq_true, List.all_cons] at hlaid hplain
          obtain ⟨hoperand, hlda, hout, hrest⟩ := hlaid
          refine .bind (Expr.emit_computes hL e k hoperand hplain.1 hpc hmirrors) ?_
          rintro a σ₁ v₁ hpc₁ hmirrors₁ ⟨hvalue, hsame⟩
          refine .bind (number_reaches (n := k.temporaries) hpc₁ hlda hout hmirrors₁ hvalue) ?_
          intro _ σ₂ v₂ hpc₂ hmirrors₂ hsame'
          refine .mono (Expr.emitPrinted_reaches hL rest _ false (laid_append.2 hrest) hplain.2.2.2 hpc₂
            hmirrors₂) ?_
          intro _ v' _ hsame''
          refine ⟨?_, hsame.trans (hsame'.trans (hsame''.mono (e.temporaries_le _ k)))⟩
          simp [hemitted, hends, Mark.orders]
          omega
        · exact hnot

end

end LittleMan
