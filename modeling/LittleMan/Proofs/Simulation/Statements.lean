import LittleMan.Proofs.Simulation.Expressions

/-!
# Statements follow their execution

A statement ends at the address after its code, or at one of the two places of the loop
around it: `Layout.exit` gives the address for each of these ends.  The code of a statement
changes variables, but of the temporaries only those handed out for it.  This is what keeps
the bound of a counting loop, which is evaluated once and stands in a temporary while the
body runs.

Each loop has a lemma on one pass, from the start of its code to the start or to the end.
-/

namespace LittleMan

open Mark Layout

/-- Where a statement ends.  Without a loop it only ends at the next one. -/
def Layout.exit (L : Layout) (loop : Option LoopPlaces) (q : Nat) : Flow → Nat
  | .next => q
  | .leave => loop.elim 0 fun loop => L.place loop.done
  | .again => loop.elim 0 fun loop => L.place loop.next

/-- The code of a statement at an address follows its execution and keeps the temporaries
before `n`. -/
def Executes (L : Layout) (loop : Option LoopPlaces) (n p q : Nat) (e : Eval Flow) : Prop :=
  ∀ ⦃σ v⦄, v.pc = p → Mirrors σ v →
    L.Reaches v (L.exit loop q)
      (fun flow v' => (loop = none → flow = .next) ∧ SameTemporaries n v.cells v'.cells) (e σ)

variable {L : Layout} {loop : Option LoopPlaces} {n n' p q s : Nat} {x y : Emitted Cell}
  {e el : Eval Int} {body : Eval Flow}

namespace Executes

theorem mono (h : Executes L loop n' p q body) (hle : n ≤ n') : Executes L loop n p q body :=
  fun _ _ hpc hmirrors => .mono (h hpc hmirrors) fun _ _ _ hpost =>
    ⟨rfl, hpost.1, hpost.2.mono hle⟩

/-- What follows the code comes to another address. -/
theorem onward (h : Executes L loop n p s body)
    (hruns : ∀ v : View, v.pc = s → L.Runs v (v.jump q)) : Executes L loop n p q body := by
  intro σ v hpc hmirrors
  rw [← bind_pure body]
  refine .bind (h hpc hmirrors) ?_
  intro flow σ' v' hpc' hmirrors' hpost
  cases flow with
  | next => exact .of_runs (hruns v' hpc') (.pure rfl (hmirrors'.at_same q v'.acc) hpost)
  | leave => exact .pure hpc' hmirrors' hpost
  | again => exact .pure hpc' hmirrors' hpost

end Executes

theorem nop_runs {v : View} (hat : OrderAt L.code p .nop .none) (hpc : v.pc = p) :
    L.Runs v (v.jump (p + 1)) := by
  subst hpc
  exact .single ⟨_, _, hat, rfl⟩

theorem bra_runs {v : View} {l : Place} (hat : OrderAt L.code p .bra (.place l))
    (hl : L.place l = q) (hpc : v.pc = p) : L.Runs v (v.jump q) := by
  subst hpc hl
  exact .single ⟨_, _, hat, rfl⟩

/-- A branch to a place before an order that does nothing. -/
theorem bra_nop_runs {v : View} {l : Place} (hat : OrderAt L.code p .bra (.place l))
    (hl : L.place l = q) (hnop : OrderAt L.code q .nop .none) (hpc : v.pc = p) :
    L.Runs v (v.jump (q + 1)) :=
  (bra_runs hat hl hpc).trans (nop_runs hnop rfl)

/-- An order that does nothing comes first. -/
theorem Executes.after_nop (h : Executes L loop n (p + 1) q body)
    (hnop : OrderAt L.code p .nop .none) : Executes L loop n p q body :=
  fun _ _ hpc hmirrors => .of_runs (nop_runs hnop hpc) (h rfl (hmirrors.at_same _ _))

/-! ## Simple statements -/

theorem skip_executes (hnop : OrderAt L.code p .nop .none) :
    Executes L loop n p (p + 1) (pure .next) :=
  .after_nop (fun _ v hpc hmirrors => .pure hpc hmirrors ⟨fun _ => rfl, .refl n v.cells⟩) hnop

theorem assign_reaches (n : Nat) {c : Cell} {z : String} {a : Int} {σ : Store} {v : View}
    (hpc : v.pc = p) (hlaid : Laid L.code p (copy c (.var none z))) (hmirrors : Mirrors σ v)
    (hvalue : (v.cells c).toInt = a) :
    L.Reaches v (fun _ => p + 2) (fun _ v' => SameTemporaries n v.cells v'.cells)
      (Eval.assign z a σ) := by
  have hleads : L.Leads v p v.acc v.cells True (p + 2)
      fun _ cells => cells = Function.update v.cells (.var none z) (v.cells c) :=
    .copy hlaid (.done rfl)
  refine .after hpc hleads ?_
  rintro acc cells rfl
  refine ⟨_, .refl, rfl, hmirrors.assign _ acc z hvalue, ?_⟩
  intro m hm
  simp [View.at]

theorem assign_executes {z : String} (h : Computes L n p x e)
    (hlaid : Laid L.code p (x.marks ++ copy x.result (.var none z))) :
    Executes L loop n p (p + width x.marks + 2) (do
      Eval.assign z (← e)
      return .next) := by
  intro σ v hpc hmirrors
  refine .bind (h hpc hmirrors) ?_
  rintro a σ₁ v₁ hpc₁ hmirrors₁ ⟨hvalue, hsame⟩
  refine .bind (assign_reaches n hpc₁ (laid_append.1 hlaid).2 hmirrors₁ hvalue) ?_
  intro _ σ₂ v₂ hpc₂ hmirrors₂ hsame'
  exact .pure hpc₂ hmirrors₂ ⟨fun _ => rfl, hsame.temporaries.trans hsame'⟩

theorem evaluate_executes (h : Computes L n p x e) :
    Executes L loop n p (p + width x.marks) (do
      let _ ← e
      return .next) := by
  intro σ v hpc hmirrors
  refine .bind (h hpc hmirrors) ?_
  rintro a σ' v' hpc' hmirrors' ⟨-, hsame⟩
  exact .pure hpc' hmirrors' ⟨fun _ => rfl, hsame.temporaries⟩

/-- A branch to a place of the loop ends the statement there. -/
theorem branch_executes {loop : LoopPlaces} {flow : Flow} {l : Place}
    (hlaid : Laid L.code p [jump .bra l]) (hflow : L.exit (some loop) q flow = L.place l) :
    Executes L (some loop) n p q (pure flow) := by
  intro σ v hpc hmirrors
  refine .of_runs (bra_runs (laid_order.1 hlaid).1 hflow.symm hpc) (.pure rfl (hmirrors.at_same _ _) ?_)
  exact ⟨nofun, .refl n v.cells⟩

/-! ## Loops -/

/-- One pass of a loop, which starts at `top` and ends at `done`. -/
def Passes (L : Layout) (n top done : Nat) (first : Cell → Word) (pass : Eval Bool) : Prop :=
  ∀ ⦃σ v⦄, v.pc = top → Mirrors σ v → SameTemporaries n first v.cells →
    L.Reaches v (fun more => if more then top else done)
      (fun _ v' => SameTemporaries n first v'.cells) (pass σ)

section Loops

variable {m done : Nat} {first : Cell → Word} {σ : Store} {v : View}

theorem Passes.reaches {pass : Eval Bool} (h : Passes L n p done first pass)
    (loop : Option LoopPlaces) (hnop : OrderAt L.code done .nop .none) (fuel : Nat)
    (hpc : v.pc = p) (hmirrors : Mirrors σ v) (hsame : SameTemporaries n first v.cells) :
    L.Reaches v (L.exit loop (done + 1))
      (fun flow v' => (loop = none → flow = .next) ∧ SameTemporaries n first v'.cells) ((do
        Eval.loop pass fuel
        return .next : Eval Flow) σ) := by
  refine .bind (.loop (I := fun v => SameTemporaries n first v.cells)
    (fun _ _ hpc hmirrors hsame => h hpc hmirrors hsame) fuel hpc hmirrors hsame) ?_
  intro _ σ' v' hpc' hmirrors' hsame'
  exact .of_runs (nop_runs hnop hpc') (.pure rfl (hmirrors'.at_same _ _) ⟨fun _ => rfl, hsame'⟩)

theorem while_passes (hnop : OrderAt L.code p .nop .none) (hx : Computes L n (p + 1) x e)
    (hlda : OrderAt L.code (p + 1 + width x.marks) .lda (.cell x.result))
    (hbrz : OrderAt L.code (p + 1 + width x.marks + 1) .brz (.place (.point .loop m "_end")))
    (hbody : Executes L (some ⟨m, "_start"⟩) n (p + 1 + width x.marks + 2) s body)
    (hbra : OrderAt L.code s .bra (.place (.point .loop m "_start")))
    (hstart : L.place (.point .loop m "_start") = p)
    (hdone : L.place (.point .loop m "_end") = done) :
    Passes L n p done first (whilePass e body) := by
  intro σ v hpc hmirrors hfirst
  refine .of_runs (nop_runs hnop hpc) (.bind (hx rfl (hmirrors.at_same _ _)) ?_)
  rintro a σ₁ v₁ hpc₁ hmirrors₁ ⟨hvalue, hsame⟩
  have hkept := hfirst.trans hsame.temporaries
  refine .test hpc₁ hlda hbrz ?_ ?_
  · intro hzero
    rw [hvalue] at hzero
    rw [if_pos hzero]
    exact .pure hdone (hmirrors₁.at_same _ _) hkept
  · intro hnext
    rw [hvalue] at hnext
    rw [if_neg hnext]
    refine .bind (hbody rfl (hmirrors₁.at_same _ _)) ?_
    rintro flow σ₂ v₂ hpc₂ hmirrors₂ ⟨-, hsame'⟩
    have hkept' := hkept.trans hsame'
    cases flow with
    | next => exact .of_runs (bra_runs hbra hstart hpc₂) (.pure rfl (hmirrors₂.at_same _ _) hkept')
    | leave => exact .pure (hpc₂.trans hdone) hmirrors₂ hkept'
    | again => exact .pure (hpc₂.trans hstart) hmirrors₂ hkept'

theorem until_passes (hnop : OrderAt L.code p .nop .none)
    (hbody : Executes L (some ⟨m, "_cond"⟩) n (p + 1) s body)
    (hcond : L.place (.point .loop m "_cond") = s) (hnop' : OrderAt L.code s .nop .none)
    (hx : Computes L n (s + 1) x e)
    (hlda : OrderAt L.code (s + 1 + width x.marks) .lda (.cell x.result))
    (hbrz : OrderAt L.code (s + 1 + width x.marks + 1) .brz (.place (.point .loop m "_start")))
    (hstart : L.place (.point .loop m "_start") = p)
    (hdone : L.place (.point .loop m "_end") = s + 1 + width x.marks + 2) :
    Passes L n p (s + 1 + width x.marks + 2) first (untilPass body e) := by
  intro σ v hpc hmirrors hfirst
  refine .of_runs (nop_runs hnop hpc) (.bind (hbody rfl (hmirrors.at_same _ _)) ?_)
  rintro flow σ₁ v₁ hpc₁ hmirrors₁ ⟨-, hsame⟩
  have hkept := hfirst.trans hsame
  by_cases hleave : flow = .leave
  · subst hleave
    exact .pure (hpc₁.trans hdone) hmirrors₁ hkept
  · have hs : v₁.pc = s := by
      cases flow with
      | next => exact hpc₁
      | leave => exact absurd rfl hleave
      | again => exact hpc₁.trans hcond
    rw [if_neg hleave]
    refine .of_runs (nop_runs hnop' hs) (.bind (hx rfl (hmirrors₁.at_same _ _)) ?_)
    rintro a σ₂ v₂ hpc₂ hmirrors₂ ⟨hvalue, hsame'⟩
    have hkept' := hkept.trans hsame'.temporaries
    refine .test hpc₂ hlda hbrz ?_ ?_
    · intro hzero
      rw [hvalue] at hzero
      exact .pure (by simpa [hzero, View.at] using hstart) (hmirrors₂.at_same _ _) hkept'
    · intro hnext
      rw [hvalue] at hnext
      exact .pure (by simp [hnext, View.at]) (hmirrors₂.at_same _ _) hkept'

theorem laid_emitCount {c : Cell} {bound : Nat} (h : Laid L.code s (emitCount c bound m)) :
    PlaceAt L.code s (.point .loop m "_step") ∧ OrderAt L.code s .lda (.cell c) ∧
      OrderAt L.code (s + 1) .sub (.cell (.temporary bound)) ∧
      OrderAt L.code (s + 2) .brp (.place (.point .loop m "_end")) ∧
      Laid L.code (s + 3) (sum c (.literal 1) c) ∧
      OrderAt L.code (s + 6) .bra (.place (.point .loop m "_start")) ∧
      PlaceAt L.code (s + 7) (.point .loop m "_end") ∧ OrderAt L.code (s + 7) .nop .none := by
  simpa only [emitCount, List.append_assoc, List.cons_append, List.nil_append, laid_append,
    laid_order, laid_place, laid_nil, anchor, and_true, width_sum] using h

/-- The variable of a counting loop is compared with its bound and counted up. -/
theorem count_reaches {z : String} {bound : Nat} {b : Int} (hL : L.Placed)
    (hlaid : Laid L.code s (emitCount (.var none z) bound m))
    (hstart : L.place (.point .loop m "_start") = p)
    (hbound : (v.cells (.temporary bound)).toInt = b)
    (hpc : v.pc = s) (hmirrors : Mirrors σ v) (hfirst : SameTemporaries n first v.cells) :
    L.Reaches v (fun more => if more then p else s + 7)
      (fun _ v' => SameTemporaries n first v'.cells) ((do
        let i ← Eval.lookup z
        if (← BinaryOp.gtEq.apply i b) = 0 then
          Eval.assign z (i + 1)
          return true
        else return false : Eval Bool) σ) := by
  obtain ⟨-, hlda, hsub, hbrp, hsum, hbra, hdone, -⟩ := laid_emitCount hlaid
  have hlookup : L.Reaches v (fun _ => s)
      (fun i v' => v = v' ∧ (v.cells (.var none z)).toInt = i) (Eval.lookup z σ) :=
    ⟨v, .refl, hpc, hmirrors, rfl, hmirrors.vars z⟩
  refine .bind hlookup ?_
  rintro i σ' _ - hmirrors' ⟨rfl, hvalue⟩
  have hleads : L.Leads v s v.acc v.cells (BinaryOp.gtEq.Fits i b) (s + 2)
      fun acc cells => acc.toInt = i - b ∧ cells = v.cells := by
    refine .lda hlda (.congr (.sub hsub fun w hw => .done ⟨?_, rfl⟩) ?_)
    · rw [hw, hvalue, hbound]
    · rw [hvalue, hbound, and_iff_left trivial]
      rfl
  have hcompare : L.Reaches v (fun _ => s + 2)
      (fun a v' => a = truth (b ≤ i) ∧ v'.acc.toInt = i - b ∧ v'.cells = v.cells)
      (BinaryOp.gtEq.apply i b σ') := by
    refine .apply hpc hleads rfl ?_
    rintro acc cells ⟨hacc, rfl⟩
    exact ⟨hmirrors'.at_same _ _, rfl, hacc, rfl⟩
  refine .bind hcompare ?_
  rintro a σ₁ v₁ hpc₁ hmirrors₁ ⟨rfl, hacc, hcells⟩
  by_cases hreached : b ≤ i
  · have hgoes : L.Goes v₁ (v₁.jump (s + 7)) := by
      refine ⟨.brp, .place (.point .loop m "_end"), hpc₁ ▸ hbrp, congrArg Turn.goes ?_⟩
      rw [if_pos (by omega), hL hdone]
    rw [truth, if_pos hreached, if_neg (by decide)]
    refine .goes hgoes (.pure rfl (hmirrors₁.at_same _ _) ?_)
    exact hcells ▸ hfirst
  · have hgoes : L.Goes v₁ (v₁.jump (s + 3)) := by
      refine ⟨.brp, .place (.point .loop m "_end"), hpc₁ ▸ hbrp, congrArg Turn.goes ?_⟩
      rw [if_neg (by omega), View.next, hpc₁]
      rfl
    rw [truth, if_neg hreached, if_pos rfl]
    refine .goes hgoes ?_
    have hrange : Word.InRange (i + 1) := by
      have hlow := (Word.toInt_bounds (v.cells (.var none z))).1
      have hhigh := (Word.toInt_bounds (v.cells (.temporary bound))).2
      rw [hvalue] at hlow
      rw [hbound] at hhigh
      exact ⟨by omega, by omega⟩
    have hcount : L.Leads v₁ (s + 3) v₁.acc v₁.cells True p fun _ cells =>
        ∃ w : Word, w.toInt = i + 1 ∧ cells = Function.update v₁.cells (.var none z) w := by
      refine .safe (.sum hsum (hcells ▸ hvalue) (congrArg Int64.toInt (hmirrors₁.literals 1))
        fun w hw => .bra hbra hstart (.done ⟨w, hw, rfl⟩)) hrange
    refine .after rfl hcount ?_
    rintro acc cells ⟨w, hw, rfl⟩
    refine ⟨_, .refl, rfl, (hmirrors₁.at_same _ _).assign p acc z hw, ?_⟩
    intro m' hm
    simpa [View.at, hcells] using hfirst m' hm

theorem for_passes {z : String} {bound : Nat} {b : Int} (hL : L.Placed)
    (hnop : OrderAt L.code p .nop .none)
    (hbody : Executes L (some ⟨m, "_step"⟩) (bound + 1) (p + 1) s body)
    (hlaid : Laid L.code s (emitCount (.var none z) bound m))
    (hstart : L.place (.point .loop m "_start") = p)
    (hbound : (first (.temporary bound)).toInt = b) :
    Passes L (bound + 1) p (s + 7) first (forPass z b body) := by
  intro σ v hpc hmirrors hfirst
  obtain ⟨hstep, -, -, -, -, -, hdone, -⟩ := laid_emitCount hlaid
  refine .of_runs (nop_runs hnop hpc) (.bind (hbody rfl (hmirrors.at_same _ _)) ?_)
  rintro flow σ₁ v₁ hpc₁ hmirrors₁ ⟨-, hsame⟩
  have hkept := hfirst.trans hsame
  have hlimit : (v₁.cells (.temporary bound)).toInt = b := by
    rw [hkept bound (Nat.lt_succ_self bound), hbound]
  cases flow with
  | leave => exact .pure (hpc₁.trans (hL hdone)) hmirrors₁ hkept
  | next => exact count_reaches hL hlaid hstart hlimit hpc₁ hmirrors₁ hkept
  | again => exact count_reaches hL hlaid hstart hlimit (hpc₁.trans (hL hstep)) hmirrors₁ hkept

end Loops

section LoopStatements

variable {m : Nat} {block : List Mark} {y : Emitted Cell}

theorem while_executes (hL : L.Placed) (fuel : Nat) (hx : Computes L n (p + 1) x e)
    (hbody : Executes L (some ⟨m, "_start"⟩) n (p + 1 + width x.marks + 2)
      (p + 1 + width x.marks + 2 + width block) body)
    (hlaid : Laid L.code p (anchor (.point .loop m "_start") ++
      emitBranchIfFalse x (.point .loop m "_end") ++ block ++
      [jump .bra (.point .loop m "_start")] ++ anchor (.point .loop m "_end"))) :
    Executes L loop n p (p + 1 + width x.marks + 2 + width block + 2) (do
      Eval.loop (whilePass e body) fuel
      return .next) := by
  intro σ v hpc hmirrors
  simp only [emitBranchIfFalse, anchor, List.append_assoc, List.cons_append, List.nil_append,
    laid_append, laid_order, laid_place, laid_nil, and_true] at hlaid
  obtain ⟨htop, hnop, -, hlda, hbrz, -, hbra, hdone, hnop'⟩ := hlaid
  have hpasses : Passes L n p _ v.cells (whilePass e body) :=
    while_passes hnop hx hlda hbrz hbody hbra (hL htop) (hL hdone)
  exact hpasses.reaches loop hnop' fuel hpc hmirrors (.refl n v.cells)

theorem until_executes (hL : L.Placed) (fuel : Nat)
    (hbody : Executes L (some ⟨m, "_cond"⟩) n (p + 1) (p + 1 + width block) body)
    (hx : Computes L n (p + 1 + width block + 1) x e)
    (hlaid : Laid L.code p (anchor (.point .loop m "_start") ++ block ++
      anchor (.point .loop m "_cond") ++ emitBranchIfFalse x (.point .loop m "_start") ++
      anchor (.point .loop m "_end"))) :
    Executes L loop n p (p + 1 + width block + 1 + width x.marks + 3) (do
      Eval.loop (untilPass body e) fuel
      return .next) := by
  intro σ v hpc hmirrors
  simp only [emitBranchIfFalse, anchor, List.append_assoc, List.cons_append, List.nil_append,
    laid_append, laid_order, laid_place, laid_nil, and_true] at hlaid
  obtain ⟨htop, hnop, -, hcond, hnop', -, hlda, hbrz, hdone, hnop''⟩ := hlaid
  have hpasses : Passes L n p _ v.cells (untilPass body e) :=
    until_passes hnop hbody (hL hcond) hnop' hx hlda hbrz (hL htop) (hL hdone)
  exact hpasses.reaches loop hnop'' fuel hpc hmirrors (.refl n v.cells)

/-- The bound stands in a temporary that the body keeps. -/
theorem for_executes {z : String} {bound : Nat} (hL : L.Placed) (fuel : Nat)
    (hx : Computes L n p x e) (hy : Computes L n (p + width x.marks + 2) y el)
    (hle : n ≤ bound)
    (hbody : Executes L (some ⟨m, "_step"⟩) (bound + 1)
      (p + width x.marks + 2 + width y.marks + 2 + 1)
      (p + width x.marks + 2 + width y.marks + 2 + 1 + width block) body)
    (hlaid : Laid L.code p (x.marks ++ copy x.result (.var none z) ++ y.marks ++
      copy y.result (.temporary bound) ++ anchor (.point .loop m "_start") ++ block ++
      emitCount (.var none z) bound m)) :
    Executes L loop n p
      (p + width x.marks + 2 + width y.marks + 2 + 1 + width block + 8) (do
        Eval.assign z (← e)
        let b ← el
        Eval.loop (forPass z b body) fuel
        return .next) := by
  intro σ v hpc hmirrors
  simp only [anchor, List.append_assoc, List.cons_append, List.nil_append, laid_append,
    laid_order, laid_place, width_copy] at hlaid
  obtain ⟨-, hcopy, -, hcopy', htop, hnop, -, hcount⟩ := hlaid
  refine .bind (hx hpc hmirrors) ?_
  rintro a σ₁ v₁ hpc₁ hmirrors₁ ⟨hvalue, hsame⟩
  refine .bind (assign_reaches n hpc₁ hcopy hmirrors₁ hvalue) ?_
  rintro _ σ₂ v₂ hpc₂ hmirrors₂ hsame₂
  refine .bind (hy hpc₂ hmirrors₂) ?_
  rintro b σ₃ v₃ hpc₃ hmirrors₃ ⟨hlimit, hsame₃⟩
  -- the bound is put away
  have hleads : L.Leads v₃ (p + width x.marks + 2 + width y.marks) v₃.acc v₃.cells True
      (p + width x.marks + 2 + width y.marks + 2)
      fun _ cells => cells = Function.update v₃.cells (.temporary bound) (v₃.cells y.result) :=
    .copy hcopy' (.done rfl)
  refine .after hpc₃ hleads ?_
  rintro acc cells rfl
  have hfresh : ¬ (Cell.temporary bound).Before n := Nat.not_lt.2 hle
  have hstored := Same.update (.refl n v₃.cells) hfresh (v₃.cells y.result)
  have hpasses : Passes L (bound + 1) (p + width x.marks + 2 + width y.marks + 2) _
      (Function.update v₃.cells (.temporary bound) (v₃.cells y.result)) (forPass z b body) :=
    for_passes hL hnop hbody hcount (hL htop) (by simpa using hlimit)
  obtain ⟨-, -, -, -, -, -, -, hend⟩ := laid_emitCount hcount
  refine .mono (hpasses.reaches loop hend fuel rfl (hmirrors₃.at_of_same _ acc hstored)
    (.refl _ _)) ?_
  rintro flow v' - ⟨hflow, hsame₄⟩
  refine ⟨rfl, hflow, ?_⟩
  exact ((hsame.temporaries.trans hsame₂).trans hsame₃.temporaries).trans
    (hstored.temporaries.trans (hsame₄.mono (by omega)))

end LoopStatements

/-! ## Choices -/

/-- One arm: its body, or what stands at the next place. -/
theorem arm_executes {i next done : Place} {d : Nat} {block more : List Mark} {rest : Eval Flow}
    (hx : Computes L n (p + 1) x e)
    (hbody : Executes L loop n (p + 1 + width x.marks + 2)
      (p + 1 + width x.marks + 2 + width block) body)
    (hlaid : Laid L.code p (anchor i ++ emitBranchIfFalse x next ++ block ++
      [jump .bra done] ++ more))
    (hdone : L.place done = d) (hnop : OrderAt L.code d .nop .none)
    (hrest : Executes L loop n (L.place next) (d + 1) rest) :
    Executes L loop n p (d + 1) (do
      if (← e) = 0 then rest else body) := by
  intro σ v hpc hmirrors
  simp only [emitBranchIfFalse, anchor, List.append_assoc, List.cons_append, List.nil_append,
    laid_append, laid_order, laid_place] at hlaid
  obtain ⟨-, hnop', -, hlda, hbrz, -, hbra, -⟩ := hlaid
  refine .of_runs (nop_runs hnop' hpc) (.bind (hx rfl (hmirrors.at_same _ _)) ?_)
  rintro a σ₁ v₁ hpc₁ hmirrors₁ ⟨hvalue, hsame⟩
  refine .test hpc₁ hlda hbrz ?_ ?_
  · intro hzero
    rw [hvalue] at hzero
    rw [if_pos hzero]
    refine .mono (hrest rfl (hmirrors₁.at_same _ _)) ?_
    exact fun _ _ _ hpost => ⟨rfl, hpost.1, hsame.temporaries.trans hpost.2⟩
  · intro hnext
    rw [hvalue] at hnext
    rw [if_neg hnext]
    have honward := hbody.onward fun v hpc => bra_nop_runs hbra hdone hnop hpc
    refine .mono (honward rfl (hmirrors₁.at_same _ _)) ?_
    exact fun _ _ _ hpost => ⟨rfl, hpost.1, hsame.temporaries.trans hpost.2⟩

/-! ## All statements -/

theorem Stmt.temporaries_le (stmt : Stmt) (loop : Option LoopPlaces) (k : Counters) :
    k.temporaries ≤ (Stmt.emit (Cell.var none) loop stmt k).counters.temporaries :=
  (Stmt.emit_fits (fun _ => rfl) loop stmt k).before .temporary

theorem Stmt.temporaries_le_block (block : List Stmt) (loop : Option LoopPlaces) (k : Counters) :
    k.temporaries ≤ (Stmt.emitBlock (Cell.var none) loop block k).counters.temporaries :=
  (Stmt.emitBlock_fits (fun _ => rfl) loop block k).before .temporary

/-- The place after an arm is the one before the other arms, or the fallback. -/
theorem Stmt.place_next {n i : Nat} {fallback : Place} {arms : List (Expr × List Stmt)}
    {k : Counters} (hL : L.Placed)
    (hlaid : Laid L.code p (Stmt.emitArms (Cell.var none) loop n fallback i arms k).marks)
    (hfallback : L.place fallback =
      p + width (Stmt.emitArms (Cell.var none) loop n fallback i arms k).marks) :
    L.place (if arms.isEmpty then fallback else .point .choice n ("_" ++ toString i)) = p := by
  cases arms with
  | nil => exact hfallback
  | cons arm rest =>
      simp only [Stmt.emitArms, anchor, List.append_assoc, List.cons_append, laid_place] at hlaid
      exact hL hlaid.1

mutual

theorem Stmt.emit_executes (hL : L.Placed) (fuel : Nat) (loop : Option LoopPlaces) (stmt : Stmt)
    (k : Counters) {p : Nat} (hlaid : Laid L.code p (Stmt.emit (Cell.var none) loop stmt k).marks)
    (hplain : (Stmt.emit (Cell.var none) loop stmt k).marks.all isLocal = true) :
    Executes L loop k.temporaries p (p + width (Stmt.emit (Cell.var none) loop stmt k).marks)
      (stmt.exec fuel) := by
  cases stmt with
  | assign name value =>
      simp only [Stmt.emit, List.all_append, Bool.and_eq_true] at hlaid hplain ⊢
      rw [width_append, ← Nat.add_assoc]
      exact assign_executes (value.emit_computes hL k (laid_append.1 hlaid).1 hplain.1) hlaid
  | choose arms otherwise =>
      cases otherwise with
      | none =>
          simp only [Stmt.emit, laid_append, List.all_append, Bool.and_eq_true, anchor, laid_place,
            laid_order] at hlaid hplain
          obtain ⟨harms, hdone, hnop, -⟩ := hlaid
          simp only [Stmt.emit, width_append, width_anchor, ← Nat.add_assoc]
          refine Stmt.emitArms_executes hL fuel loop k.ifs _ 0 arms _ harms hplain.1 (hL hdone)
            (hL hdone) hnop ?_
          rw [hL hdone]
          exact skip_executes hnop
      | some body =>
          simp only [Stmt.emit, laid_append, List.all_append, Bool.and_eq_true, anchor, laid_place,
            laid_order, width_append, ← Nat.add_assoc] at hlaid hplain
          obtain ⟨⟨⟨harms, helse, hnop, -⟩, hblock⟩, hdone, hnop', -⟩ := hlaid
          have hbody := Stmt.emitBlock_executes hL fuel loop body _ hblock hplain.1.2
          simp only [Stmt.emit, width_append, width_anchor, ← Nat.add_assoc]
          refine Stmt.emitArms_executes hL fuel loop k.ifs _ 0 arms _ harms hplain.1.1.1 (hL helse)
            (hL hdone) hnop' ?_
          rw [hL helse]
          exact (hbody.after_nop hnop).onward fun v => nop_runs hnop'
  | whileLoop condition body =>
      have hparts := hlaid
      simp only [Stmt.emit, emitBranchIfFalse, laid_append, width_append, width_anchor,
        ← Nat.add_assoc] at hparts
      simp only [Stmt.emit, emitBranchIfFalse, List.all_append, Bool.and_eq_true] at hplain
      have hx := condition.emit_computes hL { k with loops := k.loops + 1 } hparts.1.1.1.2.1
        hplain.1.1.1.2.1
      have hbody := Stmt.emitBlock_executes hL fuel (some ⟨k.loops, "_start"⟩) body _ hparts.1.1.2
        hplain.1.1.2
      have hle := condition.temporaries_le (Cell.var none) { k with loops := k.loops + 1 }
      simp only [Stmt.emit, emitBranchIfFalse, width_append, width_anchor, ← Nat.add_assoc]
      exact while_executes hL fuel hx (hbody.mono hle) hlaid
  | untilLoop body condition =>
      have hparts := hlaid
      simp only [Stmt.emit, emitBranchIfFalse, laid_append, width_append, width_anchor,
        ← Nat.add_assoc] at hparts
      simp only [Stmt.emit, emitBranchIfFalse, List.all_append, Bool.and_eq_true] at hplain
      have hbody := Stmt.emitBlock_executes hL fuel (some ⟨k.loops, "_cond"⟩) body
        { k with loops := k.loops + 1 } hparts.1.1.1.2 hplain.1.1.1.2
      have hx := condition.emit_computes hL _ hparts.1.2.1 hplain.1.2.1
      have hle := Stmt.temporaries_le_block body (some ⟨k.loops, "_cond"⟩)
        { k with loops := k.loops + 1 }
      simp only [Stmt.emit, emitBranchIfFalse, width_append, width_anchor, ← Nat.add_assoc]
      exact until_executes hL fuel hbody (hx.mono hle) hlaid
  | forLoop name first last body closing =>
      by_cases hclosing : name = closing
      · subst hclosing
        have hparts := hlaid
        simp only [Stmt.emit, if_true, laid_append, width_append, width_copy, width_anchor,
          ← Nat.add_assoc] at hparts
        simp only [Stmt.emit, if_true, List.all_append, Bool.and_eq_true] at hplain
        have hx := first.emit_computes hL { k with loops := k.loops + 1 } hparts.1.1.1.1.1.1
          hplain.1.1.1.1.1.1
        have hy := last.emit_computes hL _ hparts.1.1.1.1.2 hplain.1.1.1.1.2
        have hbody := Stmt.emitBlock_executes hL fuel (some ⟨k.loops, "_step"⟩) body _ hparts.1.2
          hplain.1.2
        have hle := first.temporaries_le (Cell.var none) { k with loops := k.loops + 1 }
        have hle' := last.temporaries_le (Cell.var none)
          (first.emit (Cell.var none) { k with loops := k.loops + 1 }).counters
        simp only [Stmt.emit, Stmt.exec, if_true, width_append, width_copy, width_anchor,
          ← Nat.add_assoc]
        exact for_executes hL fuel hx (hy.mono hle) (hle.trans hle') hbody
          (by simpa only [Stmt.emit, if_true] using hlaid)
      · simp [Stmt.emit, hclosing, isLocal] at hplain
  | switch => cases hplain
  | function => cases hplain
  | giveBack value =>
      cases value with
      | none => cases hplain
      | some value => simp [Stmt.emit, emitReturn, isLocal] at hplain
  | leaveLoop =>
      cases loop with
      | none => cases hplain
      | some loop => exact branch_executes hlaid rfl
  | nextPass =>
      cases loop with
      | none => cases hplain
      | some loop => exact branch_executes hlaid rfl
  | evaluate value => exact evaluate_executes (value.emit_computes hL k hlaid hplain)

theorem Stmt.emitBlock_executes (hL : L.Placed) (fuel : Nat) (loop : Option LoopPlaces)
    (block : List Stmt) (k : Counters) {p : Nat}
    (hlaid : Laid L.code p (Stmt.emitBlock (Cell.var none) loop block k).marks)
    (hplain : (Stmt.emitBlock (Cell.var none) loop block k).marks.all isLocal = true) :
    Executes L loop k.temporaries p
      (p + width (Stmt.emitBlock (Cell.var none) loop block k).marks)
      (Stmt.execBlock fuel block) := by
  cases block with
  | nil => exact fun σ v hpc hmirrors => .pure hpc hmirrors ⟨fun _ => rfl, .refl _ _⟩
  | cons stmt rest =>
      simp only [Stmt.emitBlock, laid_append, List.all_append, Bool.and_eq_true] at hlaid hplain ⊢
      rw [width_append, ← Nat.add_assoc]
      have hfirst := Stmt.emit_executes hL fuel loop stmt k hlaid.1 hplain.1
      have hrest := Stmt.emitBlock_executes hL fuel loop rest _ hlaid.2 hplain.2
      intro σ v hpc hmirrors
      refine .bind (hfirst hpc hmirrors) ?_
      rintro flow σ' v' hpc' hmirrors' ⟨hflow, hsame⟩
      cases flow with
      | next =>
          refine .mono (hrest hpc' hmirrors') fun _ _ _ hpost => ⟨rfl, hpost.1, ?_⟩
          exact hsame.trans (hpost.2.mono (stmt.temporaries_le loop k))
      | leave => exact .pure hpc' hmirrors' ⟨hflow, hsame⟩
      | again => exact .pure hpc' hmirrors' ⟨hflow, hsame⟩

theorem Stmt.emitArms_executes (hL : L.Placed) (fuel : Nat) (loop : Option LoopPlaces) (n : Nat)
    (fallback : Place) (i : Nat) (arms : List (Expr × List Stmt)) (k : Counters) {p d : Nat}
    (hlaid : Laid L.code p (Stmt.emitArms (Cell.var none) loop n fallback i arms k).marks)
    (hplain : (Stmt.emitArms (Cell.var none) loop n fallback i arms k).marks.all isLocal = true)
    (hfallback : L.place fallback =
      p + width (Stmt.emitArms (Cell.var none) loop n fallback i arms k).marks)
    (hdone : L.place (.point .choice n "_end") = d) (hnop : OrderAt L.code d .nop .none)
    {otherwise : Eval Flow}
    (hotherwise : Executes L loop
      (Stmt.emitArms (Cell.var none) loop n fallback i arms k).counters.temporaries
      (L.place fallback) (d + 1) otherwise) :
    Executes L loop k.temporaries p (d + 1) (Stmt.execArms fuel otherwise arms) := by
  cases arms with
  | nil =>
      rw [hfallback] at hotherwise
      exact hotherwise
  | cons arm rest =>
      obtain ⟨condition, body⟩ := arm
      have hparts := hlaid
      simp only [Stmt.emitArms, emitBranchIfFalse, laid_append, width_append, width_anchor,
        ← Nat.add_assoc] at hparts hfallback
      simp only [Stmt.emitArms, emitBranchIfFalse, List.all_append, Bool.and_eq_true] at hplain
      have hx := condition.emit_computes hL k hparts.1.1.1.2.1 hplain.1.1.1.2.1
      have hbody := Stmt.emitBlock_executes hL fuel loop body _ hparts.1.1.2 hplain.1.1.2
      have hrest := Stmt.emitArms_executes hL fuel loop n fallback (i + 1) rest _ hparts.2 hplain.2
        hfallback hdone hnop hotherwise
      have hle := condition.temporaries_le (Cell.var none) k
      have hle' := Stmt.temporaries_le_block body loop
        (condition.emit (Cell.var none) k).counters
      refine arm_executes hx (hbody.mono hle) hlaid hdone hnop ?_
      rw [Stmt.place_next hL hparts.2 hfallback]
      exact hrest.mono (hle.trans hle')

end

end LittleMan
