import LittleMan.Proofs.Blueprint.Expressions

/-!
# The marks of statements

Loops are numbered, and the table of loops around a statement is known here by the
innermost loop only, since that is the one that `break` and `continue` mean.
-/

namespace LittleMan

/-- The labels that the table of loops keeps for a loop. -/
def LoopPlaces.labels (loop : LoopPlaces) : LoopLabels where
  label := Family.loop.stem ++ toString loop.n
  continueTarget := loop.next.label

/-- `loop` is the innermost loop. -/
structure Around.Within (γ : Around) (loop : Option LoopPlaces) : Prop where
  starts : γ.Starts
  innermost : γ.loops.innermost = loop.map LoopPlaces.labels

/-- The surroundings of the body of a loop. -/
def Around.entering (γ : Around) (loop : LoopPlaces) : Around :=
  { γ with loops := γ.loops.enter loop.labels.label loop.labels.continueTarget }

theorem Around.Within.entering {γ : Around} {loop : Option LoopPlaces} (h : γ.Within loop)
    (inner : LoopPlaces) : (γ.entering inner).Within (some inner) where
  starts := h.starts
  innermost := rfl

namespace Lowering

variable {γ : Around} {vars : String → Cell} {k k' : Counters} {known : List Cell}
  {loop : Option LoopPlaces} {assigned : List String} {marks : List Mark}

theorem branchIfFalse_emits (hstarts : γ.Starts) {condition : Expr} (hnamed : condition.Named) (l : Place) :
    Emits γ vars k known (branchIfFalse condition l.label) []
      (emitBranchIfFalse (condition.emit vars k) l)
      (Leaves (condition.emit vars k).counters known) := by
  refine (expression_emits hstarts condition hnamed k known).bind ?_
  rintro _ _ _ ⟨rfl, rfl, rfl⟩
  simp only [opTo_label, opTo_place, lay_bind_lay]
  exact .layLast rfl (by simp) rfl (by simp)

theorem cells_giveBack (value address : Cell) :
    Mark.cells [.giveBack value address] = [address, value, address] := rfl

theorem returnFrom_emits (hfunction : γ.inFunction = true) {value : Cell} (hvalue : value ∈ known) :
    Emits γ vars k known (returnFrom value.label) [] [emitReturn value k.temporaries]
      (Leaves (k.taking 1) known) := by
  refine temporary_emits.ask ?_
  rintro _ _ _ ⟨rfl, rfl, rfl⟩
  show Emits γ vars (k.taking 1) _ (lay [emitReturn value k.temporaries]) [] _ _
  refine Emits.forget (Emits.write (fun hshows => hshows.lay _) ?_ ?_) (by simp)
  · simp [emitReturn, cells_giveBack, hvalue]
  · intro m hm
    obtain rfl := List.mem_singleton.1 hm
    exact hfunction

theorem insideLoop_emits (inner : LoopPlaces) {body : Lowering Unit}
    {Q : Unit → Counters → List Cell → Prop}
    (hbody : Emits (γ.entering inner) vars k known body assigned marks Q) :
    Emits γ vars k known (insideLoop inner.labels.label inner.labels.continueTarget body)
      assigned marks Q := by
  intro d r t a d' hfollows haround hmeets hok
  subst haround
  obtain ⟨_, d₁, henter, hrest⟩ := bind_eq_ok.1 hok
  obtain ⟨_, d₂, hbodyOk, hleave⟩ := bind_eq_ok.1 hrest
  obtain ⟨-, rfl⟩ := Prod.mk.inj (Except.ok.inj henter)
  obtain ⟨-, rfl⟩ := Prod.mk.inj (Except.ok.inj hleave)
  have hfollowsIn : Draft.Follows
      { d with loops := d.loops.enter inner.labels.label inner.labels.continueTarget } r t :=
    ⟨hfollows.scopes, hfollows.sheet, hfollows.sound, hfollows.scope⟩
  obtain ⟨r', k', known', hfollows', haround', hmeets', hgrows, hcells, hallows, hQ⟩ :=
    hbody hfollowsIn rfl hmeets hbodyOk
  refine ⟨r', k', known', ⟨hfollows'.scopes, hfollows'.sheet, hfollows'.sound,
    hfollows'.scope⟩, ?_, hmeets', hgrows, hcells, hallows, hQ⟩
  have hloops := congrArg Around.loops haround'
  have hscope := congrArg Around.scope haround'
  have hroutines := congrArg Around.routines haround'
  have hfunction := congrArg Around.inFunction haround'
  simp only [Draft.around, Around.entering] at hloops hscope hroutines hfunction ⊢
  rw [hloops, hscope, hroutines, hfunction]
  rfl

theorem loopJump_emits (hwithin : γ.Within loop) (keyword : String) {place : LoopLabels → String}
    {goal : LoopPlaces → Place} (hplace : ∀ inner : LoopPlaces, place inner.labels = (goal inner).label) :
    Emits γ vars k known (loopJump keyword place) []
      (loop.elim [.refused] fun inner => [.jump .bra (goal inner)]) (Leaves k known) := by
  intro d r t a d' hfollows haround hmeets hok
  subst haround
  have hinnermost : d.loops.innermost = loop.map LoopPlaces.labels := hwithin.innermost
  have hunfold : loopJump keyword place d =
      (d.loops.innermost.elim (refuse (.outsideLoop keyword)) fun inner =>
        opTo .bra (place inner)) d := by
    cases hloop : d.loops.innermost <;>
      simp [loopJump, bind, StateT.bind, get, getThe, MonadStateOf.get, StateT.get, pure,
        Except.pure, Except.bind, hloop]
  rw [hunfold, hinnermost] at hok
  cases loop with
  | none => cases hok
  | some inner =>
      rw [Option.map_some, Option.elim_some, hplace] at hok
      exact Emits.lay (by simp) rfl hfollows rfl hmeets hok

theorem assign_emits (hstarts : γ.Starts) {name : String} (hname : Text.IsName name)
    {value : Expr} (hnamed : value.Named) :
    Emits γ vars k known (assign name value) [name]
      ((value.emit vars k).marks ++ Mark.copy (value.emit vars k).result (vars name))
      (Leaves (value.emit vars k).counters known) := by
  refine .note (by simpa using hname.not_newline) ((expression_emits hstarts value hnamed k known).bind ?_)
  rintro _ _ _ ⟨rfl, rfl, rfl⟩
  refine .congr ((target_emits name).bind ?_) (List.append_nil _).symm (List.nil_append _).symm
  rintro _ _ _ ⟨rfl, rfl, rfl⟩
  rw [copy_label]
  exact .layLast rfl (by simp) rfl fun c hc => by simp [hc]

theorem whileLoop_emits (hstarts : γ.Starts) {condition : Expr} (hnamed : condition.Named)
    {body : Lowering Unit}
    {x : Emitted Cell} (hx : condition.emit vars { k with loops := k.loops + 1 } = x)
    (hbody : ∀ known, Emits (γ.entering ⟨k.loops, "_start"⟩) vars x.counters known body assigned
      marks (Leaves k' known)) :
    Emits γ vars k known (whileLoop condition body) assigned
      (Mark.anchor (.point .loop k.loops "_start") ++
        emitBranchIfFalse x (.point .loop k.loops "_end") ++ marks ++
        [.jump .bra (.point .loop k.loops "_start")] ++ Mark.anchor (.point .loop k.loops "_end"))
      (Leaves k' known) := by
  subst hx
  unfold whileLoop
  refine loopLabel_emits.ask ?_
  rintro _ _ _ ⟨rfl, rfl, rfl⟩
  refine .note (by simpa [Family.stem] using not_newline_toString k.loops) ?_
  simp only [anchor_point, opTo_point, lay_bind_lay]
  apply Emits.congr
  · apply Emits.layThen (by simp) rfl
    apply (branchIfFalse_emits hstarts hnamed (.point .loop k.loops "_end")).bind
    rintro _ _ _ ⟨rfl, rfl⟩
    exact (insideLoop_emits ⟨k.loops, "_start"⟩ (hbody known)).thenLay (by simp) rfl (by simp)
  · simp
  · simp

theorem untilLoop_emits (hstarts : γ.Starts) {condition : Expr} (hnamed : condition.Named)
    {body : Lowering Unit}
    {x : Emitted Cell} (hx : condition.emit vars k' = x)
    (hbody : ∀ known, Emits (γ.entering ⟨k.loops, "_cond"⟩) vars
      { k with loops := k.loops + 1 } known body assigned marks (Leaves k' known)) :
    Emits γ vars k known (untilLoop body condition) assigned
      (Mark.anchor (.point .loop k.loops "_start") ++ marks ++
        Mark.anchor (.point .loop k.loops "_cond") ++
        emitBranchIfFalse x (.point .loop k.loops "_start") ++
        Mark.anchor (.point .loop k.loops "_end"))
      (Leaves x.counters known) := by
  subst hx
  unfold untilLoop
  refine loopLabel_emits.ask ?_
  rintro _ _ _ ⟨rfl, rfl, rfl⟩
  refine .note (by simpa [Family.stem] using not_newline_toString k.loops) ?_
  simp only [anchor_point]
  apply Emits.congr
  · apply Emits.layThen (by simp) rfl
    apply (insideLoop_emits ⟨k.loops, "_cond"⟩ (hbody known)).bind
    rintro _ _ _ ⟨rfl, rfl⟩
    apply Emits.layThen (by simp) rfl
    exact (branchIfFalse_emits hstarts hnamed (.point .loop k.loops "_start")).thenLay
      (by simp) rfl (by simp)
  · simp
  · simp

theorem forLoop_emits (hstarts : γ.Starts) {var : String} (hvar : Text.IsName var)
    {first last : Expr} (hfirst : first.Named) (hlast : last.Named) {body : Lowering Unit} {x y : Emitted Cell}
    (hx : first.emit vars { k with loops := k.loops + 1 } = x)
    (hy : last.emit vars x.counters = y)
    (hbody : ∀ known, Emits (γ.entering ⟨k.loops, "_step"⟩) vars (y.counters.taking 1) known body
      assigned marks (Leaves k' known)) :
    Emits γ vars k known (forLoop var first last body) (var :: assigned)
      (x.marks ++ Mark.copy x.result (vars var) ++ y.marks ++
        Mark.copy y.result (.temporary y.counters.temporaries) ++
        Mark.anchor (.point .loop k.loops "_start") ++ marks ++
        emitCount (vars var) y.counters.temporaries k.loops)
      (Leaves k' known) := by
  subst hx hy
  unfold forLoop
  refine loopLabel_emits.ask ?_
  rintro _ _ _ ⟨rfl, rfl, rfl⟩
  refine .note ?_ ?_
  · simpa [Family.stem] using And.intro hvar.not_newline (not_newline_toString k.loops)
  apply Emits.congr
  · apply (expression_emits hstarts first hfirst _ known).bind
    rintro _ _ _ ⟨rfl, rfl, rfl⟩
    apply (target_emits var).bind
    rintro _ _ _ ⟨rfl, rfl, rfl⟩
    rw [copy_label]
    apply Emits.layThen (by simp) rfl
    apply (expression_emits hstarts last hlast _ _).bind
    rintro _ _ _ ⟨rfl, rfl, rfl⟩
    apply temporary_emits.ask
    rintro _ _ _ ⟨rfl, rfl, rfl⟩
    simp only [copy_label, anchor_point, lay_bind_lay_bind]
    apply Emits.layThen (by simp) rfl
    apply (insideLoop_emits ⟨k.loops, "_step"⟩ (hbody _)).bind
    rintro _ _ _ ⟨rfl, rfl⟩
    apply (literal_emits 1).ask
    rintro _ _ _ ⟨rfl, rfl, rfl⟩
    simp only [opTo_label, label_point, opTo_point, binary_add, lay_bind_lay]
    exact .layLast rfl (by simp) rfl fun c hc => by simp [hc]
  · simp
  · simp [emitCount]

/-- A return, which the lowering refuses outside functions. -/
theorem giveBack_emits (hstarts : γ.Starts) {value : Option Expr}
    (hnamed : (Stmt.giveBack value).Named) :
    Emits γ vars k known (statement (.giveBack value)) [] (Stmt.emit vars loop (.giveBack value) k).marks
      (Leaves (Stmt.emit vars loop (.giveBack value) k).counters known) := by
  intro d r t a d' hfollows haround hmeets hok
  change (if d.inFunction = true then returnValue value
    else refuse .returnOutsideFunction) d = _ at hok
  by_cases hfunction : d.inFunction = true
  case neg => simp [hfunction, refuse] at hok
  rw [if_pos hfunction] at hok
  have hinside : γ.inFunction = true := by
    rw [← haround]
    exact hfunction
  refine (?_ : Emits γ vars k known (returnValue value) [] _ _) hfollows haround hmeets hok
  cases value with
  | some value =>
      refine (expression_emits hstarts value hnamed k known).bind ?_
      rintro _ _ _ ⟨rfl, rfl, rfl⟩
      exact (returnFrom_emits hinside (by simp)).forget (by simp)
  | none =>
      refine (literal_emits 0).ask ?_
      rintro _ _ _ ⟨rfl, rfl, rfl⟩
      exact (returnFrom_emits hinside (by simp)).forget (by simp)

mutual

theorem statement_emits {γ : Around} {loop : Option LoopPlaces}
    (hwithin : γ.Within loop) (stmt : Stmt) (hnamed : stmt.Named)
    (k : Counters) (known : List Cell) :
    Emits γ vars k known (statement stmt) stmt.assigned (Stmt.emit vars loop stmt k).marks
      (Leaves (Stmt.emit vars loop stmt k).counters known) := by
  have hstarts := hwithin.starts
  match stmt, hnamed with
  | .assign name value, hnamed => exact assign_emits hstarts hnamed.1 hnamed.2
  | .choose arms (some body), hnamed =>
      refine ifLabel_emits.ask ?_
      rintro _ _ _ ⟨rfl, rfl, rfl⟩
      refine .note (by simpa [Family.stem] using not_newline_toString k.ifs) ?_
      simp only [anchor_point]
      apply Emits.congr
      · apply (choices_emits hwithin k.ifs 0 (.point .choice k.ifs "_else") arms hnamed.1 _ _).bind
        rintro _ _ _ ⟨rfl, rfl⟩
        apply Emits.layThen (by simp) rfl
        exact (block_emits hwithin body hnamed.2 _ known).thenLay (by simp) rfl (by simp)
      · rfl
      · simp [Stmt.emit]
  | .choose arms none, hnamed =>
      refine ifLabel_emits.ask ?_
      rintro _ _ _ ⟨rfl, rfl, rfl⟩
      refine .note (by simpa [Family.stem] using not_newline_toString k.ifs) ?_
      simp only [anchor_point]
      exact .congr ((choices_emits hwithin k.ifs 0 (.point .choice k.ifs "_end") arms hnamed.1
        _ _).thenLay (by simp) rfl (by simp)) (List.append_nil _) rfl
  | .whileLoop condition body, hnamed =>
      exact whileLoop_emits hstarts hnamed.1 rfl fun known =>
        block_emits (hwithin.entering _) body hnamed.2 _ known
  | .untilLoop body condition, hnamed =>
      exact untilLoop_emits hstarts hnamed.2 rfl fun known =>
        block_emits (hwithin.entering _) body hnamed.1 _ known
  | .forLoop var first last body closing, hnamed =>
      unfold statement Stmt.emit
      by_cases hsame : var = closing
      · simp only [if_pos hsame]
        exact forLoop_emits hstarts hnamed.1 hnamed.2.1 hnamed.2.2.1 rfl rfl fun known =>
          block_emits (hwithin.entering _) body hnamed.2.2.2 _ known
      · simp only [if_neg hsame]
        exact .refuse _
  | .switch .., _ => exact .refuse _
  | .function .., _ => exact .refuse _
  | .giveBack value, hnamed => exact giveBack_emits hstarts hnamed
  | .leaveLoop, _ => exact loopJump_emits hwithin _ fun _ => rfl
  | .nextPass, _ => exact loopJump_emits hwithin _ fun _ => rfl
  | .evaluate value, hnamed =>
      refine .congr ((expression_emits hstarts value hnamed k known).bind ?_) rfl
        (List.append_nil _).symm
      rintro _ _ _ ⟨rfl, rfl, rfl⟩
      refine (Emits.pure (Q := Leaves _ _) ⟨rfl, rfl⟩).forget (by simp)

theorem block_emits {γ : Around} {loop : Option LoopPlaces}
    (hwithin : γ.Within loop) (block : List Stmt) (hnamed : Stmt.AllNamed block)
    (k : Counters) (known : List Cell) :
    Emits γ vars k known (Lowering.block block) (Stmt.assignedInBlock block)
      (Stmt.emitBlock vars loop block k).marks
      (Leaves (Stmt.emitBlock vars loop block k).counters known) := by
  match block, hnamed with
  | [], _ => exact .pure ⟨rfl, rfl⟩
  | stmt :: rest, hnamed =>
      refine (statement_emits hwithin stmt hnamed.1 k known).bind ?_
      rintro _ _ _ ⟨rfl, rfl⟩
      exact block_emits hwithin rest hnamed.2 _ known

theorem choices_emits {γ : Around} {loop : Option LoopPlaces}
    (hwithin : γ.Within loop) (n i : Nat) (fallback : Place)
    (arms : List (Expr × List Stmt)) (hnamed : Stmt.ArmsNamed arms)
    (k : Counters) (known : List Cell) :
    Emits γ vars k known
      (choices (Family.choice.stem ++ toString n) (Place.point .choice n "_end").label
        fallback.label i arms)
      (Stmt.assignedInArms arms) (Stmt.emitArms vars loop n fallback i arms k).marks
      (Leaves (Stmt.emitArms vars loop n fallback i arms k).counters known) := by
  match arms, hnamed with
  | [], _ => exact .pure ⟨rfl, rfl⟩
  | (condition, body) :: rest, hnamed =>
      have hnext : (if rest.isEmpty then fallback.label
          else Family.choice.stem ++ toString n ++ "_" ++ toString (i + 1)) =
          (if rest.isEmpty then fallback
            else Place.point .choice n ("_" ++ toString (i + 1))).label := by
        cases rest.isEmpty
        · exact String.append_assoc
        · rfl
      unfold choices
      rw [hnext, String.append_assoc, anchor_point]
      apply Emits.congr
      · apply Emits.layThen (by simp) rfl
        apply (branchIfFalse_emits hwithin.starts hnamed.1 _).bind
        rintro _ _ _ ⟨rfl, rfl⟩
        apply (block_emits hwithin body hnamed.2.1 _ known).bind
        rintro _ _ _ ⟨rfl, rfl⟩
        rw [opTo_place]
        apply Emits.layThen (by simp) rfl
        exact choices_emits hwithin n (i + 1) fallback rest hnamed.2.2 _ known
      · rfl
      · simp [Stmt.emitArms]

end

end Lowering
end LittleMan
