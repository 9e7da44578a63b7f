import LittleMan.Proofs.Blueprint.Lowering

/-!
# The marks of operators and expressions

Every lowering of a construct emits the marks that the construct stands for.  The
proofs follow the `do` blocks; for expressions they are inductions over the syntax.
-/

namespace LittleMan

namespace Mark

section Cells

variable {l m : Cell} {n : Nat} {known : List Cell} (hl : l ∈ known) (hm : m ∈ known)
  (hzero : .literal 0 ∈ known) (hone : .literal 1 ∈ known) (hn : .temporary n ∈ known)

include hzero hone hn

theorem cells_select {branch : Opcode} {whenTaken : Bool} :
    cells (select n branch whenTaken) ⊆ known := by
  cases whenTaken <;> simp [select, Word.ofBool, *]

include hl hm

theorem cells_multiply {addend counter : Nat} (haddend : .temporary addend ∈ known)
    (hcounter : .temporary counter ∈ known) : cells (multiply l m n addend counter) ⊆ known := by
  simp [multiply, *]

theorem cells_floorDivMod {remainder base : Nat} {w : DivisionCells}
    (hremainder : .temporary remainder ∈ known) (hdividend : .temporary w.dividend ∈ known)
    (hdivisor : .temporary w.divisor ∈ known) (hleft : .temporary w.leftNegative ∈ known)
    (hright : .temporary w.rightNegative ∈ known) :
    cells (floorDivMod l m n remainder w base) ⊆ known := by
  simp [floorDivMod, divisionOperands, divisionLoop, divisionSigns, magnitude, *]

end Cells
end Mark

namespace Lowering

variable {γ : Around} {vars : String → Cell} {k k' : Counters} {known : List Cell}

/-! ## Operators -/

/-- A lowering writes to a known cell, whose label is given back. -/
theorem Emits.thenReturn {x : Lowering Unit} {c : Cell} {assigned : List String}
    {marks : List Mark} (hx : Emits γ vars k (c :: known) x assigned marks (Leaves k' (c :: known))) :
    Emits γ vars k (c :: known) (x >>= fun _ => Pure.pure c.label) assigned marks
      (Yields c k' known) := by
  refine .congr (hx.bind ?_) (List.append_nil _).symm (List.append_nil _).symm
  rintro _ _ _ ⟨rfl, rfl⟩
  exact .pure ⟨rfl, rfl, rfl⟩

/-- The label of a known cell is given back, and other cells are forgotten. -/
theorem Emits.give {c : Cell} {known' : List Cell} (hc : c ∈ known) (hknown : known' ⊆ known) :
    Emits γ vars k known (Pure.pure c.label : Lowering String) [] [] (Yields c k known') := by
  refine (Emits.pure (Q := fun a k' known' => a = c.label ∧ k = k' ∧ known = known')
    ⟨rfl, rfl, rfl⟩).mono ?_
  rintro _ _ _ ⟨rfl, rfl, rfl⟩
  exact ⟨_, List.cons_subset.2 ⟨hc, hknown⟩, rfl, rfl, rfl⟩

theorem Emits.forgetCells {x : Lowering String} {c : Cell} {assigned : List String}
    {marks : List Mark} {known known' all : List Cell}
    (hx : Emits γ vars k all x assigned marks (Yields c k' known)) (hknown : known' ⊆ known) :
    Emits γ vars k all x assigned marks (Yields c k' known') := by
  refine hx.mono ?_
  rintro _ _ _ ⟨rfl, rfl, rfl⟩
  exact ⟨_, List.cons_subset_cons c hknown, rfl, rfl, rfl⟩

theorem select_emits {n : Nat} (hn : .temporary n ∈ known) (branch : Opcode)
    (whenTaken : Bool) :
    Emits γ vars k known (select (Cell.temporary n).label branch whenTaken) []
      (Mark.select n branch whenTaken) (Leaves k known) := by
  unfold select
  refine (literal_emits 1).ask ?_
  rintro _ _ _ ⟨rfl, rfl, rfl⟩
  refine (literal_emits 0).ask ?_
  rintro _ _ _ ⟨rfl, rfl, rfl⟩
  cases whenTaken <;>
    simp only [opTo_label, opTo_spot, label_spot, lay_bind_lay, if_true, if_false,
      Bool.false_eq_true] <;>
    refine .layLast rfl (Mark.cells_select ?_ ?_ ?_) rfl ?_ <;>
    simp [hn]

theorem compare_emits {a b : Cell} {n : Nat} (ha : a ∈ known) (hb : b ∈ known)
    (hn : .temporary n ∈ known) (branch : Opcode) (whenTaken : Bool) :
    Emits γ vars k known (compare a.label b.label (Cell.temporary n).label branch whenTaken) []
      (Mark.compare a b n branch whenTaken) (Leaves k known) := by
  unfold compare
  simp only [opTo_label, lay_bind_lay_bind]
  exact .layThen (by simp [ha, hb]) rfl (select_emits hn branch whenTaken)

theorem multiply_emits {l m : Cell} {n : Nat} (hl : l ∈ known) (hm : m ∈ known)
    (hn : .temporary n ∈ known) :
    Emits γ vars k known (multiply l.label m.label (Cell.temporary n).label) []
      (Mark.multiply l m n k.temporaries (k.temporaries + 1)) (Leaves (k.taking 2) known) := by
  unfold multiply
  refine (literal_emits 0).ask ?_
  rintro _ _ _ ⟨rfl, rfl, rfl⟩
  refine (literal_emits 1).ask ?_
  rintro _ _ _ ⟨rfl, rfl, rfl⟩
  refine temporary_emits.ask ?_
  rintro _ _ _ ⟨rfl, rfl, rfl⟩
  refine temporary_emits.ask ?_
  rintro _ _ _ ⟨rfl, rfl, rfl⟩
  simp only [copy_label, opTo_label, opTo_spot, label_spot, binary_add, binary_sub, anchor_spot,
    lay_bind_lay]
  refine .layLast ?_ (Mark.cells_multiply ?_ ?_ ?_ ?_ ?_ ?_ ?_) rfl ?_
  · simp [Mark.multiply, Counters.taking]
  all_goals simp [*, Counters.taking]
  exact fun c hc => by simp [hc]

theorem floorDivMod_emits {l m : Cell} {n remainder base : Nat} (hl : l ∈ known) (hm : m ∈ known)
    (hn : .temporary n ∈ known) (hremainder : .temporary remainder ∈ known) :
    Emits γ vars k known (floorDivMod l.label m.label (Cell.temporary n).label
      (Cell.temporary remainder).label (Cell.temporary base).label) []
      (Mark.floorDivMod l m n remainder (.startingAt k.temporaries) base)
      (Leaves (k.taking 4) known) := by
  unfold floorDivMod
  refine (literal_emits 0).ask ?_
  rintro _ _ _ ⟨rfl, rfl, rfl⟩
  refine (literal_emits 1).ask ?_
  rintro _ _ _ ⟨rfl, rfl, rfl⟩
  refine temporary_emits.ask ?_
  rintro _ _ _ ⟨rfl, rfl, rfl⟩
  refine temporary_emits.ask ?_
  rintro _ _ _ ⟨rfl, rfl, rfl⟩
  refine temporary_emits.ask ?_
  rintro _ _ _ ⟨rfl, rfl, rfl⟩
  refine temporary_emits.ask ?_
  rintro _ _ _ ⟨rfl, rfl, rfl⟩
  simp only [copy_label, opTo_label, opTo_spot, label_spot, binary_add, binary_sub, anchor_spot,
    lay_bind_lay]
  refine .layLast ?_ (Mark.cells_floorDivMod ?_ ?_ ?_ ?_ ?_ ?_ ?_ ?_ ?_ ?_) rfl ?_
  · simp [Mark.floorDivMod, Mark.divisionOperands, Mark.divisionLoop, Mark.divisionSigns,
      Mark.magnitude, Mark.DivisionCells.startingAt, Counters.taking]
  all_goals simp [*, Counters.taking, Mark.DivisionCells.startingAt]
  exact fun c hc => by simp [hc]

theorem power_emits {l m : Cell} {n : Nat} (hl : l ∈ known) (hm : m ∈ known)
    (hn : .temporary n ∈ known) :
    Emits γ vars k known (power l.label m.label (Cell.temporary n).label) []
      (Mark.power l m n k.temporaries (k.temporaries + 1) (k.temporaries + 2)
        (k.temporaries + 3)) (Leaves (k.taking 4) known) := by
  unfold power
  refine (literal_emits 1).ask ?_
  rintro _ _ _ ⟨rfl, rfl, rfl⟩
  refine temporary_emits.ask ?_
  rintro _ _ _ ⟨rfl, rfl, rfl⟩
  refine temporary_emits.ask ?_
  rintro _ _ _ ⟨rfl, rfl, rfl⟩
  simp only [copy_label, opTo_label, opTo_spot, label_spot, binary_sub, anchor_spot,
    lay_bind_lay, lay_bind_lay_bind]
  refine .congr (.layThen ?_ rfl ((multiply_emits ?_ ?_ ?_).thenLay ?_ rfl ?_)) rfl ?_
  rotate_right
  · simp [Mark.power, Counters.taking]
  all_goals simp [*, Counters.taking]
  exact fun c hc => by simp [hc]

theorem divide_emits {l m : Cell} {n : Nat} (hl : l ∈ known) (hm : m ∈ known)
    (hn : .temporary n ∈ known) :
    Emits γ vars k known (divide l.label m.label (Cell.temporary n).label) []
      (Mark.floorDivMod l m n k.temporaries (.startingAt (k.temporaries + 1)) n)
      (Leaves (k.taking 5) known) := by
  refine temporary_emits.ask ?_
  rintro _ _ _ ⟨rfl, rfl, rfl⟩
  exact (floorDivMod_emits (by simp [hl]) (by simp [hm]) (by simp [hn]) (by simp)).forget (by simp)

theorem modulo_emits {l m : Cell} {n : Nat} (hl : l ∈ known) (hm : m ∈ known)
    (hn : .temporary n ∈ known) :
    Emits γ vars k known (modulo l.label m.label (Cell.temporary n).label) []
      (Mark.floorDivMod l m k.temporaries n (.startingAt (k.temporaries + 1)) n)
      (Leaves (k.taking 5) known) := by
  refine temporary_emits.ask ?_
  rintro _ _ _ ⟨rfl, rfl, rfl⟩
  exact (floorDivMod_emits (by simp [hl]) (by simp [hm]) (by simp) (by simp [hn])).forget (by simp)

/-- An operator on two known cells. -/
theorem combine_emits (op : BinaryOp) {l m : Cell} (hl : l ∈ known) (hm : m ∈ known) :
    Emits γ vars k known (combine op l.label m.label) []
      (Mark.combine op l m k.temporaries)
      (Yields (.temporary k.temporaries) (k.taking (Mark.temporariesOf op)) known) := by
  unfold combine
  refine temporary_emits.ask ?_
  rintro _ _ _ ⟨rfl, rfl, rfl⟩
  have hl' : l ∈ Cell.temporary k.temporaries :: known := List.mem_cons_of_mem _ hl
  have hm' : m ∈ Cell.temporary k.temporaries :: known := List.mem_cons_of_mem _ hm
  have hresult : Cell.temporary k.temporaries ∈ Cell.temporary k.temporaries :: known :=
    List.mem_cons_self
  cases op with
  | add => exact (binary_add l m _ ▸ Emits.lay (by simp [*]) rfl).thenReturn
  | sub => exact (binary_sub l m _ ▸ Emits.lay (by simp [*]) rfl).thenReturn
  | mul => exact (multiply_emits hl' hm' hresult).thenReturn
  | div => exact (divide_emits hl' hm' hresult).thenReturn
  | mod => exact (modulo_emits hl' hm' hresult).thenReturn
  | pow => exact (power_emits hl' hm' hresult).thenReturn
  | lt => exact (compare_emits hl' hm' hresult .brp false).thenReturn
  | gt => exact (compare_emits hm' hl' hresult .brp false).thenReturn
  | ltEq => exact (compare_emits hm' hl' hresult .brp true).thenReturn
  | gtEq => exact (compare_emits hl' hm' hresult .brp true).thenReturn
  | eq => exact (compare_emits hm' hl' hresult .brz true).thenReturn
  | notEq => exact (compare_emits hl' hm' hresult .brz false).thenReturn
  | and => exact (Emits.refuse _).thenReturn
  | or => exact (Emits.refuse _).thenReturn

section Operands

variable {left right operand : Lowering String} {l r x : Emitted Cell}

theorem conjunction_emits
    (hleft : ∀ known, Emits γ vars (k.taking 1) known left [] l.marks
      (Yields l.result l.counters known))
    (hright : ∀ known, Emits γ vars l.counters known right [] r.marks
      (Yields r.result r.counters known)) :
    Emits γ vars k known (conjunction left right) []
      (emitConjunction k.temporaries l r).marks
      (Yields (.temporary k.temporaries) r.counters known) := by
  unfold conjunction
  refine temporary_emits.ask ?_
  rintro _ _ _ ⟨rfl, rfl, rfl⟩
  refine (literal_emits 1).ask ?_
  rintro _ _ _ ⟨rfl, rfl, rfl⟩
  refine (literal_emits 0).ask ?_
  rintro _ _ _ ⟨rfl, rfl, rfl⟩
  apply Emits.congr
  · apply (hleft _).bind
    rintro _ _ _ ⟨rfl, rfl, rfl⟩
    simp only [opTo_label, opTo_spot, label_spot, lay_bind_lay_bind]
    apply Emits.layThen (by simp) rfl
    apply (hright _).bind
    rintro _ _ _ ⟨rfl, rfl, rfl⟩
    simp only [opTo_label, lay_bind_lay_bind]
    apply Emits.layThen (by simp) rfl
    exact .give (by simp) fun c hc => by simp [hc]
  · rfl
  · simp [emitConjunction]

theorem disjunction_emits
    (hleft : ∀ known, Emits γ vars (k.taking 1) known left [] l.marks
      (Yields l.result l.counters known))
    (hright : ∀ known, Emits γ vars l.counters known right [] r.marks
      (Yields r.result r.counters known)) :
    Emits γ vars k known (disjunction left right) []
      (emitDisjunction k.temporaries l r).marks
      (Yields (.temporary k.temporaries) r.counters known) := by
  unfold disjunction
  refine temporary_emits.ask ?_
  rintro _ _ _ ⟨rfl, rfl, rfl⟩
  refine (literal_emits 1).ask ?_
  rintro _ _ _ ⟨rfl, rfl, rfl⟩
  refine (literal_emits 0).ask ?_
  rintro _ _ _ ⟨rfl, rfl, rfl⟩
  apply Emits.congr
  · apply (hleft _).bind
    rintro _ _ _ ⟨rfl, rfl, rfl⟩
    simp only [opTo_label, opTo_spot, label_spot, lay_bind_lay_bind]
    apply Emits.layThen (by simp) rfl
    apply (hright _).bind
    rintro _ _ _ ⟨rfl, rfl, rfl⟩
    simp only [opTo_label, lay_bind_lay_bind]
    apply Emits.layThen (by simp) rfl
    exact .give (by simp) fun c hc => by simp [hc]
  · rfl
  · simp [emitDisjunction]

theorem negative_emits
    (hoperand : ∀ known, Emits γ vars k known operand [] x.marks
      (Yields x.result x.counters known)) :
    Emits γ vars k known (negative operand) []
      (x.marks ++ Mark.difference (.literal 0) x.result (.temporary x.counters.temporaries))
      (Yields (.temporary x.counters.temporaries) (x.counters.taking 1) known) := by
  unfold negative
  refine (hoperand known).bind ?_
  rintro _ _ _ ⟨rfl, rfl, rfl⟩
  refine (literal_emits 0).ask ?_
  rintro _ _ _ ⟨rfl, rfl, rfl⟩
  refine temporary_emits.ask ?_
  rintro _ _ _ ⟨rfl, rfl, rfl⟩
  rw [binary_sub]
  refine .congr (.layThen (by simp) rfl (.give (by simp) ?_)) rfl (List.append_nil _).symm
  exact fun c hc => by simp [hc]

theorem negation_emits
    (hoperand : ∀ known, Emits γ vars k known operand [] x.marks
      (Yields x.result x.counters known)) :
    Emits γ vars k known (negation operand) []
      (x.marks ++ .lda x.result :: Mark.select x.counters.temporaries .brz true)
      (Yields (.temporary x.counters.temporaries) (x.counters.taking 1) known) := by
  unfold negation
  refine (hoperand known).bind ?_
  rintro _ _ _ ⟨rfl, rfl, rfl⟩
  refine temporary_emits.ask ?_
  rintro _ _ _ ⟨rfl, rfl, rfl⟩
  rw [opTo_label]
  refine .layThen (by simp) rfl (.congr ((select_emits (by simp) .brz true).bind ?_) rfl
    (List.append_nil _).symm)
  rintro _ _ _ ⟨rfl, rfl⟩
  exact .give (by simp) fun c hc => by simp [hc]

end Operands

/-! ## Expressions -/

theorem not_newline_toString (n : Nat) : '\n' ∉ (toString n).toList := by
  intro hmem
  have hmem' : '\n' ∈ Nat.toDigits 10 n := by simpa using hmem
  exact absurd (Nat.isDigit_of_mem_toDigits (by decide) (by decide) hmem') (by decide)

theorem putChar_emits (c : Char) :
    Emits γ vars k known (putChar c) [] (emitChar c) (Leaves k known) := by
  refine (literal_emits _).ask ?_
  rintro _ _ _ ⟨rfl, rfl, rfl⟩
  simp only [opTo_label, op_eq, lay_bind_lay]
  exact .layLast rfl (by simp [emitChar]) rfl (by simp)

theorem putChars_emits (text : List Char) :
    Emits γ vars k known (putChars text) [] (text.flatMap emitChar) (Leaves k known) := by
  induction text with
  | nil => exact .pure ⟨rfl, rfl⟩
  | cons c rest ih =>
      refine (putChar_emits c).bind ?_
      rintro _ _ _ ⟨rfl, rfl⟩
      exact ih

theorem assertion_emits {condition : Lowering String} {x : Emitted Cell}
    (hcondition : ∀ known, Emits γ vars { k with asserts := k.asserts + 1 } known condition []
      x.marks (Yields x.result x.counters known)) :
    Emits γ vars k known (assertion condition) [] (emitAssertion k.asserts x).marks
      (Yields (.literal 1) x.counters known) := by
  unfold assertion
  refine assertNumber_emits.ask ?_
  rintro _ _ _ ⟨rfl, rfl, rfl⟩
  refine .note (by simpa using not_newline_toString k.asserts) ?_
  refine .congr ((hcondition known).bind ?_) rfl (List.append_assoc _ _ _)
  rintro _ _ _ ⟨rfl, rfl, rfl⟩
  let fail : Place := .point .assertion k.asserts "_fail"
  let pass : Place := .point .assertion k.asserts "_ok"
  show Emits γ vars x.counters _ (lay [.lda x.result, .jump .brz fail, .jump .bra pass,
    .place fail, .bare .hlt, .place pass, .bare .nop] >>= fun _ => literal 1) _ _ _
  refine .congr (.layThen (by simp) rfl ((literal_emits 1).mono ?_)) rfl (List.append_nil _).symm
  rintro _ _ _ ⟨rfl, rfl, rfl⟩
  exact ⟨_, fun c hc => by aesop, rfl, rfl, rfl⟩

theorem pushArguments_eq (args : List Cell) :
    pushArguments (args.map Cell.label) = write fun sheet =>
      (Mark.pushes args).foldl Sheet.order sheet := by
  induction args with
  | nil => rfl
  | cons c rest ih =>
      simp only [List.map_cons, pushArguments, ih]
      rfl

theorem call_eq (callee : String) (args : List Cell) (n : Nat) :
    (do
      op .ldaPc
      opTo .add (Cell.literal (Mark.returnOffset args.length)).label
      op .psh
      pushArguments (args.map Cell.label)
      opTo .bra (Place.entry callee).label
      op .pop
      opTo .sta (Cell.temporary n).label
      return (Cell.temporary n).label) =
    lay [.call callee args (.temporary n)] >>= fun _ => pure (Cell.temporary n).label := by
  rw [pushArguments_eq]
  funext d
  show Except.ok _ = Except.ok _
  simp [Sheet.lay, Sheet.mark, Mark.orders, Sheet.order, Sheet.op, Sheet.opTo, Target.text?]

theorem cells_call (callee : String) (args : List Cell) (result : Cell) :
    Mark.cells [.call callee args result] =
      .literal (Mark.returnOffset args.length) :: (args ++ [result]) := by
  have hpushes : (Mark.pushes args).filterMap (fun o => o.2.cell?) = args := by
    induction args with
    | nil => rfl
    | cons c rest ih => simpa [Mark.pushes, List.filterMap_cons] using ih
  simp [Mark.cells, Mark.orders, List.filterMap_cons, hpushes]

theorem input_emits :
    Emits γ vars k known (input []) []
      [.bare .inp, .sta (.temporary k.temporaries)]
      (Yields (.temporary k.temporaries) (k.taking 1) known) := by
  refine temporary_emits.ask ?_
  rintro _ _ _ ⟨rfl, rfl, rfl⟩
  simp only [op_eq, opTo_label, lay_bind_lay_bind]
  exact .layThen (by simp) rfl (.give (by simp) (by simp))

/-- A call of a function of the program, after its arguments. -/
theorem userCall_emits {callee : String} (hcallee : Text.IsName callee) {args : Lowering (List String)}
    {x : Emitted (List Cell)}
    (hstart : ∀ routine, γ.routines.lookup callee = some routine →
      routine.start = (Place.entry callee).label)
    (hargs : ∀ known, Emits γ vars k known args [] x.marks fun labels k' known' =>
      labels = x.result.map Cell.label ∧ x.counters = k' ∧ x.result ++ known = known') :
    Emits γ vars k known (userCall callee x.result.length args) []
      (x.marks ++ [.call callee x.result (.temporary x.counters.temporaries)])
      (Yields (.temporary x.counters.temporaries) (x.counters.taking 1) known) := by
  refine routine_emits ?_
  intro routine hroutine
  rw [hstart routine hroutine]
  split
  case isFalse => exact .refuse _
  case isTrue hcount =>
    refine (hargs known).bind ?_
    rintro _ _ _ ⟨rfl, rfl, rfl⟩
    refine (literal_emits _).ask ?_
    rintro _ _ _ ⟨rfl, rfl, rfl⟩
    refine temporary_emits.ask ?_
    rintro _ _ _ ⟨rfl, rfl, rfl⟩
    refine .note (by simpa using hcallee.not_newline) ?_
    rw [← Mark.returnOffset, call_eq]
    refine .congr (Emits.bind (.write (fun hshows => hshows.lay _) ?_ ?_) ?_) rfl
      (List.append_nil _).symm
    · intro c hc
      rw [cells_call] at hc
      aesop
    · intro m hm
      obtain rfl := List.mem_singleton.1 hm
      exact ⟨routine, hroutine, hcount⟩
    · rintro _ _ _ ⟨rfl, rfl⟩
      exact .give (by simp) fun c hc => by simp [hc]

mutual

theorem expression_emits (hstarts : γ.Starts) (e : Expr) (hnamed : e.Named) (k : Counters) (known : List Cell) :
    Emits γ vars k known (expression e) [] (e.emit vars k).marks
      (Yields (e.emit vars k).result (e.emit vars k).counters known) := by
  cases e with
  | integer value => exact literal_emits value
  | bool value => exact literal_emits _
  | text content => exact .refuse _
  | name word => exact variableCell_emits word
  | group inner => exact expression_emits hstarts inner hnamed k known
  | unary op operand =>
      cases op with
      | neg => exact negative_emits (expression_emits hstarts operand hnamed k)
      | not => exact negation_emits (expression_emits hstarts operand hnamed k)
  | binary left op right =>
      have hplain : op ≠ .and → op ≠ .or →
          Emits γ vars k known (expression (.binary left op right)) []
            ((Expr.binary left op right).emit vars k).marks
            (Yields ((Expr.binary left op right).emit vars k).result
              ((Expr.binary left op right).emit vars k).counters known) := by
        intro hand hor
        rw [expression, Expr.emit]
        · refine .congr ((expression_emits hstarts left hnamed.1 k known).bind ?_) rfl (List.append_assoc _ _ _)
          rintro _ _ _ ⟨rfl, rfl, rfl⟩
          refine (expression_emits hstarts right hnamed.2 _ _).bind ?_
          rintro _ _ _ ⟨rfl, rfl, rfl⟩
          exact (combine_emits op (by simp) (by simp)).forgetCells fun c hc => by simp [hc]
        all_goals assumption
      by_cases hand : op = .and
      · subst hand
        exact conjunction_emits (expression_emits hstarts left hnamed.1 _) (expression_emits hstarts right hnamed.2 _)
      by_cases hor : op = .or
      · subst hor
        exact disjunction_emits (expression_emits hstarts left hnamed.1 _) (expression_emits hstarts right hnamed.2 _)
      exact hplain hand hor
  | call callee args =>
      unfold expression Expr.emit
      by_cases hprint : callee = "print"
      · simp only [hprint, if_true]
        refine .note (by decide) ((printed_emits hstarts args hnamed.2 k known).bind ?_)
        rintro _ _ _ ⟨rfl, rfl⟩
        cases leavesLineOpen args with
        | false => exact literal_emits 0
        | true =>
            refine .congr ((putChar_emits '\n').bind ?_) rfl (List.append_nil _).symm
            rintro _ _ _ ⟨rfl, rfl⟩
            exact literal_emits 0
      by_cases hinput : callee = "input"
      · simp only [hinput, if_true]
        match args with
        | [] => exact input_emits
        | _ :: _ => exact .refuse _
      by_cases hassert : callee = "assert"
      · simp only [hassert, if_true]
        match args with
        | [] => exact .refuse _
        | [condition] => exact assertion_emits (expression_emits hstarts condition hnamed.2.1 _)
        | _ :: _ :: _ => exact .refuse _
      · simp only [hprint, hinput, hassert, if_false]
        rw [← Expr.length_emitAll vars args k]
        exact userCall_emits hnamed.1 (hstarts callee) (expressions_emits hstarts args hnamed.2 k)

theorem expressions_emits (hstarts : γ.Starts) (es : List Expr) (hnamed : Expr.AllNamed es) (k : Counters) (known : List Cell) :
    Emits γ vars k known (expressions es) [] (Expr.emitAll vars es k).marks
      fun labels k' known' => labels = (Expr.emitAll vars es k).result.map Cell.label ∧
        (Expr.emitAll vars es k).counters = k' ∧
        (Expr.emitAll vars es k).result ++ known = known' := by
  cases es with
  | nil => exact .pure ⟨rfl, rfl, rfl⟩
  | cons e rest =>
      refine (expression_emits hstarts e hnamed.1 k known).bind ?_
      rintro _ _ _ ⟨rfl, rfl, rfl⟩
      refine .congr ((expressions_emits hstarts rest hnamed.2 _ _).bind ?_) rfl (List.append_nil _).symm
      rintro _ _ _ ⟨rfl, rfl, rfl⟩
      refine (Emits.pure (Q := fun a k' known' => a = _ ∧ _ = k' ∧ _ = known')
        ⟨rfl, rfl, rfl⟩).mono ?_
      rintro _ _ _ ⟨rfl, rfl, rfl⟩
      exact ⟨_, fun c hc => by simp [Expr.emitAll] at hc ⊢; tauto, rfl, rfl, rfl⟩

theorem printed_emits (hstarts : γ.Starts) (es : List Expr) (hnamed : Expr.AllNamed es) (k : Counters) (known : List Cell) :
    Emits γ vars k known (printed es) [] (Expr.emitPrinted vars es k).marks
      (Leaves (Expr.emitPrinted vars es k).counters known) := by
  cases es with
  | nil => exact .pure ⟨rfl, rfl⟩
  | cons e rest =>
      by_cases htext : ∃ content, e = .text content
      · obtain ⟨content, rfl⟩ := htext
        refine (putChars_emits content.toList).bind ?_
        rintro _ _ _ ⟨rfl, rfl⟩
        exact printed_emits hstarts rest hnamed.2 k known
      · have hother : ∀ content, e = .text content → False := fun content h => htext ⟨content, h⟩
        rw [printed, Expr.emitPrinted]
        · refine .congr ((expression_emits hstarts e hnamed.1 k known).bind ?_) rfl (List.append_assoc _ _ _)
          rintro _ _ _ ⟨rfl, rfl, rfl⟩
          simp only [opTo_label, op_eq, lay_bind_lay_bind]
          refine .layThen (by simp) rfl ?_
          exact (printed_emits hstarts rest hnamed.2 _ _).forget (by simp)
        all_goals assumption

end

end Lowering
end LittleMan
