import LittleMan.Proofs.Blueprint.Shape

/-!
# What code stores into and what it calls

The code of an expression stores into temporaries that are handed out on the way, and the
code of a statement into these and into the variables that the statement assigns to.  The
functions that are called are those that the tree calls.
-/

namespace LittleMan

/-! ## Calls -/

mutual

/-- The functions that an expression calls. -/
def Expr.callees : Expr → List String
  | .integer _ | .bool _ | .text _ | .name _ => []
  | .group inner => inner.callees
  | .unary _ operand => operand.callees
  | .binary left _ right => left.callees ++ right.callees
  | .call callee args => callee :: Expr.calleesAll args

def Expr.calleesAll : List Expr → List String
  | [] => []
  | e :: rest => e.callees ++ Expr.calleesAll rest

end

mutual

/-- The functions that a statement calls. -/
def Stmt.callees : Stmt → List String
  | .assign _ value => value.callees
  | .choose arms otherwise =>
      Stmt.calleesInArms arms ++
        match otherwise with
        | some body => Stmt.calleesInBlock body
        | none => []
  | .whileLoop condition body => condition.callees ++ Stmt.calleesInBlock body
  | .untilLoop body condition => Stmt.calleesInBlock body ++ condition.callees
  | .forLoop _ first last body _ => first.callees ++ last.callees ++ Stmt.calleesInBlock body
  | .switch subject cases otherwise =>
      subject.callees ++ Stmt.calleesInArms cases ++
        match otherwise with
        | some body => Stmt.calleesInBlock body
        | none => []
  | .giveBack (some value) => value.callees
  | .evaluate value => value.callees
  | .function .. | .giveBack none | .leaveLoop | .nextPass => []

def Stmt.calleesInBlock : List Stmt → List String
  | [] => []
  | stmt :: rest => stmt.callees ++ Stmt.calleesInBlock rest

def Stmt.calleesInArms : List (Expr × List Stmt) → List String
  | [] => []
  | (condition, body) :: rest =>
      condition.callees ++ Stmt.calleesInBlock body ++ Stmt.calleesInArms rest

end

namespace Mark

def callee? : Mark → Option String
  | .call callee _ _ => some callee
  | _ => none

/-- The functions that marks call. -/
def called (marks : List Mark) : List String :=
  marks.filterMap callee?

@[simp] theorem called_append (first second : List Mark) :
    called (first ++ second) = called first ++ called second := by
  simp [called]

theorem mem_called {marks : List Mark} {callee : String} {args : List Cell} {result : Cell}
    (h : .call callee args result ∈ marks) : callee ∈ called marks :=
  List.mem_filterMap.2 ⟨_, h, rfl⟩

/-! ## Cells that are stored into -/

/-- The cell that an order stores into. -/
def stored? : Opcode × Target → Option Cell
  | (.sta, .cell c) => some c
  | _ => none

/-- The cells that marks store into. -/
def stores (marks : List Mark) : List Cell :=
  (marks.flatMap orders).filterMap stored?

theorem stored?_eq_some {order : Opcode × Target} {c : Cell} :
    stored? order = some c ↔ order = (.sta, .cell c) := by
  unfold stored?
  split
  · simp
  · next hne => simpa using hne c

theorem mem_stores {marks : List Mark} {c : Cell} :
    c ∈ stores marks ↔ ∃ m ∈ marks, (.sta, .cell c) ∈ m.orders := by
  simp [stores, stored?_eq_some, List.mem_flatMap]

@[simp] theorem stores_nil : stores [] = [] := rfl

@[simp] theorem stores_append (first second : List Mark) :
    stores (first ++ second) = stores first ++ stores second := by
  simp [stores]

@[simp] theorem stores_place (l : Place) (rest : List Mark) :
    stores (.place l :: rest) = stores rest := rfl

@[simp] theorem stores_lda (c : Cell) (rest : List Mark) :
    stores (lda c :: rest) = stores rest := rfl

@[simp] theorem stores_add (c : Cell) (rest : List Mark) :
    stores (add c :: rest) = stores rest := rfl

@[simp] theorem stores_sub (c : Cell) (rest : List Mark) :
    stores (sub c :: rest) = stores rest := rfl

@[simp] theorem stores_sta (c : Cell) (rest : List Mark) :
    stores (sta c :: rest) = c :: stores rest := rfl

@[simp] theorem stores_jump (op : Opcode) (l : Place) (rest : List Mark) :
    stores (jump op l :: rest) = stores rest := by
  cases op <;> rfl

@[simp] theorem stores_bare (op : Opcode) (rest : List Mark) :
    stores (bare op :: rest) = stores rest := by
  cases op <;> rfl

@[simp] theorem stores_giveBack (value address : Cell) (rest : List Mark) :
    stores (.giveBack value address :: rest) = address :: stores rest := rfl

@[simp] theorem stores_refused (rest : List Mark) : stores (.refused :: rest) = stores rest := rfl

@[simp] theorem stores_call (callee : String) (args : List Cell) (result : Cell)
    (rest : List Mark) : stores (.call callee args result :: rest) = result :: stores rest := by
  have hpushes : (pushes args).filterMap stored? = [] := by
    induction args with
    | nil => rfl
    | cons c args ih => exact ih
  simp only [stores, List.flatMap_cons, orders, List.filterMap_append, hpushes]
  rfl

@[simp] theorem stores_receive (params : List Cell) (rest : List Mark) :
    stores (.receive params :: rest) = params ++ stores rest := by
  have hpops : (pops params).filterMap stored? = params := by
    induction params with
    | nil => rfl
    | cons c params ih => exact congrArg (List.cons c) ih
  change (pops params ++ rest.flatMap orders).filterMap stored? = params ++ stores rest
  rw [List.filterMap_append, hpops]
  rfl

end Mark

/-- The cell is a temporary that was handed out between the counters. -/
def Cell.Between (k k' : Counters) : Cell → Prop
  | .temporary n => k.temporaries ≤ n ∧ n < k'.temporaries
  | _ => False

theorem Cell.Between.mono {k k' k₁ k₁' : Counters} {c : Cell} (h : c.Between k k')
    (hk : k₁.Before k) (hk' : k'.Before k₁') : c.Between k₁ k₁' := by
  cases c with
  | temporary n => exact ⟨(hk .temporary).trans h.1, h.2.trans_le (hk' .temporary)⟩
  | _ => exact h

theorem Cell.Between.not_between {k k' k'' : Counters} {c : Cell} (h : c.Between k k') :
    ¬ c.Between k' k'' := by
  cases c with
  | temporary n => exact fun h' => Nat.not_lt_of_le h'.1 h.2
  | _ => exact h.elim

open Mark

/-! ## Expressions -/

/-- The marks store into temporaries between the counters and call these functions, and no loop
and no choice takes a number. -/
structure Fresh (callees : List String) (k k' : Counters) (marks : List Mark) : Prop where
  before : k.Before k'
  loops : k'.loops = k.loops
  ifs : k'.ifs = k.ifs
  stores : ∀ c ∈ stores marks, c.Between k k'
  calls : called marks ⊆ callees

namespace Fresh

variable {callees callees' : List String} {k k' k'' : Counters} {marks marks' : List Mark}

theorem append (h : Fresh callees k k' marks) (h' : Fresh callees k' k'' marks') :
    Fresh callees k k'' (marks ++ marks') := by
  refine ⟨h.before.trans h'.before, h'.loops.trans h.loops, h'.ifs.trans h.ifs, ?_, ?_⟩
  · intro c hc
    rw [stores_append, List.mem_append] at hc
    rcases hc with hc | hc
    · exact (h.stores c hc).mono (.refl _) h'.before
    · exact (h'.stores c hc).mono h.before (.refl _)
  · rw [called_append]
    exact List.append_subset.2 ⟨h.calls, h'.calls⟩

theorem widen (h : Fresh callees k k' marks) (hsubset : callees ⊆ callees') :
    Fresh callees' k k' marks :=
  { h with calls := List.Subset.trans h.calls hsubset }

theorem later (h : Fresh callees k' k'' marks) (hbefore : k.Before k')
    (hloops : k'.loops = k.loops) (hifs : k'.ifs = k.ifs) : Fresh callees k k'' marks where
  before := hbefore.trans h.before
  loops := h.loops.trans hloops
  ifs := h.ifs.trans hifs
  stores c hc := (h.stores c hc).mono hbefore (.refl _)
  calls := h.calls

/-- Marks that neither store nor call. -/
theorem quiet (k : Counters) (hstores : Mark.stores marks = []) (hcalls : called marks = []) :
    Fresh callees k k marks :=
  ⟨.refl _, rfl, rfl, by simp [hstores], by simp [hcalls]⟩

/-- Marks that take temporaries. -/
theorem taking {count : Nat}
    (hstores : ∀ c ∈ Mark.stores marks, ∃ i < count, c = .temporary (k.temporaries + i))
    (hcalls : called marks ⊆ callees) : Fresh callees k (k.taking count) marks := by
  refine ⟨k.before_taking count, rfl, rfl, fun c hc => ?_, hcalls⟩
  obtain ⟨i, hi, rfl⟩ := hstores c hc
  exact ⟨Nat.le_add_right _ _, Nat.add_lt_add_left hi _⟩

/-- A temporary is taken before two parts and stored into after them. -/
theorem around {left right : Emitted Cell} {middle last : List Mark}
    (hl : Fresh callees (k.taking 1) left.counters left.marks)
    (hr : Fresh callees left.counters right.counters right.marks)
    (hmiddle : Mark.stores middle = []) (hmiddle' : called middle = [])
    (hlast : Mark.stores last = [.temporary k.temporaries]) (hlast' : called last = []) :
    Fresh callees k right.counters (left.marks ++ middle ++ right.marks ++ last) := by
  have hall := ((hl.append (quiet _ hmiddle hmiddle')).append hr).later (k.before_taking 1) rfl rfl
  refine ⟨hall.before, hall.loops, hall.ifs, fun c hc => ?_, ?_⟩
  · rw [stores_append, hlast, List.mem_append, List.mem_singleton] at hc
    rcases hc with hc | rfl
    · exact hall.stores c hc
    · exact ⟨Nat.le_refl _, (hl.before.trans hr.before) .temporary⟩
  · rw [called_append, hlast', List.append_nil]
    exact hall.calls

end Fresh

theorem combine_fresh {callees : List String} {k : Counters} (op : BinaryOp) (l r : Cell) :
    Fresh callees k (k.taking (temporariesOf op)) (combine op l r k.temporaries) := by
  have hcalled : called (combine op l r k.temporaries) = [] := by
    cases op with
    | pow =>
        simp only [combine, power, called_append, List.append_eq_nil_iff]
        and_intros <;> rfl
    | _ => rfl
  refine .taking ?_ (hcalled ▸ List.nil_subset _)
  cases op <;> simp [combine, sum, difference, copy, anchor, multiply, floorDivMod,
    divisionOperands, divisionLoop, divisionSigns, magnitude, power, Mark.compare, select,
    DivisionCells.startingAt, temporariesOf, Nat.add_assoc]

theorem chars_fresh {callees : List String} {k : Counters} (chars : List Char) :
    Fresh callees k k (chars.flatMap emitChar) := by
  induction chars with
  | nil => exact .quiet k rfl rfl
  | cons c rest ih => exact Fresh.append (.quiet k rfl rfl) ih

section Expressions

variable {vars : String → Cell}

mutual

theorem Expr.emit_fresh (e : Expr) (k : Counters) :
    Fresh e.callees k (e.emit vars k).counters (e.emit vars k).marks := by
  cases e with
  | integer value => exact .quiet k rfl rfl
  | bool value => exact .quiet k rfl rfl
  | text content => exact .quiet k rfl rfl
  | name word => exact .quiet k rfl rfl
  | group inner => exact Expr.emit_fresh inner k
  | unary op operand =>
      have hoperand : Fresh operand.callees k (operand.emit vars k).counters
          (operand.emit vars k).marks := Expr.emit_fresh operand k
      cases op with
      | neg => exact hoperand.append (.taking (by simp [difference]) (List.nil_subset _))
      | not => exact hoperand.append (.taking (by simp [select]) (List.nil_subset _))
  | binary left op right =>
      have hleft := fun k => (Expr.emit_fresh left k).widen
        (List.subset_append_left _ right.callees)
      have hright := fun k => (Expr.emit_fresh right k).widen
        (List.subset_append_right left.callees _)
      by_cases hand : op = .and
      · subst hand
        exact .around (hleft _) (hright _) (by simp) rfl (by simp) rfl
      by_cases hor : op = .or
      · subst hor
        exact .around (hleft _) (hright _) (by simp) rfl (by simp) rfl
      rw [Expr.emit]
      · exact ((hleft k).append (hright _)).append (combine_fresh op _ _)
      all_goals assumption
  | call callee args =>
      unfold Expr.emit
      split
      · refine ((Expr.emitPrinted_fresh args k).widen (List.subset_cons_self _ _)).append ?_
        split <;> exact .quiet _ rfl rfl
      split
      · split
        · exact .taking (by simp) (List.nil_subset _)
        · exact .quiet k rfl rfl
      split
      · split
        · next condition =>
            have hcondition := (Expr.emit_fresh condition { k with asserts := k.asserts + 1 }).later
              k.before_assertion rfl rfl
            simp only [emitAssertion, List.append_assoc]
            refine (hcondition.widen ?_).append (.quiet _ rfl rfl)
            simp [Expr.callees, Expr.calleesAll]
        · exact .quiet k rfl rfl
      · exact ((Expr.emitAll_fresh args k).widen (List.subset_cons_self _ _)).append
          (.taking (by simp) (by simp [called, callee?]))

theorem Expr.emitAll_fresh (es : List Expr) (k : Counters) :
    Fresh (Expr.calleesAll es) k (Expr.emitAll vars es k).counters
      (Expr.emitAll vars es k).marks := by
  cases es with
  | nil => exact .quiet k rfl rfl
  | cons e rest =>
      exact ((Expr.emit_fresh e k).widen (List.subset_append_left _ _)).append
        ((Expr.emitAll_fresh rest _).widen (List.subset_append_right _ _))

theorem Expr.emitPrinted_fresh (es : List Expr) (k : Counters) :
    Fresh (Expr.calleesAll es) k (Expr.emitPrinted vars es k).counters
      (Expr.emitPrinted vars es k).marks := by
  cases es with
  | nil => exact .quiet k rfl rfl
  | cons e rest =>
      have hrest := fun k => (Expr.emitPrinted_fresh rest k).widen
        (List.subset_append_right e.callees _)
      by_cases htext : ∃ content, e = .text content
      · obtain ⟨content, rfl⟩ := htext
        exact (chars_fresh content.toList).append (hrest k)
      · rw [Expr.emitPrinted]
        · have he := (Expr.emit_fresh e k).widen (List.subset_append_left _ (Expr.calleesAll rest))
          exact (he.append (.quiet _ rfl rfl)).append (hrest _)
        · exact fun content h => htext ⟨content, h⟩

end

theorem temporary_mem_combine {op : BinaryOp} (hand : op ≠ .and) (hor : op ≠ .or) (l r : Cell)
    (n : Nat) : .temporary n ∈ stores (combine op l r n) := by
  cases op <;> simp_all [combine, sum, difference, copy, anchor, multiply, floorDivMod,
    divisionOperands, divisionLoop, divisionSigns, magnitude, power, Mark.compare, select]

/-- The value of an expression is in the cell of a literal or of a variable, or in a temporary
that its code stores into. -/
theorem Expr.emit_result (e : Expr) (k : Counters) :
    (∃ value, (e.emit vars k).result = .literal value) ∨
      (∃ x, (e.emit vars k).result = vars x) ∨
        (e.emit vars k).result ∈ stores (e.emit vars k).marks := by
  cases e with
  | integer value => exact .inl ⟨_, rfl⟩
  | bool value => exact .inl ⟨_, rfl⟩
  | text content => exact .inl ⟨_, rfl⟩
  | name word => exact .inr (.inl ⟨word, rfl⟩)
  | group inner => exact Expr.emit_result inner k
  | unary op operand =>
      refine .inr (.inr ?_)
      cases op <;> simp [Expr.emit, difference, select]
  | binary left op right =>
      refine .inr (.inr ?_)
      by_cases hand : op = .and
      · subst hand
        simp [Expr.emit, emitConjunction]
      by_cases hor : op = .or
      · subst hor
        simp [Expr.emit, emitDisjunction]
      rw [Expr.emit]
      · rw [stores_append]
        exact List.mem_append_right _ (temporary_mem_combine hand hor _ _ _)
      all_goals assumption
  | call callee args =>
      unfold Expr.emit
      split
      · exact .inl ⟨_, rfl⟩
      split
      · split
        · exact .inr (.inr (by simp))
        · exact .inl ⟨_, rfl⟩
      split
      · split <;> exact .inl ⟨_, rfl⟩
      · exact .inr (.inr (by simp))

end Expressions

/-! ## Statements -/

/-- The marks store into temporaries between the counters and into the variables with these
names, and call these functions. -/
structure Assigns (vars : String → Cell) (names callees : List String) (k k' : Counters)
    (marks : List Mark) : Prop where
  before : k.Before k'
  stores : ∀ c ∈ stores marks, c.Between k k' ∨ ∃ x ∈ names, c = vars x
  calls : called marks ⊆ callees

section Statements

variable {vars : String → Cell} {names names' callees callees' : List String}
  {k k' k'' : Counters} {marks marks' : List Mark}

theorem Fresh.assigns (h : Fresh callees k k' marks) : Assigns vars names callees k k' marks :=
  ⟨h.before, fun c hc => .inl (h.stores c hc), h.calls⟩

namespace Assigns

theorem append (h : Assigns vars names callees k k' marks)
    (h' : Assigns vars names callees k' k'' marks') :
    Assigns vars names callees k k'' (marks ++ marks') := by
  refine ⟨h.before.trans h'.before, fun c hc => ?_, ?_⟩
  · rw [stores_append, List.mem_append] at hc
    rcases hc with hc | hc
    · exact (h.stores c hc).imp_left fun hc => hc.mono (.refl _) h'.before
    · exact (h'.stores c hc).imp_left fun hc => hc.mono h.before (.refl _)
  · rw [called_append]
    exact List.append_subset.2 ⟨h.calls, h'.calls⟩

theorem widen (h : Assigns vars names callees k k' marks) (hnames : names ⊆ names')
    (hcallees : callees ⊆ callees') : Assigns vars names' callees' k k' marks where
  before := h.before
  stores c hc := (h.stores c hc).imp_right fun ⟨x, hx, heq⟩ => ⟨x, hnames hx, heq⟩
  calls := List.Subset.trans h.calls hcallees

theorem later (h : Assigns vars names callees k' k'' marks) (hbefore : k.Before k') :
    Assigns vars names callees k k'' marks where
  before := hbefore.trans h.before
  stores c hc := (h.stores c hc).imp_left fun hc => hc.mono hbefore (.refl _)
  calls := h.calls

theorem quiet (k : Counters) (hstores : Mark.stores marks = []) (hcalls : called marks = []) :
    Assigns vars names callees k k marks :=
  (Fresh.quiet k hstores hcalls).assigns

theorem anchor (k : Counters) (l : Place) : Assigns vars names callees k k (anchor l) :=
  quiet k rfl rfl

/-- Marks that store into one variable. -/
theorem single (k : Counters) (x : String) (hstores : Mark.stores marks = [vars x])
    (hcalls : called marks = []) (hx : x ∈ names) : Assigns vars names callees k k marks := by
  refine ⟨.refl _, fun c hc => .inr ⟨x, hx, ?_⟩, by simp [hcalls]⟩
  simpa [hstores] using hc

theorem branchIfFalse {condition : Emitted Cell} (onFalse : Place)
    (h : Fresh callees k condition.counters condition.marks) :
    Assigns vars names callees k condition.counters (emitBranchIfFalse condition onFalse) :=
  (h.append (.quiet _ rfl rfl)).assigns

end Assigns

mutual

theorem Stmt.emit_assigns (loop : Option LoopPlaces) (stmt : Stmt) (k : Counters) :
    Assigns vars stmt.assigned stmt.callees k (Stmt.emit vars loop stmt k).counters
      (Stmt.emit vars loop stmt k).marks := by
  match stmt with
  | .assign name value =>
      exact (value.emit_fresh k).assigns.append
        (.single _ name (by simp [copy]) rfl (by simp [Stmt.assigned]))
  | .choose arms (some body) =>
      have harms := (Stmt.emitArms_assigns loop k.ifs (.point .choice k.ifs "_else") 0 arms
        { k with ifs := k.ifs + 1 }).widen (List.subset_append_left _ (Stmt.assignedInBlock body))
          (List.subset_append_left _ (Stmt.calleesInBlock body))
      have hbody := fun k => (Stmt.emitBlock_assigns loop body k).widen
        (List.subset_append_right (Stmt.assignedInArms arms) _)
        (List.subset_append_right (Stmt.calleesInArms arms) _)
      exact (((harms.append (.anchor _ _)).append (hbody _)).append (.anchor _ _)).later
        k.before_choice
  | .choose arms none =>
      have harms := (Stmt.emitArms_assigns loop k.ifs (.point .choice k.ifs "_end") 0 arms
        { k with ifs := k.ifs + 1 }).widen (List.subset_append_left _ [])
          (List.subset_append_left _ [])
      exact (harms.append (.anchor _ _)).later k.before_choice
  | .whileLoop condition body =>
      have hcondition := fun k => (@Expr.emit_fresh vars condition k).widen
        (List.subset_append_left _ (Stmt.calleesInBlock body))
      have hbody := fun loop k => (Stmt.emitBlock_assigns loop body k).widen
        (List.Subset.refl _) (List.subset_append_right condition.callees _)
      exact (((((Assigns.anchor _ _).append (.branchIfFalse _ (hcondition _))).append
        (hbody _ _)).append (.quiet _ rfl rfl)).append (.anchor _ _)).later k.before_loop
  | .untilLoop body condition =>
      have hbody := fun loop k => (Stmt.emitBlock_assigns loop body k).widen
        (List.Subset.refl _) (List.subset_append_left _ condition.callees)
      have hcondition := fun k => (@Expr.emit_fresh vars condition k).widen
        (List.subset_append_right (Stmt.calleesInBlock body) _)
      exact (((((Assigns.anchor _ _).append (hbody _ _)).append (.anchor _ _)).append
        (.branchIfFalse _ (hcondition _))).append (.anchor _ _)).later k.before_loop
  | .forLoop var first last body closing =>
      unfold Stmt.emit
      split
      · have hvar : var ∈ var :: Stmt.assignedInBlock body := List.mem_cons_self
        have hfirst := fun k => (@Expr.emit_fresh vars first k).widen
          (show _ ⊆ first.callees ++ last.callees ++ Stmt.calleesInBlock body by simp)
        have hlast := fun k => (@Expr.emit_fresh vars last k).widen
          (show _ ⊆ first.callees ++ last.callees ++ Stmt.calleesInBlock body by simp)
        have hbody := fun loop k => (Stmt.emitBlock_assigns loop body k).widen
          (List.subset_cons_self var _)
          (List.subset_append_right (first.callees ++ last.callees) _)
        refine ((((((((hfirst _).assigns.append (.single _ var ?_ rfl hvar)).append
          (hlast _).assigns).append (Fresh.taking ?_ (List.nil_subset _)).assigns).append
          (.anchor _ _)).append (hbody _ _)).append (.single _ var ?_ rfl hvar))).later
          k.before_loop
        · simp [copy]
        · simp [copy]
        · simp [emitCount, sum, anchor]
      · exact .quiet k rfl rfl
  | .switch .. => exact .quiet k rfl rfl
  | .function .. => exact .quiet k rfl rfl
  | .giveBack (some value) =>
      exact ((value.emit_fresh k).append
        (.taking (by simp [emitReturn]) (List.nil_subset _))).assigns
  | .giveBack none =>
      exact (Fresh.taking (by simp [Stmt.emit, emitReturn]) (List.nil_subset _)).assigns
  | .leaveLoop => cases loop <;> exact .quiet k rfl rfl
  | .nextPass => cases loop <;> exact .quiet k rfl rfl
  | .evaluate value => exact (value.emit_fresh k).assigns

theorem Stmt.emitBlock_assigns (loop : Option LoopPlaces) (block : List Stmt) (k : Counters) :
    Assigns vars (Stmt.assignedInBlock block) (Stmt.calleesInBlock block) k
      (Stmt.emitBlock vars loop block k).counters (Stmt.emitBlock vars loop block k).marks := by
  match block with
  | [] => exact .quiet k rfl rfl
  | stmt :: rest =>
      exact ((Stmt.emit_assigns loop stmt k).widen (List.subset_append_left _ _)
        (List.subset_append_left _ _)).append ((Stmt.emitBlock_assigns loop rest _).widen
        (List.subset_append_right _ _) (List.subset_append_right _ _))

theorem Stmt.emitArms_assigns (loop : Option LoopPlaces) (n : Nat) (fallback : Place) (i : Nat)
    (arms : List (Expr × List Stmt)) (k : Counters) :
    Assigns vars (Stmt.assignedInArms arms) (Stmt.calleesInArms arms) k
      (Stmt.emitArms vars loop n fallback i arms k).counters
      (Stmt.emitArms vars loop n fallback i arms k).marks := by
  match arms with
  | [] => exact .quiet k rfl rfl
  | (condition, body) :: rest =>
      have hcondition := fun k => (@Expr.emit_fresh vars condition k).widen
        (show _ ⊆ Stmt.calleesInArms ((condition, body) :: rest) by simp [Stmt.calleesInArms])
      have hbody := fun k => (Stmt.emitBlock_assigns loop body k).widen
        (List.subset_append_left _ (Stmt.assignedInArms rest))
        (show _ ⊆ Stmt.calleesInArms ((condition, body) :: rest) by simp [Stmt.calleesInArms])
      have hrest := fun k => (Stmt.emitArms_assigns loop n fallback (i + 1) rest k).widen
        (List.subset_append_right (Stmt.assignedInBlock body) _)
        (List.subset_append_right (condition.callees ++ Stmt.calleesInBlock body) _)
      exact ((((Assigns.anchor _ _).append (.branchIfFalse _ (hcondition _))).append
        (hbody _)).append (.quiet _ rfl rfl)).append (hrest _)

end

end Statements

end LittleMan
