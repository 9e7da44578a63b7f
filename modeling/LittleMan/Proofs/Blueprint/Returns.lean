import LittleMan.Proofs.Blueprint.Calls

/-!
# Sites of returns

A `return` statement has six words of its own after the code of its value.  They take the
return address off the stack, leave the value there and go to the address.  `ReturnSite` says
where this is in the code of a program, and `Stmt.returns` collects the sites of a statement.
The marks of these words are the only ones in which a function is left.
-/

namespace LittleMan

open Mark

/-- A `return` with its value, if it has one.  The code begins at `base`, with these
counters. -/
structure ReturnSite where
  base : Nat
  counters : Counters
  value : Option Expr
deriving Repr

namespace ReturnSite

variable (vars : String → Cell) (s : ReturnSite)

def emitted : Emitted Cell :=
  match s.value with
  | some value => value.emit vars s.counters
  | none => ⟨[], .literal 0, s.counters⟩

def cell : Cell :=
  (s.emitted vars).result

def begins : Nat :=
  s.base + width (s.emitted vars).marks

/-- The cell that holds the return address for the last words. -/
def saved : Cell :=
  .temporary (s.emitted vars).counters.temporaries

end ReturnSite

mutual

def Stmt.returns (vars : String → Cell) :
    Option LoopPlaces → Stmt → Counters → Nat → List ReturnSite
  | loop, .choose arms otherwise, k, p =>
      let n := k.ifs
      let k := { k with ifs := n + 1 }
      match otherwise with
      | some body =>
          let x := Stmt.emitArms vars loop n (.point .choice n "_else") 0 arms k
          Stmt.returnsInArms vars loop n (.point .choice n "_else") 0 arms k p ++
            Stmt.returnsInBlock vars loop body x.counters (p + (width x.marks + 1))
      | none => Stmt.returnsInArms vars loop n (.point .choice n "_end") 0 arms k p
  | _, .whileLoop condition body, k, p =>
      let n := k.loops
      let x := condition.emit vars { k with loops := n + 1 }
      Stmt.returnsInBlock vars (some ⟨n, "_start"⟩) body x.counters (p + (width x.marks + 3))
  | _, .untilLoop body _, k, p =>
      let n := k.loops
      Stmt.returnsInBlock vars (some ⟨n, "_cond"⟩) body { k with loops := n + 1 } (p + 1)
  | _, .forLoop var first last body closing, k, p =>
      if var = closing then
        let n := k.loops
        let x := first.emit vars { k with loops := n + 1 }
        let y := last.emit vars x.counters
        Stmt.returnsInBlock vars (some ⟨n, "_step"⟩) body (y.counters.taking 1)
          (p + (width x.marks + width y.marks + 5))
      else []
  | _, .giveBack value, k, p => [⟨p, k, value⟩]
  | _, .assign .., _, _ | _, .evaluate _, _, _ | _, .switch .., _, _ | _, .function .., _, _
  | _, .leaveLoop, _, _ | _, .nextPass, _, _ => []

def Stmt.returnsInBlock (vars : String → Cell) :
    Option LoopPlaces → List Stmt → Counters → Nat → List ReturnSite
  | _, [], _, _ => []
  | loop, stmt :: rest, k, p =>
      let x := Stmt.emit vars loop stmt k
      stmt.returns vars loop k p ++
        Stmt.returnsInBlock vars loop rest x.counters (p + width x.marks)

def Stmt.returnsInArms (vars : String → Cell) :
    Option LoopPlaces → Nat → Place → Nat → List (Expr × List Stmt) → Counters → Nat →
      List ReturnSite
  | _, _, _, _, [], _, _ => []
  | loop, n, fallback, i, (condition, body) :: rest, k, p =>
      let x := condition.emit vars k
      let y := Stmt.emitBlock vars loop body x.counters
      Stmt.returnsInBlock vars loop body x.counters (p + (width x.marks + 3)) ++
        Stmt.returnsInArms vars loop n fallback (i + 1) rest y.counters
          (p + (width x.marks + width y.marks + 4))

end

/-! ## Returns among marks -/

namespace Mark

def isReturn : Mark → Bool
  | .giveBack .. => true
  | _ => false

variable {rest : List Mark} {p : Nat}

@[simp] theorem returned_place {l : Place} :
    picked isReturn (.place l :: rest) p = picked isReturn rest p := rfl

@[simp] theorem returned_order {op : Opcode} {target : Target} :
    picked isReturn (.order op target :: rest) p = picked isReturn rest (p + 1) := rfl

/-- A `RET` is the last word of a return. -/
theorem isReturn_of_ret {m : Mark} (hsound : m.isSound = true) {i : Nat} {target : Target}
    (h : m.orders[i]? = some (.ret, target)) : m.isReturn = true ∧ i = 5 := by
  have hmem := List.mem_of_getElem? h
  cases m with
  | place l => cases hmem
  | order op target' =>
      obtain ⟨rfl, rfl⟩ := Prod.mk.inj (List.mem_singleton.1 hmem)
      cases target <;> cases hsound
  | call callee args result => simp [orders, Mark.pushes] at hmem
  | giveBack value address =>
      refine ⟨rfl, ?_⟩
      by_contra hi
      have hlt : i < 6 := (List.getElem?_eq_some_iff.1 h).1
      have hother : i < 5 := by omega
      interval_cases i <;> cases h
  | receive params => simp [orders, Mark.pops] at hmem
  | refused => simp [orders] at hmem

end Mark

/-- The value of a return is not in the cell that is needed for the return address. -/
theorem ReturnSite.cell_ne_saved {vars : String → Cell} (hvars : ∀ x, ∃ stem, vars x = .var stem x)
    (s : ReturnSite) : s.cell vars ≠ s.saved vars := by
  unfold cell saved emitted
  cases s.value with
  | none => simp
  | some value =>
      intro heq
      rcases @Expr.emit_result vars value s.counters with ⟨word, hword⟩ | ⟨x, hx⟩ | hmem
      · cases heq.symm.trans hword
      · obtain ⟨stem, hstem⟩ := hvars x
        cases (heq.symm.trans hx).trans hstem
      · have hbetween := (@Expr.emit_fresh vars value s.counters).stores _ hmem
        simp only at heq
        rw [heq] at hbetween
        exact Nat.lt_irrefl _ hbetween.2

section Emission

variable {vars : String → Cell}

theorem returned_combine (op : BinaryOp) (l r : Cell) (n p : Nat) :
    picked isReturn (combine op l r n) p = [] := by
  cases op <;> rfl

theorem returned_chars (chars : List Char) (p : Nat) :
    picked isReturn (chars.flatMap emitChar) p = [] := by
  induction chars generalizing p with
  | nil => rfl
  | cons c rest ih => simpa [emitChar] using ih _

mutual

/-- The code of an expression does not leave the function. -/
theorem Expr.returned_emit (e : Expr) (k : Counters) (p : Nat) :
    picked isReturn (e.emit vars k).marks p = [] := by
  cases e with
  | integer value => rfl
  | bool value => rfl
  | text content => rfl
  | name word => rfl
  | group inner => exact Expr.returned_emit inner k p
  | unary op operand =>
      have hoperand := Expr.returned_emit operand k p
      cases op <;> simp [Expr.emit, hoperand, difference, select]
  | binary left op right =>
      by_cases hand : op = .and
      · subst hand
        simp [Expr.emit, emitConjunction, Expr.returned_emit left, Expr.returned_emit right]
      by_cases hor : op = .or
      · subst hor
        simp [Expr.emit, emitDisjunction, Expr.returned_emit left, Expr.returned_emit right]
      rw [Expr.emit]
      · simp [Expr.returned_emit left, Expr.returned_emit right, returned_combine]
      all_goals assumption
  | call callee args =>
      unfold Expr.emit
      split
      · have hargs := Expr.returned_emitPrinted args k p
        split <;> simp [hargs, emitChar]
      split
      · split <;> rfl
      split
      · split
        next condition => simp [emitAssertion, Expr.returned_emit condition, anchor]
        next => rfl
      · simp only [picked_append, Expr.returned_emitAll args]
        rfl

theorem Expr.returned_emitAll (es : List Expr) (k : Counters) (p : Nat) :
    picked isReturn (Expr.emitAll vars es k).marks p = [] := by
  cases es with
  | nil => rfl
  | cons e rest => simp [Expr.emitAll, Expr.returned_emit e, Expr.returned_emitAll rest]

theorem Expr.returned_emitPrinted (es : List Expr) (k : Counters) (p : Nat) :
    picked isReturn (Expr.emitPrinted vars es k).marks p = [] := by
  cases es with
  | nil => rfl
  | cons e rest =>
      by_cases htext : ∃ content, e = .text content
      · obtain ⟨content, rfl⟩ := htext
        simp [Expr.emitPrinted, returned_chars, Expr.returned_emitPrinted rest]
      · rw [Expr.emitPrinted]
        · simp [Expr.returned_emit e, Expr.returned_emitPrinted rest]
        · exact fun content h => htext ⟨content, h⟩

end

def ReturnSite.entry (vars : String → Cell) (s : ReturnSite) : Nat × Mark :=
  (s.begins vars, .giveBack (s.cell vars) (s.saved vars))

mutual

/-- The returns among the marks of a statement are those of its sites. -/
theorem Stmt.returned_emit (loop : Option LoopPlaces) (stmt : Stmt) (k : Counters) (p : Nat) :
    picked isReturn (Stmt.emit vars loop stmt k).marks p =
      (stmt.returns vars loop k p).map (ReturnSite.entry vars) := by
  match stmt with
  | .assign name value => simp [Stmt.emit, Stmt.returns, Expr.returned_emit, copy]
  | .choose arms (some body) =>
      simp [Stmt.emit, Stmt.returns, Stmt.returned_emitArms, Stmt.returned_emitBlock, anchor,
        Nat.add_assoc]
  | .choose arms none => simp [Stmt.emit, Stmt.returns, Stmt.returned_emitArms, anchor]
  | .whileLoop condition body =>
      simp only [Stmt.emit, Stmt.returns, anchor, emitBranchIfFalse, List.cons_append,
        List.nil_append, List.append_assoc, picked_append, returned_place, returned_order,
        picked_nil, Expr.returned_emit, Stmt.returned_emitBlock, List.append_nil]
      congr 2
      omega
  | .untilLoop body condition =>
      simp [Stmt.emit, Stmt.returns, Stmt.returned_emitBlock, Expr.returned_emit, emitBranchIfFalse,
        anchor]
  | .forLoop var first last body closing =>
      unfold Stmt.emit Stmt.returns
      split
      · simp only [anchor, copy, sum, emitCount, List.cons_append, List.nil_append,
          List.append_assoc, picked_append, returned_place, returned_order, picked_nil,
          Expr.returned_emit, Stmt.returned_emitBlock, List.append_nil]
        congr 2
        omega
      · rfl
  | .switch .. => rfl
  | .function .. => rfl
  | .giveBack (some value) =>
      simp only [Stmt.emit, Stmt.returns, emitReturn, picked_append, Expr.returned_emit]
      rfl
  | .giveBack none => rfl
  | .leaveLoop => cases loop <;> rfl
  | .nextPass => cases loop <;> rfl
  | .evaluate value => exact value.returned_emit k p

theorem Stmt.returned_emitBlock (loop : Option LoopPlaces) (block : List Stmt) (k : Counters)
    (p : Nat) :
    picked isReturn (Stmt.emitBlock vars loop block k).marks p =
      (Stmt.returnsInBlock vars loop block k p).map (ReturnSite.entry vars) := by
  match block with
  | [] => rfl
  | stmt :: rest =>
      simp [Stmt.emitBlock, Stmt.returnsInBlock, Stmt.returned_emit loop stmt,
        Stmt.returned_emitBlock loop rest]

theorem Stmt.returned_emitArms (loop : Option LoopPlaces) (n : Nat) (fallback : Place) (i : Nat)
    (arms : List (Expr × List Stmt)) (k : Counters) (p : Nat) :
    picked isReturn (Stmt.emitArms vars loop n fallback i arms k).marks p =
      (Stmt.returnsInArms vars loop n fallback i arms k p).map (ReturnSite.entry vars) := by
  match arms with
  | [] => rfl
  | (condition, body) :: rest =>
      simp only [Stmt.emitArms, Stmt.returnsInArms, anchor, emitBranchIfFalse, List.cons_append,
        List.nil_append, List.append_assoc, picked_append, returned_place, returned_order,
        Expr.returned_emit, Stmt.returned_emitBlock loop body,
        Stmt.returned_emitArms loop n fallback (i + 1) rest, List.map_append]
      congr 3 <;> omega

end

end Emission
end LittleMan
