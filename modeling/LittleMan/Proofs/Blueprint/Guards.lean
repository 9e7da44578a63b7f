import LittleMan.Proofs.Blueprint.Shape

/-!
# Halts in emitted marks

The statements of a program halt the machine in one way: an assertion branches over to
its own `HLT` if its condition is zero.  `Mark.Guarded` says this of a list of marks: apart
from the four marks of such a branch there is no `HLT`, no place of a failed assertion, and
no branch to one.
-/

namespace LittleMan

open Mark

/-- The places of assertions, the one where they go on apart. -/
def Place.isFailure : Place → Bool
  | .point .assertion _ ending => ending != "_ok"
  | _ => false

abbrev failure (n : Nat) : Place := .point .assertion n "_fail"

abbrev success (n : Nat) : Place := .point .assertion n "_ok"

namespace Mark

/-- Not a part of an assertion that fails, and not the start of a function. -/
def isFlow : Mark → Bool
  | .place l => !l.isFailure
  | .order .hlt _ => false
  | .order _ (.place l) => !l.isFailure
  | .receive _ => false
  | _ => true

/-- The branch of assertion `n` to its `HLT`, and the `HLT`. -/
def guard (n : Nat) : List Mark :=
  [jump .brz (failure n), jump .bra (success n), .place (failure n), bare .hlt]

/-- Marks that halt only where an assertion has failed. -/
inductive Guarded : List Mark → Prop
  | nil : Guarded []
  | cons {m : Mark} {rest : List Mark} (flow : m.isFlow = true) (more : Guarded rest) :
      Guarded (m :: rest)
  | guard (n : Nat) {rest : List Mark} (more : Guarded rest) : Guarded (guard n ++ rest)

namespace Guarded

variable {first second marks done rest : List Mark}

theorem append (h : Guarded first) (h' : Guarded second) : Guarded (first ++ second) := by
  induction h with
  | nil => exact h'
  | cons flow _ ih => exact .cons flow ih
  | guard n _ ih => exact .guard n ih

theorem of_all (h : marks.all isFlow = true) : Guarded marks := by
  induction marks with
  | nil => exact .nil
  | cons m rest ih =>
      rw [List.all_cons, Bool.and_eq_true] at h
      exact .cons h.1 (ih h.2)

theorem receive_not_mem (h : Guarded marks) (params : List Cell) : .receive params ∉ marks := by
  induction h with
  | nil => simp
  | cons flow _ ih =>
      rw [List.mem_cons, not_or]
      refine ⟨?_, ih⟩
      rintro rfl
      cases flow
  | guard n _ ih => simpa [Mark.guard] using ih

/-- Wherever the marks are taken apart, the mark there goes on or belongs to a guard. -/
theorem cases_at {m : Mark} (h : Guarded marks) (hmarks : marks = done ++ m :: rest) :
    m.isFlow = true ∨ ∃ n before after, ∃ within, marks = before ++ Mark.guard n ++ after ∧
      done = before ++ within ∧ within ++ m :: rest = Mark.guard n ++ after ∧
      within.length < 4 := by
  induction h generalizing done with
  | nil => simp at hmarks
  | @cons m' rest' flow more ih =>
      cases done with
      | nil =>
          obtain ⟨rfl, -⟩ := List.cons.inj hmarks
          exact .inl flow
      | cons d done =>
          obtain ⟨rfl, htail⟩ := List.cons.inj hmarks
          rcases ih htail with hflow | ⟨n, before, after, within, hrest', rfl, hwithin, hlt⟩
          · exact .inl hflow
          · refine .inr ⟨n, m' :: before, after, within, ?_, rfl, hwithin, hlt⟩
            rw [hrest']
            rfl
  | @guard n rest' more ih =>
      by_cases hlt : done.length < 4
      · exact .inr ⟨n, [], rest', done, rfl, rfl, hmarks.symm, hlt⟩
      · obtain ⟨tail, rfl⟩ : ∃ tail, done = Mark.guard n ++ tail := by
          have htake := congrArg (List.take 4) hmarks
          rw [List.take_append_of_le_length (by omega : 4 ≤ done.length)] at htake
          refine ⟨done.drop 4, ?_⟩
          conv_lhs => rw [← List.take_append_drop 4 done]
          rw [← htake]
          rfl
        rw [List.append_assoc, List.append_cancel_left_eq] at hmarks
        rcases ih hmarks with hflow | ⟨n', before, after, within, hrest', rfl, hwithin, hlt'⟩
        · exact .inl hflow
        · refine .inr ⟨n', Mark.guard n ++ before, after, within, ?_, ?_, hwithin, hlt'⟩
          · rw [hrest']
            simp only [List.append_assoc]
          · simp only [List.append_assoc]

end Guarded

/-! ## Operators -/

theorem combine_guarded (op : BinaryOp) (l r : Cell) (n : Nat) : Guarded (combine op l r n) := by
  have hflow : (combine op l r n).all isFlow = true := by
    cases op with
    | pow =>
        -- A power holds a whole product, too much to be evaluated in one piece.
        simp only [combine, power, List.all_append]
        rfl
    | _ => rfl
  exact .of_all hflow

theorem conjunction_guarded {left right : Emitted Cell} (hl : Guarded left.marks)
    (hr : Guarded right.marks) (n : Nat) : Guarded (emitConjunction n left right).marks :=
  ((hl.append (.of_all rfl)).append hr).append (.of_all rfl)

theorem disjunction_guarded {left right : Emitted Cell} (hl : Guarded left.marks)
    (hr : Guarded right.marks) (n : Nat) : Guarded (emitDisjunction n left right).marks :=
  ((hl.append (.of_all rfl)).append hr).append (.of_all rfl)

theorem assertion_guarded {condition : Emitted Cell} (h : Guarded condition.marks) (n : Nat) :
    Guarded (emitAssertion n condition).marks :=
  (h.append (.cons rfl (.guard n .nil))).append (.of_all rfl)

theorem chars_guarded (chars : List Char) : Guarded (chars.flatMap emitChar) := by
  induction chars with
  | nil => exact .nil
  | cons c rest ih => exact (Guarded.of_all rfl).append ih

end Mark

section Guarded

variable {vars : String → Cell}

mutual

theorem Expr.emit_guarded (e : Expr) (k : Counters) : Guarded (e.emit vars k).marks := by
  cases e with
  | integer value => exact .nil
  | bool value => exact .nil
  | text content => exact .of_all rfl
  | name word => exact .nil
  | group inner => exact Expr.emit_guarded inner k
  | unary op operand =>
      have hoperand : Guarded (operand.emit vars k).marks := Expr.emit_guarded operand k
      cases op with
      | neg => exact hoperand.append (.of_all rfl)
      | not => exact hoperand.append (.of_all rfl)
  | binary left op right =>
      by_cases hand : op = .and
      · subst hand
        exact conjunction_guarded (Expr.emit_guarded left _) (Expr.emit_guarded right _) _
      by_cases hor : op = .or
      · subst hor
        exact disjunction_guarded (Expr.emit_guarded left _) (Expr.emit_guarded right _) _
      rw [Expr.emit]
      · exact ((Expr.emit_guarded left k).append (Expr.emit_guarded right _)).append
          (combine_guarded op _ _ _)
      all_goals assumption
  | call callee args =>
      unfold Expr.emit
      split
      · refine (Expr.emitPrinted_guarded args k).append ?_
        split
        · exact .of_all rfl
        · exact .nil
      split
      · split <;> exact .of_all rfl
      split
      · split
        · exact assertion_guarded (Expr.emit_guarded _ _) _
        · exact .of_all rfl
      · exact (Expr.emitAll_guarded args k).append (.of_all rfl)

theorem Expr.emitAll_guarded (es : List Expr) (k : Counters) :
    Guarded (Expr.emitAll vars es k).marks := by
  cases es with
  | nil => exact .nil
  | cons e rest => exact (Expr.emit_guarded e k).append (Expr.emitAll_guarded rest _)

theorem Expr.emitPrinted_guarded (es : List Expr) (k : Counters) :
    Guarded (Expr.emitPrinted vars es k).marks := by
  cases es with
  | nil => exact .nil
  | cons e rest =>
      by_cases htext : ∃ content, e = .text content
      · obtain ⟨content, rfl⟩ := htext
        exact (chars_guarded content.toList).append (Expr.emitPrinted_guarded rest k)
      · rw [Expr.emitPrinted]
        · exact ((Expr.emit_guarded e k).append (.of_all rfl)).append
            (Expr.emitPrinted_guarded rest _)
        · exact fun content h => htext ⟨content, h⟩

end

theorem branchIfFalse_guarded (condition : Expr) (k : Counters) {onFalse : Place}
    (h : onFalse.isFailure = false) :
    Guarded (emitBranchIfFalse (condition.emit vars k) onFalse) :=
  (condition.emit_guarded k).append (.of_all (by simp [isFlow, h]))

mutual

theorem Stmt.emit_guarded (loop : Option LoopPlaces) (stmt : Stmt) (k : Counters) :
    Guarded (Stmt.emit vars loop stmt k).marks := by
  match stmt with
  | .assign name value => exact (value.emit_guarded k).append (.of_all rfl)
  | .choose arms (some body) =>
      exact (((Stmt.emitArms_guarded loop _ rfl 0 arms _).append (.of_all rfl)).append
        (Stmt.emitBlock_guarded loop body _)).append (.of_all rfl)
  | .choose arms none =>
      exact (Stmt.emitArms_guarded loop _ rfl 0 arms _).append (.of_all rfl)
  | .whileLoop condition body =>
      exact (((Guarded.append (.of_all rfl) (branchIfFalse_guarded condition _ rfl)).append
        (Stmt.emitBlock_guarded _ body _)).append (.of_all rfl)).append (.of_all rfl)
  | .untilLoop body condition =>
      exact (((Guarded.append (.of_all rfl) (Stmt.emitBlock_guarded _ body _)).append
        (.of_all rfl)).append (branchIfFalse_guarded condition _ rfl)).append (.of_all rfl)
  | .forLoop var first last body closing =>
      unfold Stmt.emit
      split
      · exact ((((((first.emit_guarded _).append (.of_all rfl)).append
          (last.emit_guarded _)).append (.of_all rfl)).append (.of_all rfl)).append
          (Stmt.emitBlock_guarded _ body _)).append (.of_all rfl)
      · exact .of_all rfl
  | .switch .. => exact .of_all rfl
  | .function .. => exact .of_all rfl
  | .giveBack (some value) => exact (value.emit_guarded k).append (.of_all rfl)
  | .giveBack none => exact .of_all rfl
  | .leaveLoop => cases loop <;> exact .of_all rfl
  | .nextPass => cases loop <;> exact .of_all rfl
  | .evaluate value => exact value.emit_guarded k

theorem Stmt.emitBlock_guarded (loop : Option LoopPlaces) (block : List Stmt) (k : Counters) :
    Guarded (Stmt.emitBlock vars loop block k).marks := by
  match block with
  | [] => exact .nil
  | stmt :: rest =>
      exact (Stmt.emit_guarded loop stmt k).append (Stmt.emitBlock_guarded loop rest _)

theorem Stmt.emitArms_guarded (loop : Option LoopPlaces) (n : Nat) {fallback : Place}
    (hfallback : fallback.isFailure = false) (i : Nat) (arms : List (Expr × List Stmt))
    (k : Counters) : Guarded (Stmt.emitArms vars loop n fallback i arms k).marks := by
  match arms with
  | [] => exact .nil
  | (condition, body) :: rest =>
      refine ((((Guarded.of_all rfl).append (branchIfFalse_guarded condition _ ?_)).append
        (Stmt.emitBlock_guarded loop body _)).append (.of_all rfl)).append
        (Stmt.emitArms_guarded loop n hfallback (i + 1) rest _)
      split
      · exact hfallback
      · rfl

end

end Guarded
end LittleMan
