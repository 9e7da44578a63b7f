import LittleMan.Proofs.Blueprint.Emission
import LittleMan.Proofs.Word

/-!
# The shape of emitted marks

Four facts hold of the marks of every construct.  Each order has the operand that its
operation takes, and no order stores into a literal.  The places are distinct, and
their numbers lie between the counters before and after.  A branch goes to a place
among the marks, or out of them to a place of the loop around.  And no place follows a
place at once.

`Fits` collects the first three.  It names the places that a part of a construct owns,
so that the parts can be joined one by one and the numbers of the owned places checked
in the end.
-/

namespace LittleMan

def Cell.isLiteral : Cell → Bool
  | .literal _ => true
  | _ => false

namespace Mark

/-- An order that leaves the stack alone, with an operand that belongs to it. -/
def isSimple : Opcode → Target → Bool
  | .lda, .cell _ | .add, .cell _ | .sub, .cell _ => true
  | .sta, .cell c => !c.isLiteral
  | .bra, .place _ | .brz, .place _ | .brp, .place _ => true
  | .hlt, .none | .nop, .none | .inp, .none | .out, .none | .outC, .none => true
  | _, _ => false

/-- No part of the mark stores into a literal, and orders are simple. -/
def isSound : Mark → Bool
  | .place _ => true
  | .order op target => isSimple op target
  | .call _ _ result => !result.isLiteral
  | .giveBack _ address => !address.isLiteral
  | .receive params => params.all fun c => !c.isLiteral
  | .refused => true

/-- Where an order goes, if it is a branch. -/
def branch? : Mark → Option Place
  | .order _ (.place l) => some l
  | _ => none

def branches (marks : List Mark) : List Place :=
  marks.filterMap branch?

@[simp] theorem branches_nil : branches [] = [] := rfl

@[simp] theorem branches_place (l : Place) (rest : List Mark) :
    branches (.place l :: rest) = branches rest := rfl

@[simp] theorem branches_jump (op : Opcode) (l : Place) (rest : List Mark) :
    branches (.order op (.place l) :: rest) = l :: branches rest := rfl

@[simp] theorem branches_cell (op : Opcode) (c : Cell) (rest : List Mark) :
    branches (.order op (.cell c) :: rest) = branches rest := rfl

@[simp] theorem branches_bare (op : Opcode) (rest : List Mark) :
    branches (.order op .none :: rest) = branches rest := rfl

@[simp] theorem branches_append (first second : List Mark) :
    branches (first ++ second) = branches first ++ branches second := by
  simp [branches]

end Mark

/-! ## Numbers of places -/

/-- How many numbers a family has given out. -/
def Counters.count (k : Counters) : Family → Nat
  | .temporary => k.temporaries
  | .loop => k.loops
  | .choice => k.ifs
  | .assertion => k.asserts

/-- No counter is ahead. -/
def Counters.Before (k k' : Counters) : Prop :=
  ∀ family, k.count family ≤ k'.count family

theorem Counters.Before.refl (k : Counters) : k.Before k :=
  fun _ => Nat.le_refl _

theorem Counters.Before.trans {k k' k'' : Counters} (h : k.Before k') (h' : k'.Before k'') :
    k.Before k'' :=
  fun family => Nat.le_trans (h family) (h' family)

theorem Counters.before_taking (k : Counters) (count : Nat) : k.Before (k.taking count) := by
  intro family
  cases family <;> simp [Counters.count, Counters.taking]

theorem Counters.before_assertion (k : Counters) :
    k.Before { k with asserts := k.asserts + 1 } := by
  intro family
  cases family <;> simp [Counters.count]

theorem Counters.before_loop (k : Counters) : k.Before { k with loops := k.loops + 1 } := by
  intro family
  cases family <;> simp [Counters.count]

theorem Counters.before_choice (k : Counters) : k.Before { k with ifs := k.ifs + 1 } := by
  intro family
  cases family <;> simp [Counters.count]

namespace Place

/-- The number of the place was given out between the counters. -/
def Between (k k' : Counters) : Place → Prop
  | .point family n _ => k.count family ≤ n ∧ n < k'.count family
  | .entry _ => False

/-- An underscore, and characters that a name can go on with. -/
def isEnding (ending : String) : Bool :=
  ending.toList.head? == some '_' && ending.toList.all Text.continuesName

def Formed : Place → Prop
  | .point _ _ ending => isEnding ending = true
  | .entry _ => True

theorem Between.mono {k k' k₁ k₁' : Counters} {l : Place} (h : l.Between k k')
    (hk : k₁.Before k) (hk' : k'.Before k₁') : l.Between k₁ k₁' := by
  cases l with
  | point family n ending => exact ⟨(hk family).trans h.1, h.2.trans_le (hk' family)⟩
  | entry f => exact h

theorem Between.not_between {k k' k'' : Counters} {l : Place} (h : l.Between k k') :
    ¬ l.Between k' k'' := by
  cases l with
  | point family n ending => exact fun h' => Nat.not_lt_of_le h'.1 h.2
  | entry f => exact h.elim

end Place

/-! ## Joining marks -/

open Mark

/-- The marks are sound.  Their places are those owned and others with numbers between
the counters, and their branches stay among the places or go to `outer`. -/
structure Fits (own : List Place) (k k' : Counters) (outer : List Place) (marks : List Mark) :
    Prop where
  before : k.Before k'
  sound : marks.all isSound = true
  branches : ∀ l ∈ branches marks, l ∈ places marks ∨ l ∈ outer
  places : ∃ inner, (places marks).Perm (own ++ inner) ∧ inner.Nodup ∧
    ∀ l ∈ inner, l.Between k k' ∧ l.Formed

namespace Fits

variable {own own' outer outer' : List Place} {k k' k'' : Counters} {marks marks' : List Mark}

/-- Marks whose places are all owned. -/
theorem straight (hplaces : Mark.places marks = own)
    (hbranches : Mark.branches marks ⊆ own ++ outer)
    (hsound : marks.all isSound = true) : Fits own k k outer marks := by
  refine ⟨.refl _, hsound, ?_, [], by simp [hplaces], List.nodup_nil, by simp⟩
  intro l hl
  rw [hplaces]
  exact List.mem_append.1 (hbranches hl)

theorem append (h : Fits own k k' outer marks) (h' : Fits own' k' k'' outer marks') :
    Fits (own ++ own') k k'' outer (marks ++ marks') := by
  obtain ⟨inner, hperm, hnodup, hinner⟩ := h.places
  obtain ⟨inner', hperm', hnodup', hinner'⟩ := h'.places
  refine ⟨h.before.trans h'.before, ?_, ?_, inner ++ inner', ?_, ?_, ?_⟩
  · simp only [List.all_append, h.sound, h'.sound, Bool.and_self]
  · intro l hl
    simp only [branches_append, List.mem_append] at hl
    simp only [places_append, List.mem_append]
    rcases hl with hl | hl
    · exact (h.branches l hl).imp_left .inl
    · exact (h'.branches l hl).imp_left .inr
  · rw [places_append]
    refine (hperm.append hperm').trans (List.perm_iff_count.2 fun l => ?_)
    simp only [List.count_append]
    omega
  · refine List.nodup_append'.2 ⟨hnodup, hnodup', fun l hl hl' => ?_⟩
    exact (hinner l hl).1.not_between (hinner' l hl').1
  · intro l hl
    rcases List.mem_append.1 hl with hl | hl
    · exact ⟨(hinner l hl).1.mono (.refl _) h'.before, (hinner l hl).2⟩
    · exact ⟨(hinner' l hl).1.mono h.before (.refl _), (hinner' l hl).2⟩

theorem join (h : Fits [] k k' outer marks) (h' : Fits [] k' k'' outer marks') :
    Fits [] k k'' outer (marks ++ marks') :=
  h.append h'

/-- The owned places are given back once their own numbers are counted. -/
theorem close (h : Fits own k' k'' outer' marks) (houter : outer' ⊆ own ++ outer)
    (hbefore : k.Before k') (hnodup : own.Nodup)
    (hown : ∀ l ∈ own, l.Between k k' ∧ l.Formed) : Fits [] k k'' outer marks := by
  obtain ⟨inner, hperm, hinnerNodup, hinner⟩ := h.places
  refine ⟨hbefore.trans h.before, h.sound, ?_, own ++ inner, hperm, ?_, ?_⟩
  · intro l hl
    rcases h.branches l hl with hl | hl
    · exact .inl hl
    · exact (List.mem_append.1 (houter hl)).imp_left fun hl =>
        hperm.mem_iff.2 (List.mem_append_left _ hl)
  · refine List.nodup_append'.2 ⟨hnodup, hinnerNodup, fun l hl hl' => ?_⟩
    exact (hown l hl).1.not_between (hinner l hl').1
  · intro l hl
    rcases List.mem_append.1 hl with hl | hl
    · exact ⟨(hown l hl).1.mono (.refl _) h.before, (hown l hl).2⟩
    · exact ⟨(hinner l hl).1.mono hbefore (.refl _), (hinner l hl).2⟩

theorem widen (h : Fits own k k' outer marks) (hsubset : outer ⊆ outer') :
    Fits own k k' outer' marks :=
  ⟨h.before, h.sound, fun l hl => (h.branches l hl).imp_right fun hl => hsubset hl, h.places⟩

/-- Numbers may be taken for cells alone. -/
theorem later (h : Fits own k k' outer marks) (hbefore : k'.Before k'') :
    Fits own k k'' outer marks := by
  obtain ⟨inner, hperm, hnodup, hinner⟩ := h.places
  exact ⟨h.before.trans hbefore, h.sound, h.branches, inner, hperm, hnodup, fun l hl =>
    ⟨(hinner l hl).1.mono (.refl _) hbefore, (hinner l hl).2⟩⟩

theorem nil (k : Counters) (outer : List Place) : Fits [] k k outer [] :=
  straight rfl (by simp [Mark.branches]) rfl

theorem refused (k : Counters) (outer : List Place) : Fits [] k k outer [.refused] :=
  straight rfl (List.nil_subset _) rfl

/-- Places of one construct are given back once its number is counted. -/
theorem closeAt (family : Family) (n : Nat) (endings : List String)
    (h : Fits (endings.map (.point family n)) k' k'' outer' marks)
    (houter : outer' ⊆ endings.map (.point family n) ++ outer) (hbefore : k.Before k')
    (hle : k.count family ≤ n) (hlt : n < k'.count family) (hnodup : endings.Nodup)
    (hendings : endings.all Place.isEnding = true) : Fits [] k k'' outer marks := by
  refine h.close houter hbefore ?_ ?_
  · refine hnodup.map fun a b hab => ?_
    simpa using hab
  · intro l hl
    obtain ⟨ending, hending, rfl⟩ := List.mem_map.1 hl
    exact ⟨⟨hle, hlt⟩, List.all_eq_true.1 hendings ending hending⟩

end Fits

/-! ## Operators -/

namespace Mark

variable {k : Counters} {outer : List Place}

theorem select_fits (branch : Opcode) (whenTaken : Bool) (hbranch : branch.isBranch = true) :
    Fits [] k (k.taking 1) outer (select k.temporaries branch whenTaken) := by
  have hsound : (select k.temporaries branch whenTaken).all isSound = true := by
    cases branch <;> simp_all [select, isSound, isSimple, Opcode.isBranch, Cell.isLiteral]
  refine .closeAt .temporary k.temporaries [if whenTaken then "_true" else "_false", "_end"]
    (.straight rfl (List.subset_append_of_subset_left _ ?_) hsound) (List.nil_subset _) (k.before_taking 1)
    (Nat.le_refl _) (Nat.lt_succ_self _) ?_ ?_
  · simp [select]
  · cases whenTaken <;> decide
  · cases whenTaken <;> decide

theorem compare_fits (a b : Cell) (branch : Opcode) (whenTaken : Bool)
    (hbranch : branch.isBranch = true) :
    Fits [] k (k.taking 1) outer (compare a b k.temporaries branch whenTaken) := by
  have hdifference : Fits [] k k outer [lda a, sub b] := .straight rfl (by simp) rfl
  exact hdifference.join (select_fits branch whenTaken hbranch)

/-- The operators below have all their places at one temporary. -/
theorem block_fits {marks : List Mark} (i count : Nat) (hi : i < count) (endings : List String)
    (hplaces : places marks = endings.map (spot (k.temporaries + i)))
    (hbranches : branches marks ⊆ endings.map (spot (k.temporaries + i)))
    (hsound : marks.all isSound = true) (hnodup : endings.Nodup)
    (hendings : endings.all Place.isEnding = true) :
    Fits [] k (k.taking count) outer marks :=
  .closeAt .temporary (k.temporaries + i) endings
    (.straight hplaces (List.subset_append_of_subset_left _ hbranches) hsound) (List.nil_subset _)
    (k.before_taking count) (Nat.le_add_right _ _) (Nat.add_lt_add_left hi _) hnodup hendings

theorem multiply_fits (l r : Cell) (i count : Nat) (hi : i < count) (addend counter : Nat) :
    Fits [] k (k.taking count) outer (multiply l r (k.temporaries + i) addend counter) :=
  block_fits i count hi ["_start", "_end"] rfl
    (by simp [multiply, copy, sum, difference, anchor]) rfl (by decide) (by decide)

theorem floorDivMod_fits (l r : Cell) (count quotient remainder : Nat) (w : DivisionCells)
    (hcount : 0 < count) :
    Fits [] k (k.taking count) outer (floorDivMod l r quotient remainder w k.temporaries) :=
  block_fits 0 count hcount ["_lpos", "_rpos", "_start", "_sign", "_end"] rfl
    (by simp [floorDivMod, divisionOperands, divisionLoop, divisionSigns, magnitude, copy, sum,
      difference, anchor]) rfl (by decide) (by decide)

theorem power_fits (l r : Cell) :
    Fits [] k (k.taking 5) outer (power l r k.temporaries (k.temporaries + 1)
      (k.temporaries + 2) (k.temporaries + 3) (k.temporaries + 4)) := by
  let own := ["_outer", "_body", "_outer_end"].map (spot k.temporaries)
  have hhead : Fits [spot k.temporaries "_outer", spot k.temporaries "_body"] (k.taking 1)
      (k.taking 1) own (copy (.literal 1) (.temporary k.temporaries) ++
        copy r (.temporary (k.temporaries + 1)) ++
        [.place (spot k.temporaries "_outer"), lda (.temporary (k.temporaries + 1)),
          jump .brz (spot k.temporaries "_outer_end"), jump .brp (spot k.temporaries "_body"),
          jump .bra (spot k.temporaries "_outer_end"), .place (spot k.temporaries "_body")]) :=
    .straight rfl (by simp [own, copy]) rfl
  have hproduct : Fits [] (k.taking 1) (k.taking 5) own
      (multiply (.temporary k.temporaries) l (k.temporaries + 2) (k.temporaries + 3)
        (k.temporaries + 4)) :=
    multiply_fits _ l 1 4 (by decide) _ _
  have htail : Fits [spot k.temporaries "_outer_end"] (k.taking 5) (k.taking 5) own
      (copy (.temporary (k.temporaries + 2)) (.temporary k.temporaries) ++
        difference (.temporary (k.temporaries + 1)) (.literal 1) (.temporary (k.temporaries + 1)) ++
        [jump .bra (spot k.temporaries "_outer")] ++
        anchor (spot k.temporaries "_outer_end")) :=
    .straight rfl (by simp [own, copy, difference, anchor]) rfl
  have hall := (hhead.append hproduct).append htail
  refine .closeAt .temporary k.temporaries ["_outer", "_body", "_outer_end"] ?_
    (List.subset_append_left own _) (k.before_taking 1) (Nat.le_refl _) (Nat.lt_succ_self _)
    (by decide) (by decide)
  simpa [power] using hall

theorem combine_fits (op : BinaryOp) (l r : Cell) :
    Fits [] k (k.taking (temporariesOf op)) outer (combine op l r k.temporaries) := by
  cases op with
  | add => exact block_fits 0 1 Nat.one_pos [] rfl (by simp [combine, sum]) rfl .nil rfl
  | sub => exact block_fits 0 1 Nat.one_pos [] rfl (by simp [combine, difference]) rfl .nil rfl
  | mul => exact multiply_fits l r 0 3 (by decide) _ _
  | div => exact floorDivMod_fits l r 6 _ _ _ (by decide)
  | mod => exact floorDivMod_fits l r 6 _ _ _ (by decide)
  | pow => exact power_fits l r
  | lt => exact compare_fits l r .brp false rfl
  | gt => exact compare_fits r l .brp false rfl
  | ltEq => exact compare_fits r l .brp true rfl
  | gtEq => exact compare_fits l r .brp true rfl
  | eq => exact compare_fits r l .brz true rfl
  | notEq => exact compare_fits l r .brz false rfl
  | and => exact (Fits.nil _ _).later (k.before_taking _)
  | or => exact (Fits.nil _ _).later (k.before_taking _)

end Mark

/-! ## Expressions -/

section Expressions

variable {k : Counters} {vars : String → Cell} {left right : Emitted Cell}

theorem conjunction_fits {outer : List Place}
    (hl : ∀ outer, Fits [] (k.taking 1) left.counters outer left.marks)
    (hr : ∀ outer, Fits [] left.counters right.counters outer right.marks) :
    Fits [] k right.counters outer (emitConjunction k.temporaries left right).marks := by
  let own := ["_false", "_end"].map (spot k.temporaries)
  have htest : Fits [] left.counters left.counters own
      [lda left.result, jump .brz (spot k.temporaries "_false")] :=
    .straight rfl (by simp [own]) rfl
  have htail : Fits own right.counters right.counters own
      [lda right.result, jump .brz (spot k.temporaries "_false"), lda (.literal 1),
        jump .bra (spot k.temporaries "_end"), .place (spot k.temporaries "_false"),
        lda (.literal 0), .place (spot k.temporaries "_end"), sta (.temporary k.temporaries)] :=
    .straight rfl (by simp [own]) rfl
  exact .closeAt .temporary k.temporaries ["_false", "_end"]
    ((((hl own).append htest).append (hr own)).append htail) (List.subset_append_left own _)
    (k.before_taking 1) (Nat.le_refl _) (Nat.lt_succ_self _) (by decide) (by decide)

theorem disjunction_fits {outer : List Place}
    (hl : ∀ outer, Fits [] (k.taking 1) left.counters outer left.marks)
    (hr : ∀ outer, Fits [] left.counters right.counters outer right.marks) :
    Fits [] k right.counters outer (emitDisjunction k.temporaries left right).marks := by
  let own := ["_right", "_true", "_false", "_end"].map (spot k.temporaries)
  have htest : Fits [spot k.temporaries "_right"] left.counters left.counters own
      [lda left.result, jump .brz (spot k.temporaries "_right"),
        jump .bra (spot k.temporaries "_true"), .place (spot k.temporaries "_right")] :=
    .straight rfl (by simp [own]) rfl
  have htail : Fits (["_true", "_false", "_end"].map (spot k.temporaries)) right.counters
      right.counters own
      [lda right.result, jump .brz (spot k.temporaries "_false"),
        .place (spot k.temporaries "_true"), lda (.literal 1),
        jump .bra (spot k.temporaries "_end"), .place (spot k.temporaries "_false"),
        lda (.literal 0), .place (spot k.temporaries "_end"), sta (.temporary k.temporaries)] :=
    .straight rfl (by simp [own]) rfl
  exact .closeAt .temporary k.temporaries ["_right", "_true", "_false", "_end"]
    ((((hl own).append htest).append (hr own)).append htail) (List.subset_append_left own _)
    (k.before_taking 1) (Nat.le_refl _) (Nat.lt_succ_self _) (by decide) (by decide)

theorem assertion_fits {outer : List Place} {condition : Emitted Cell}
    (hcondition : ∀ outer, Fits [] { k with asserts := k.asserts + 1 } condition.counters outer
      condition.marks) :
    Fits [] k condition.counters outer (emitAssertion k.asserts condition).marks := by
  let own := ["_fail", "_ok"].map (Place.point .assertion k.asserts)
  have htail : Fits own condition.counters condition.counters own
      ([lda condition.result, jump .brz (.point .assertion k.asserts "_fail"),
        jump .bra (.point .assertion k.asserts "_ok"),
        .place (.point .assertion k.asserts "_fail"), bare .hlt] ++
        anchor (.point .assertion k.asserts "_ok")) :=
    .straight rfl (by simp [own, anchor]) rfl
  have hall : Fits own { k with asserts := k.asserts + 1 } condition.counters own
      (emitAssertion k.asserts condition).marks := by
    simpa [emitAssertion] using (hcondition own).append htail
  exact .closeAt .assertion k.asserts ["_fail", "_ok"] hall (List.subset_append_left own _)
    k.before_assertion (Nat.le_refl _) (Nat.lt_succ_self _) (by decide) (by decide)

theorem chars_fits (chars : List Char) (k : Counters) (outer : List Place) :
    Fits [] k k outer (chars.flatMap emitChar) := by
  induction chars with
  | nil => exact .nil k outer
  | cons c rest ih => exact .join (.straight rfl (by simp [emitChar]) rfl) ih

mutual

theorem Expr.emit_fits (e : Expr) (k : Counters) (outer : List Place) :
    Fits [] k (e.emit vars k).counters outer (e.emit vars k).marks := by
  cases e with
  | integer value => exact .nil k outer
  | bool value => exact .nil k outer
  | text content => exact .refused k outer
  | name word => exact .nil k outer
  | group inner => exact Expr.emit_fits inner k outer
  | unary op operand =>
      have hoperand := Expr.emit_fits operand k outer
      cases op with
      | neg =>
          have hdifference : Fits [] (operand.emit vars k).counters (operand.emit vars k).counters
              outer (difference (.literal 0) (operand.emit vars k).result
                (.temporary (operand.emit vars k).counters.temporaries)) :=
            .straight rfl (by simp [difference]) rfl
          exact hoperand.join (hdifference.later (Counters.before_taking _ 1))
      | not =>
          have hload : Fits [] (operand.emit vars k).counters (operand.emit vars k).counters
              outer [lda (operand.emit vars k).result] :=
            .straight rfl (by simp) rfl
          exact hoperand.join (hload.join (select_fits .brz true rfl))
  | binary left op right =>
      by_cases hand : op = .and
      · subst hand
        exact conjunction_fits (Expr.emit_fits left _) (Expr.emit_fits right _)
      by_cases hor : op = .or
      · subst hor
        exact disjunction_fits (Expr.emit_fits left _) (Expr.emit_fits right _)
      rw [Expr.emit]
      · exact ((Expr.emit_fits left k outer).join (Expr.emit_fits right _ outer)).join
          (combine_fits op _ _)
      all_goals assumption
  | call callee args =>
      unfold Expr.emit
      split
      · refine (Expr.emitPrinted_fits args k outer).join ?_
        split
        · exact .straight rfl (by simp [emitChar]) rfl
        · exact .nil _ _
      split
      · have hinput : Fits [] k k outer [bare .inp, sta (.temporary k.temporaries)] :=
          .straight rfl (by simp) rfl
        split
        · exact hinput.later (k.before_taking 1)
        · exact .refused k outer
      split
      · split
        · exact assertion_fits (Expr.emit_fits _ _)
        · exact .refused k outer
      · have hcall : Fits [] (Expr.emitAll vars args k).counters (Expr.emitAll vars args k).counters
            outer [.call callee (Expr.emitAll vars args k).result
              (.temporary (Expr.emitAll vars args k).counters.temporaries)] :=
          .straight rfl (List.nil_subset _) rfl
        exact (Expr.emitAll_fits args k outer).join (hcall.later (Counters.before_taking _ 1))

theorem Expr.emitAll_fits (es : List Expr) (k : Counters) (outer : List Place) :
    Fits [] k (Expr.emitAll vars es k).counters outer (Expr.emitAll vars es k).marks := by
  cases es with
  | nil => exact .nil k outer
  | cons e rest => exact (Expr.emit_fits e k outer).join (Expr.emitAll_fits rest _ outer)

theorem Expr.emitPrinted_fits (es : List Expr) (k : Counters) (outer : List Place) :
    Fits [] k (Expr.emitPrinted vars es k).counters outer (Expr.emitPrinted vars es k).marks := by
  cases es with
  | nil => exact .nil k outer
  | cons e rest =>
      by_cases htext : ∃ content, e = .text content
      · obtain ⟨content, rfl⟩ := htext
        exact (chars_fits content.toList k outer).join (Expr.emitPrinted_fits rest k outer)
      · rw [Expr.emitPrinted]
        · have hput : Fits [] (e.emit vars k).counters (e.emit vars k).counters outer
              [lda (e.emit vars k).result, bare .out] :=
            .straight rfl (by simp) rfl
          exact ((Expr.emit_fits e k outer).join hput).join (Expr.emitPrinted_fits rest _ outer)
        · exact fun content h => htext ⟨content, h⟩

end

end Expressions

/-! ## Statements -/

section Statements

variable {vars : String → Cell}

/-- The places of the innermost loop that a statement may go to. -/
def LoopPlaces.around (loop : Option LoopPlaces) : List Place :=
  loop.elim [] fun loop => [loop.done, loop.next]

theorem branchIfFalse_fits {condition : Emitted Cell} {k : Counters} {onFalse : Place}
    {outer : List Place} (h : ∀ outer, Fits [] k condition.counters outer condition.marks)
    (hmem : onFalse ∈ outer) :
    Fits [] k condition.counters outer (emitBranchIfFalse condition onFalse) :=
  (h outer).join (.straight rfl (by simpa using hmem) rfl)

theorem copy_fits (source : Cell) {dest : Cell} {k : Counters} {outer : List Place}
    (hdest : dest.isLiteral = false) : Fits [] k k outer (copy source dest) :=
  .straight rfl (by simp [copy]) (by simp [copy, isSound, isSimple, hdest])

theorem anchor_fits (l : Place) {k : Counters} {outer : List Place} :
    Fits [l] k k outer (anchor l) :=
  .straight rfl (by simp [anchor]) rfl

theorem jump_fits {l : Place} {k : Counters} {outer : List Place} (hmem : l ∈ outer) :
    Fits [] k k outer [jump .bra l] :=
  .straight rfl (by simpa using hmem) rfl

theorem count_fits {counter : Cell} {bound n : Nat} {k : Counters} {outer : List Place}
    (hcounter : counter.isLiteral = false) (hmem : .point .loop n "_start" ∈ outer) :
    Fits [.point .loop n "_step", .point .loop n "_end"] k k outer
      (emitCount counter bound n) :=
  .straight rfl (by simpa [emitCount, sum, anchor] using hmem)
    (by simp [emitCount, sum, anchor, isSound, isSimple, hcounter])

/-- A loop takes a number, and its places are given back. -/
theorem loop_fits {k k' : Counters} {marks : List Mark} {outer : List Place}
    (endings : List String) (hnodup : endings.Nodup)
    (hendings : endings.all Place.isEnding = true)
    (h : Fits (endings.map (.point .loop k.loops)) { k with loops := k.loops + 1 } k'
      (endings.map (.point .loop k.loops)) marks) : Fits [] k k' outer marks := by
  exact .closeAt .loop k.loops endings h (List.subset_append_left _ _) k.before_loop
    (Nat.le_refl _) (Nat.lt_succ_self _) hnodup hendings

section Loops

variable {k : Counters} {x y : Emitted Cell} {body : Emitted Unit} {outer : List Place}

theorem whileLoop_fits
    (hx : ∀ outer, Fits [] { k with loops := k.loops + 1 } x.counters outer x.marks)
    (hbody : Fits [] x.counters body.counters (LoopPlaces.around (some ⟨k.loops, "_start"⟩))
      body.marks) :
    Fits [] k body.counters outer
      (anchor (.point .loop k.loops "_start") ++
        emitBranchIfFalse x (.point .loop k.loops "_end") ++ body.marks ++
        [jump .bra (.point .loop k.loops "_start")] ++ anchor (.point .loop k.loops "_end")) := by
  let own := ["_start", "_end"].map (Place.point .loop k.loops)
  have hinside : LoopPlaces.around (some ⟨k.loops, "_start"⟩) ⊆ own := by
    simp [own, LoopPlaces.around, LoopPlaces.done, LoopPlaces.next]
  have htest := branchIfFalse_fits hx (show .point .loop k.loops "_end" ∈ own by simp [own])
  have htop := (anchor_fits (.point .loop k.loops "_start")).append htest
  have hagain := (htop.append (hbody.widen hinside)).append
    (jump_fits (show .point .loop k.loops "_start" ∈ own by simp [own]))
  exact loop_fits ["_start", "_end"] (by decide) (by decide) (hagain.append (anchor_fits _))

theorem untilLoop_fits
    (hbody : Fits [] { k with loops := k.loops + 1 } body.counters
      (LoopPlaces.around (some ⟨k.loops, "_cond"⟩)) body.marks)
    (hx : ∀ outer, Fits [] body.counters x.counters outer x.marks) :
    Fits [] k x.counters outer
      (anchor (.point .loop k.loops "_start") ++ body.marks ++
        anchor (.point .loop k.loops "_cond") ++
        emitBranchIfFalse x (.point .loop k.loops "_start") ++
        anchor (.point .loop k.loops "_end")) := by
  let own := ["_start", "_cond", "_end"].map (Place.point .loop k.loops)
  have hinside : LoopPlaces.around (some ⟨k.loops, "_cond"⟩) ⊆ own := by
    simp [own, LoopPlaces.around, LoopPlaces.done, LoopPlaces.next]
  have htest := branchIfFalse_fits hx (show .point .loop k.loops "_start" ∈ own by simp [own])
  have htop := (anchor_fits (.point .loop k.loops "_start")).append (hbody.widen hinside)
  have hagain := (htop.append (anchor_fits (.point .loop k.loops "_cond"))).append htest
  exact loop_fits ["_start", "_cond", "_end"] (by decide) (by decide)
    (hagain.append (anchor_fits _))

theorem forLoop_fits {var : Cell} (hvar : var.isLiteral = false)
    (hx : ∀ outer, Fits [] { k with loops := k.loops + 1 } x.counters outer x.marks)
    (hy : ∀ outer, Fits [] x.counters y.counters outer y.marks)
    (hbody : Fits [] (y.counters.taking 1) body.counters
      (LoopPlaces.around (some ⟨k.loops, "_step"⟩)) body.marks) :
    Fits [] k body.counters outer
      (x.marks ++ copy x.result var ++ y.marks ++
        copy y.result (.temporary y.counters.temporaries) ++
        anchor (.point .loop k.loops "_start") ++ body.marks ++
        emitCount var y.counters.temporaries k.loops) := by
  let own := ["_start", "_step", "_end"].map (Place.point .loop k.loops)
  have hinside : LoopPlaces.around (some ⟨k.loops, "_step"⟩) ⊆ own := by
    simp [own, LoopPlaces.around, LoopPlaces.done, LoopPlaces.next]
  have hbound : Fits [] y.counters (y.counters.taking 1) own
      (copy y.result (.temporary y.counters.temporaries)) :=
    (copy_fits y.result rfl).later (y.counters.before_taking 1)
  have hmem : .point .loop k.loops "_start" ∈ own := by simp [own]
  have hstart := (((hx own).append (copy_fits x.result hvar)).append (hy own)).append hbound
  have hpass := (hstart.append (anchor_fits (.point .loop k.loops "_start"))).append
    (hbody.widen hinside)
  exact loop_fits ["_start", "_step", "_end"] (by decide) (by decide)
    (hpass.append (count_fits hvar hmem))

end Loops

/-- The endings of the arms of a choice from number `i` on. -/
def armEndings (i count : Nat) : List String :=
  (List.range' i count).map fun j => "_" ++ toString j

theorem toList_armEnding (j : Nat) : ("_" ++ toString j).toList = '_' :: Nat.toDigits 10 j := by
  simp

theorem nodup_armEndings (i count : Nat) : (armEndings i count).Nodup := by
  refine List.Nodup.map (fun a b hab => ?_) (List.nodup_range' (s := i) (n := count))
  have hdigits := congrArg String.toList hab
  simp only [toList_armEnding, List.cons.injEq, true_and] at hdigits
  exact Numeral.toDigits_injective hdigits

theorem continuesName_of_isDigit {c : Char} (h : c.isDigit = true) :
    Text.continuesName c = true := by
  have hascii : Text.isAscii c = true := by
    simp only [Char.isDigit, Bool.and_eq_true, decide_eq_true_eq] at h
    have hle : c.val.toNat ≤ 57 := UInt32.le_iff_toNat_le.1 h.2
    have hnat : c.toNat ≤ 57 := hle
    simp only [Text.isAscii, decide_eq_true_eq]
    omega
  simp [Text.continuesName, Text.isNumber, hascii, h]

theorem isEnding_armEndings (i count : Nat) : (armEndings i count).all Place.isEnding = true := by
  refine List.all_eq_true.2 fun ending hending => ?_
  obtain ⟨j, -, rfl⟩ := List.mem_map.1 hending
  have hdigits : (Nat.toDigits 10 j).all Text.continuesName = true :=
    List.all_eq_true.2 fun c hc =>
      continuesName_of_isDigit (Nat.isDigit_of_mem_toDigits (by decide) (by decide) hc)
  simp only [Place.isEnding, toList_armEnding, List.all_cons, hdigits, List.head?_cons]
  rfl

/-- The endings that are words stand apart from those that are numbers. -/
theorem not_mem_armEndings {i count : Nat} {ending : String} {c : Char} {tail : List Char}
    (hending : ending.toList = '_' :: c :: tail) (hc : c.isDigit = false) :
    ending ∉ armEndings i count := by
  intro hmem
  obtain ⟨j, -, hj⟩ := List.mem_map.1 hmem
  have hdigits := congrArg String.toList hj
  rw [toList_armEnding, hending, List.cons.injEq] at hdigits
  have hmem : c ∈ Nat.toDigits 10 j := by simp [hdigits.2]
  exact Bool.false_ne_true (hc.symm.trans
    (Nat.isDigit_of_mem_toDigits (by decide) (by decide) hmem))

section Choices

variable {k : Counters} {arms body : Emitted Unit} {count : Nat} {outer : List Place}

/-- A choice takes a number, and its places are given back: those of its arms, of its last
alternative if it has one, and its end. -/
theorem choice_fits {k' : Counters} {marks : List Mark} (words : List String)
    (hwords : words.Sublist ["_else", "_end"])
    (h : Fits ((armEndings 0 count ++ words).map (.point .choice k.ifs))
      { k with ifs := k.ifs + 1 } k'
      ((armEndings 0 count ++ words).map (.point .choice k.ifs) ++ outer) marks) :
    Fits [] k k' outer marks := by
  have hnodup : (armEndings 0 count ++ words).Nodup := by
    refine List.nodup_append'.2 ⟨nodup_armEndings 0 count, hwords.nodup (by decide), ?_⟩
    intro ending harm hword
    have hmem := hwords.subset hword
    simp only [List.mem_cons, List.not_mem_nil, or_false] at hmem
    rcases hmem with rfl | rfl
    · exact not_mem_armEndings (c := 'e') rfl rfl harm
    · exact not_mem_armEndings (c := 'e') rfl rfl harm
  have hendings : (armEndings 0 count ++ words).all Place.isEnding = true := by
    rw [List.all_append, isEnding_armEndings, Bool.true_and]
    have hboth : ["_else", "_end"].all Place.isEnding = true := by decide
    exact List.all_eq_true.2 fun ending hmem =>
      List.all_eq_true.1 hboth ending (hwords.subset hmem)
  exact .closeAt .choice k.ifs (armEndings 0 count ++ words) h (List.Subset.refl _)
    k.before_choice (Nat.le_refl _) (Nat.lt_succ_self _) hnodup hendings

theorem otherwise_fits
    (harms : Fits ((armEndings 0 count).map (.point .choice k.ifs)) { k with ifs := k.ifs + 1 }
      arms.counters
      ((armEndings 0 count ++ ["_else", "_end"]).map (.point .choice k.ifs) ++ outer) arms.marks)
    (hbody : Fits [] arms.counters body.counters outer body.marks) :
    Fits [] k body.counters outer
      (arms.marks ++ anchor (.point .choice k.ifs "_else") ++ body.marks ++
        anchor (.point .choice k.ifs "_end")) := by
  have hown : (armEndings 0 count).map (Place.point .choice k.ifs) ++
      [.point .choice k.ifs "_else"] ++ [] ++ [.point .choice k.ifs "_end"] =
      (armEndings 0 count ++ ["_else", "_end"]).map (Place.point .choice k.ifs) := by
    simp
  have hbody' := hbody.widen (List.subset_append_right
    ((armEndings 0 count ++ ["_else", "_end"]).map (.point .choice k.ifs)) outer)
  have hall := ((harms.append (anchor_fits (.point .choice k.ifs "_else"))).append hbody').append
    (anchor_fits (.point .choice k.ifs "_end"))
  exact choice_fits ["_else", "_end"] (List.Sublist.refl _) (hown ▸ hall)

theorem alone_fits
    (harms : Fits ((armEndings 0 count).map (.point .choice k.ifs)) { k with ifs := k.ifs + 1 }
      arms.counters
      ((armEndings 0 count ++ ["_end"]).map (.point .choice k.ifs) ++ outer) arms.marks) :
    Fits [] k arms.counters outer (arms.marks ++ anchor (.point .choice k.ifs "_end")) := by
  have hall := harms.append (anchor_fits (.point .choice k.ifs "_end"))
  rw [← List.map_singleton, ← List.map_append] at hall
  exact choice_fits ["_end"] (by decide) hall

end Choices

mutual

theorem Stmt.emit_fits (hvars : ∀ x, (vars x).isLiteral = false) (loop : Option LoopPlaces)
    (stmt : Stmt) (k : Counters) :
    Fits [] k (Stmt.emit vars loop stmt k).counters (LoopPlaces.around loop)
      (Stmt.emit vars loop stmt k).marks := by
  match stmt with
  | .assign name value => exact (value.emit_fits k _).join (copy_fits _ (hvars name))
  | .choose arms (some body) =>
      refine otherwise_fits (Stmt.emitArms_fits hvars loop k.ifs _ 0 arms _
        (List.subset_append_right _ _) ?_ ?_ ?_) (Stmt.emitBlock_fits hvars loop body _)
      · simp
      · simp
      · rw [List.map_append, List.append_assoc]
        exact List.subset_append_left _ _
  | .choose arms none =>
      refine alone_fits (Stmt.emitArms_fits hvars loop k.ifs _ 0 arms _
        (List.subset_append_right _ _) ?_ ?_ ?_)
      · simp
      · simp
      · rw [List.map_append, List.append_assoc]
        exact List.subset_append_left _ _
  | .whileLoop condition body =>
      exact whileLoop_fits (condition.emit_fits _) (Stmt.emitBlock_fits hvars _ body _)
  | .untilLoop body condition =>
      exact untilLoop_fits (Stmt.emitBlock_fits hvars _ body _) (condition.emit_fits _)
  | .forLoop var first last body closing =>
      unfold Stmt.emit
      split
      · exact forLoop_fits (hvars var) (first.emit_fits _) (last.emit_fits _)
          (Stmt.emitBlock_fits hvars _ body _)
      · exact .refused k _
  | .switch .. => exact .refused k _
  | .function .. => exact .refused k _
  | .giveBack (some value) =>
      have hreturn : Fits [] (value.emit vars k).counters (value.emit vars k).counters
          (LoopPlaces.around loop)
          [emitReturn (value.emit vars k).result (value.emit vars k).counters.temporaries] :=
        .straight rfl (List.nil_subset _) rfl
      exact (value.emit_fits k _).join (hreturn.later (Counters.before_taking _ 1))
  | .giveBack none =>
      have hreturn : Fits [] k k (LoopPlaces.around loop) [emitReturn (.literal 0) k.temporaries] :=
        .straight rfl (List.nil_subset _) rfl
      exact hreturn.later (k.before_taking 1)
  | .leaveLoop =>
      cases loop with
      | none => exact .refused k _
      | some loop => exact .straight rfl (by simp [LoopPlaces.around, Stmt.emit]) rfl
  | .nextPass =>
      cases loop with
      | none => exact .refused k _
      | some loop => exact .straight rfl (by simp [LoopPlaces.around, Stmt.emit]) rfl
  | .evaluate value => exact value.emit_fits k _

theorem Stmt.emitBlock_fits (hvars : ∀ x, (vars x).isLiteral = false) (loop : Option LoopPlaces)
    (block : List Stmt) (k : Counters) :
    Fits [] k (Stmt.emitBlock vars loop block k).counters (LoopPlaces.around loop)
      (Stmt.emitBlock vars loop block k).marks := by
  match block with
  | [] => exact .nil k _
  | stmt :: rest =>
      exact (Stmt.emit_fits hvars loop stmt k).join (Stmt.emitBlock_fits hvars loop rest _)

theorem Stmt.emitArms_fits (hvars : ∀ x, (vars x).isLiteral = false) (loop : Option LoopPlaces)
    (n : Nat) (fallback : Place) (i : Nat) (arms : List (Expr × List Stmt)) (k : Counters)
    {outer : List Place} (houter : LoopPlaces.around loop ⊆ outer) (hfallback : fallback ∈ outer)
    (hend : .point .choice n "_end" ∈ outer)
    (harms : (armEndings i arms.length).map (.point .choice n) ⊆ outer) :
    Fits ((armEndings i arms.length).map (.point .choice n)) k
      (Stmt.emitArms vars loop n fallback i arms k).counters outer
      (Stmt.emitArms vars loop n fallback i arms k).marks := by
  match arms with
  | [] => exact .nil k _
  | (condition, body) :: rest =>
      have hown : (armEndings i (rest.length + 1)).map (Place.point .choice n) =
          .point .choice n ("_" ++ toString i) ::
            (armEndings (i + 1) rest.length).map (Place.point .choice n) := by
        simp [armEndings, List.range'_succ]
      simp only [List.length_cons, hown] at harms ⊢
      have hnext : (if rest.isEmpty then fallback
          else Place.point .choice n ("_" ++ toString (i + 1))) ∈ outer := by
        cases rest with
        | nil => simpa using hfallback
        | cons arm rest => exact harms (by simp [armEndings, List.range'_succ])
      have hcondition : ∀ outer, Fits [] k (condition.emit vars k).counters outer
          (condition.emit vars k).marks := condition.emit_fits k
      have htest := branchIfFalse_fits hcondition hnext
      have hbody := (Stmt.emitBlock_fits hvars loop body (condition.emit vars k).counters).widen
        houter
      have hhead := (((anchor_fits (.point .choice n ("_" ++ toString i))).append htest).append
        hbody).append (jump_fits hend)
      exact hhead.append (Stmt.emitArms_fits hvars loop n fallback (i + 1) rest _ houter hfallback
        hend fun l hl => harms (List.mem_cons_of_mem _ hl))

end

end Statements

/-! ## Places apart -/

namespace Mark

/-- Marks that neither begin nor end with a place, and keep their places apart. -/
def Closed (marks : List Mark) : Prop :=
  ∀ waiting, Spaced waiting marks ∧ pendingAfter waiting marks = (waiting && marks.isEmpty)

theorem closed_nil : Closed [] := by
  simp [Closed, Spaced, pendingAfter]

theorem closed_refused : Closed [.refused] := by
  simp [Closed, Spaced, pendingAfter]

theorem Closed.append {first second : List Mark} (h : Closed first) (h' : Closed second) :
    Closed (first ++ second) := by
  intro waiting
  rw [spaced_append, pendingAfter_append, (h waiting).2, (h' _).2]
  refine ⟨⟨(h waiting).1, (h' _).1⟩, ?_⟩
  cases first <;> simp

theorem combine_closed (op : BinaryOp) (l r : Cell) (n : Nat) : Closed (combine op l r n) := by
  intro waiting
  cases op <;> simp [combine, sum, difference, copy, anchor, multiply, floorDivMod,
    divisionOperands, divisionLoop, divisionSigns, magnitude, power, compare, select, Spaced,
    pendingAfter]

theorem conjunction_closed {left right : Emitted Cell} (hl : Closed left.marks)
    (hr : Closed right.marks) (n : Nat) : Closed (emitConjunction n left right).marks := by
  intro waiting
  simp [emitConjunction, spaced_append, pendingAfter_append, hl _, hr _, Spaced, pendingAfter]

theorem disjunction_closed {left right : Emitted Cell} (hl : Closed left.marks)
    (hr : Closed right.marks) (n : Nat) : Closed (emitDisjunction n left right).marks := by
  intro waiting
  simp [emitDisjunction, spaced_append, pendingAfter_append, hl _, hr _, Spaced, pendingAfter]

theorem assertion_closed {condition : Emitted Cell} (h : Closed condition.marks) (n : Nat) :
    Closed (emitAssertion n condition).marks := by
  intro waiting
  simp [emitAssertion, anchor, spaced_append, pendingAfter_append, h _, Spaced, pendingAfter]

theorem chars_closed (chars : List Char) : Closed (chars.flatMap emitChar) := by
  induction chars with
  | nil => exact closed_nil
  | cons c rest ih =>
      have hchar : Closed (emitChar c) := by
        simp [Closed, emitChar, Spaced, pendingAfter]
      exact hchar.append ih

end Mark

section Closed

variable {vars : String → Cell}

mutual

theorem Expr.emit_closed (e : Expr) (k : Counters) : Closed (e.emit vars k).marks := by
  cases e with
  | integer value => exact closed_nil
  | bool value => exact closed_nil
  | text content => exact closed_refused
  | name word => exact closed_nil
  | group inner => exact Expr.emit_closed inner k
  | unary op operand =>
      have hoperand : Closed (operand.emit vars k).marks := Expr.emit_closed operand k
      cases op with
      | neg => exact hoperand.append fun _ => by simp [difference, Spaced, pendingAfter]
      | not => exact hoperand.append fun _ => by simp [select, Spaced, pendingAfter]
  | binary left op right =>
      by_cases hand : op = .and
      · subst hand
        exact conjunction_closed (Expr.emit_closed left _) (Expr.emit_closed right _) _
      by_cases hor : op = .or
      · subst hor
        exact disjunction_closed (Expr.emit_closed left _) (Expr.emit_closed right _) _
      rw [Expr.emit]
      · exact ((Expr.emit_closed left k).append (Expr.emit_closed right _)).append
          (combine_closed op _ _ _)
      all_goals assumption
  | call callee args =>
      unfold Expr.emit
      split
      · refine (Expr.emitPrinted_closed args k).append ?_
        split
        · exact fun _ => by simp [emitChar, Spaced, pendingAfter]
        · exact closed_nil
      split
      · split
        · exact fun _ => by simp [Spaced, pendingAfter]
        · exact closed_refused
      split
      · split
        · exact assertion_closed (Expr.emit_closed _ _) _
        · exact closed_refused
      · exact (Expr.emitAll_closed args k).append fun _ => by simp [Spaced, pendingAfter]

theorem Expr.emitAll_closed (es : List Expr) (k : Counters) :
    Closed (Expr.emitAll vars es k).marks := by
  cases es with
  | nil => exact closed_nil
  | cons e rest => exact (Expr.emit_closed e k).append (Expr.emitAll_closed rest _)

theorem Expr.emitPrinted_closed (es : List Expr) (k : Counters) :
    Closed (Expr.emitPrinted vars es k).marks := by
  cases es with
  | nil => exact closed_nil
  | cons e rest =>
      by_cases htext : ∃ content, e = .text content
      · obtain ⟨content, rfl⟩ := htext
        exact (chars_closed content.toList).append (Expr.emitPrinted_closed rest k)
      · rw [Expr.emitPrinted]
        · have hput : Closed [lda (e.emit vars k).result, bare .out] :=
            fun _ => by simp [Spaced, pendingAfter]
          exact ((Expr.emit_closed e k).append hput).append (Expr.emitPrinted_closed rest _)
        · exact fun content h => htext ⟨content, h⟩

end

/-- Marks that may begin with a place but leave none waiting. -/
def Mark.Settled (marks : List Mark) : Prop :=
  Spaced false marks ∧ pendingAfter false marks = false

theorem Mark.Settled.append {first second : List Mark} (h : Settled first) (h' : Settled second) :
    Settled (first ++ second) := by
  refine ⟨spaced_append.2 ⟨h.1, ?_⟩, ?_⟩
  · rw [h.2]
    exact h'.1
  · rw [pendingAfter_append, h.2, h'.2]

theorem Mark.Closed.settled {marks : List Mark} (h : Closed marks) : Settled marks :=
  ⟨(h false).1, by simp [(h false).2]⟩

theorem settled_anchor (l : Place) : Settled (anchor l) := by
  simp [Settled, anchor, Spaced, pendingAfter]

theorem settled_copy (source dest : Cell) : Settled (copy source dest) := by
  simp [Settled, copy, Spaced, pendingAfter]

theorem settled_order (op : Opcode) (target : Target) : Settled [.order op target] := by
  simp [Settled, Spaced, pendingAfter]

theorem settled_branchIfFalse (condition : Expr) (k : Counters) (onFalse : Place) :
    Settled (emitBranchIfFalse (condition.emit vars k) onFalse) :=
  (condition.emit_closed k).settled.append (by simp [Settled, Spaced, pendingAfter])

mutual

theorem Stmt.emit_settled (loop : Option LoopPlaces) (stmt : Stmt) (k : Counters) :
    Settled (Stmt.emit vars loop stmt k).marks := by
  match stmt with
  | .assign name value => exact (value.emit_closed k).settled.append (settled_copy _ _)
  | .choose arms (some body) =>
      exact (((Stmt.emitArms_settled loop _ _ 0 arms _).append (settled_anchor _)).append
        (Stmt.emitBlock_settled loop body _)).append (settled_anchor _)
  | .choose arms none =>
      exact (Stmt.emitArms_settled loop _ _ 0 arms _).append (settled_anchor _)
  | .whileLoop condition body =>
      exact ((((settled_anchor _).append (settled_branchIfFalse condition _ _)).append
        (Stmt.emitBlock_settled _ body _)).append (settled_order _ _)).append (settled_anchor _)
  | .untilLoop body condition =>
      exact ((((settled_anchor _).append (Stmt.emitBlock_settled _ body _)).append
        (settled_anchor _)).append (settled_branchIfFalse condition _ _)).append
        (settled_anchor _)
  | .forLoop var first last body closing =>
      unfold Stmt.emit
      split
      · refine ((((((first.emit_closed _).settled.append (settled_copy _ _)).append
          (last.emit_closed _).settled).append (settled_copy _ _)).append
          (settled_anchor _)).append (Stmt.emitBlock_settled _ body _)).append ?_
        simp [Settled, emitCount, sum, anchor, Spaced, pendingAfter]
      · exact closed_refused.settled
  | .switch .. => exact closed_refused.settled
  | .function .. => exact closed_refused.settled
  | .giveBack (some value) =>
      refine (value.emit_closed k).settled.append ?_
      simp [Settled, emitReturn, Spaced, pendingAfter]
  | .giveBack none => simp [Settled, Stmt.emit, emitReturn, Spaced, pendingAfter]
  | .leaveLoop => cases loop <;> simp [Settled, Stmt.emit, Spaced, pendingAfter]
  | .nextPass => cases loop <;> simp [Settled, Stmt.emit, Spaced, pendingAfter]
  | .evaluate value => exact (value.emit_closed k).settled

theorem Stmt.emitBlock_settled (loop : Option LoopPlaces) (block : List Stmt) (k : Counters) :
    Settled (Stmt.emitBlock vars loop block k).marks := by
  match block with
  | [] => exact closed_nil.settled
  | stmt :: rest =>
      exact (Stmt.emit_settled loop stmt k).append (Stmt.emitBlock_settled loop rest _)

theorem Stmt.emitArms_settled (loop : Option LoopPlaces) (n : Nat) (fallback : Place) (i : Nat)
    (arms : List (Expr × List Stmt)) (k : Counters) :
    Settled (Stmt.emitArms vars loop n fallback i arms k).marks := by
  match arms with
  | [] => exact closed_nil.settled
  | (condition, body) :: rest =>
      exact ((((settled_anchor _).append (settled_branchIfFalse condition _ _)).append
        (Stmt.emitBlock_settled loop body _)).append (settled_order _ _)).append
        (Stmt.emitArms_settled loop n fallback (i + 1) rest _)

end

end Closed
end LittleMan
