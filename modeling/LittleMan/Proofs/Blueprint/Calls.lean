import LittleMan.Proofs.Blueprint.Sites

/-!
# Calls among marks

`Mark.picked` has the marks of a kind with their addresses.  Where the code of a statement
has a call of a function, the statement has a site for it.
-/

namespace LittleMan

open Mark

namespace Mark

/-- The marks of a kind, with the addresses at which they are laid. -/
def picked (pick : Mark → Bool) : List Mark → Nat → List (Nat × Mark)
  | [], _ => []
  | m :: rest, p =>
      if pick m then (p, m) :: picked pick rest (p + m.orders.length)
      else picked pick rest (p + m.orders.length)

variable {pick : Mark → Bool} {marks : List Mark} {m : Mark} {p a : Nat}

@[simp] theorem picked_nil : picked pick [] p = [] := rfl

@[simp] theorem picked_append (first second : List Mark) :
    picked pick (first ++ second) p =
      picked pick first p ++ picked pick second (p + width first) := by
  induction first generalizing p with
  | nil => rfl
  | cons m first ih =>
      rw [List.cons_append, picked, picked, ih, width_cons, Nat.add_assoc]
      split <;> rfl

theorem mem_picked : (a, m) ∈ picked pick marks p ↔
    pick m = true ∧ ∃ done rest, marks = done ++ m :: rest ∧ a = p + width done := by
  constructor
  · intro h
    induction marks generalizing p with
    | nil => cases h
    | cons first marks ih =>
        have hrest : (a, m) ∈ picked pick marks (p + first.orders.length) →
            pick m = true ∧ ∃ done rest, first :: marks = done ++ m :: rest ∧
              a = p + width done := by
          intro hmem
          obtain ⟨hpick, done, rest, rfl, rfl⟩ := ih hmem
          exact ⟨hpick, first :: done, rest, rfl, by rw [width_cons, Nat.add_assoc]⟩
        rw [picked] at h
        split at h
        next hpick =>
          rcases List.mem_cons.1 h with heq | hmem
          · obtain ⟨rfl, rfl⟩ := Prod.mk.inj heq
            exact ⟨hpick, [], marks, rfl, rfl⟩
          · exact hrest hmem
        next => exact hrest h
  · rintro ⟨hpick, done, rest, rfl, rfl⟩
    rw [picked_append, picked, if_pos hpick]
    exact List.mem_append_right _ List.mem_cons_self

def isCall : Mark → Bool
  | .call .. => true
  | _ => false

/-- A `LDAPC` is the first word of a call. -/
theorem isCall_of_ldaPc (hsound : m.isSound = true) {i : Nat} {target : Target}
    (h : m.orders[i]? = some (.ldaPc, target)) : m.isCall = true ∧ i = 0 := by
  have hmem := List.mem_of_getElem? h
  cases m with
  | place l => cases hmem
  | order op target' =>
      obtain ⟨rfl, rfl⟩ := Prod.mk.inj (List.mem_singleton.1 hmem)
      cases target <;> cases hsound
  | call callee args result =>
      refine ⟨rfl, ?_⟩
      cases i with
      | zero => rfl
      | succ i =>
          -- no other word of a call is a `LDAPC`
          have hlater := List.mem_of_getElem? (l := (Mark.call callee args result).orders.tail)
            (i := i) (by simpa using h)
          simp [orders, Mark.pushes] at hlater
  | giveBack value address => simp [orders] at hmem
  | receive params => simp [orders, Mark.pops] at hmem
  | refused => simp [orders] at hmem

end Mark

/-- The cell that the value of a call is stored into. -/
def Site.result (vars : String → Cell) (s : Site) : Cell :=
  .temporary (s.emitted vars).counters.temporaries

/-- A call in the marks. -/
def Site.entry? (vars : String → Cell) (s : Site) : Option (Nat × Mark) :=
  match s.operator with
  | .binary _ => none
  | .call callee => some (s.begins vars, .call callee (s.emitted vars).result (s.result vars))

/-- The calls among marks that are laid at an address are all among the sites. -/
def Covers (vars : String → Cell) (sites : List Site) (marks : List Mark) (p : Nat) : Prop :=
  ∀ entry ∈ picked isCall marks p, ∃ s ∈ sites, s.entry? vars = some entry

section Covers

variable {vars : String → Cell} {sites sites' : List Site} {marks : List Mark} {p q : Nat}

@[simp] theorem covers_append {first second : List Mark} :
    Covers vars sites (first ++ second) p ↔
      Covers vars sites first p ∧ Covers vars sites second (p + width first) := by
  simp [Covers, or_imp, forall_and]

@[simp] theorem covers_nil : Covers vars sites [] p := by
  simp [Covers]

@[simp] theorem covers_place {l : Place} :
    Covers vars sites (.place l :: marks) p ↔ Covers vars sites marks p := Iff.rfl

@[simp] theorem covers_order {op : Opcode} {target : Target} :
    Covers vars sites (.order op target :: marks) p ↔ Covers vars sites marks (p + 1) := Iff.rfl

@[simp] theorem covers_giveBack {value address : Cell} :
    Covers vars sites (.giveBack value address :: marks) p ↔ Covers vars sites marks (p + 6) :=
  Iff.rfl

theorem Covers.mono (h : Covers vars sites marks p) (hsub : sites ⊆ sites') :
    Covers vars sites' marks p := by
  intro entry hentry
  obtain ⟨s, hs, heq⟩ := h entry hentry
  exact ⟨s, hsub hs, heq⟩

theorem Covers.left (h : Covers vars sites marks p) : Covers vars (sites ++ sites') marks p :=
  h.mono (List.subset_append_left _ _)

theorem Covers.right (h : Covers vars sites marks p) : Covers vars (sites' ++ sites) marks p :=
  h.mono (List.subset_append_right _ _)

theorem Covers.cons {s : Site} (h : Covers vars sites marks p) :
    Covers vars (s :: sites) marks p :=
  h.mono (List.subset_cons_self _ _)

theorem Covers.at (h : Covers vars sites marks p) (hp : q = p) : Covers vars sites marks q :=
  hp ▸ h

theorem covers_combine (op : BinaryOp) (l r : Cell) (n : Nat) :
    Covers vars sites (combine op l r n) p := by
  have hnone : picked isCall (combine op l r n) p = [] := by cases op <;> rfl
  simp [Covers, hnone]

theorem covers_chars (chars : List Char) : Covers vars sites (chars.flatMap emitChar) p := by
  induction chars generalizing p with
  | nil => simp
  | cons c rest ih => simpa [emitChar] using ih

mutual

theorem Expr.covers_emit (vars : String → Cell) (e : Expr) (k : Counters) (p : Nat) :
    Covers vars (e.sites vars k p) (e.emit vars k).marks p := by
  cases e with
  | integer value => exact covers_nil
  | bool value => exact covers_nil
  | text content => exact covers_nil (p := p + 1)
  | name word => exact covers_nil
  | group inner => exact Expr.covers_emit vars inner k p
  | unary op operand =>
      have hoperand := Expr.covers_emit vars operand k p
      cases op <;> simpa [Expr.emit, Expr.sites, difference, select] using hoperand
  | binary left op right =>
      by_cases hand : op = .and
      · subst hand
        have hleft := Expr.covers_emit vars left (k.taking 1) p
        have hright := Expr.covers_emit vars right (left.emit vars (k.taking 1)).counters
          (p + (width (left.emit vars (k.taking 1)).marks + 2))
        simpa [Expr.emit, Expr.sites, emitConjunction] using ⟨hleft.left, hright.right⟩
      by_cases hor : op = .or
      · subst hor
        have hleft := Expr.covers_emit vars left (k.taking 1) p
        have hright := Expr.covers_emit vars right (left.emit vars (k.taking 1)).counters
          (p + (width (left.emit vars (k.taking 1)).marks + 3))
        simpa [Expr.emit, Expr.sites, emitDisjunction] using ⟨hleft.left, hright.right⟩
      have hleft := Expr.covers_emit vars left k p
      have hright := Expr.covers_emit vars right (left.emit vars k).counters
        (p + width (left.emit vars k).marks)
      rw [Expr.emit, Expr.sites]
      · simp only [covers_append]
        exact ⟨⟨hleft.left.cons, hright.right.cons⟩, covers_combine _ _ _ _⟩
      all_goals assumption
  | call callee args =>
      unfold Expr.sites Expr.emit
      by_cases hprint : callee = "print"
      · have hargs := Expr.covers_emitPrinted vars args k p
        rw [if_pos hprint, if_pos hprint]
        split <;> simpa [emitChar] using hargs
      rw [if_neg hprint, if_neg hprint]
      by_cases hinput : callee = "input"
      · rw [if_pos hinput, if_pos hinput]
        cases args with
        | nil => exact covers_nil (p := p + 2)
        | cons e rest => exact covers_nil (p := p + 1)
      rw [if_neg hinput, if_neg hinput]
      by_cases hassert : callee = "assert"
      · rw [if_pos hassert, if_pos hassert]
        match args with
        | [] => exact covers_nil (p := p + 1)
        | [condition] =>
            have hcondition := Expr.covers_emit vars condition { k with asserts := k.asserts + 1 } p
            simpa [emitAssertion, anchor] using hcondition
        | _ :: _ :: _ => exact covers_nil (p := p + 1)
      rw [if_neg hassert, if_neg hassert]
      refine covers_append.2 ⟨(Expr.covers_emitAll vars args k p).cons, ?_⟩
      intro entry hentry
      obtain rfl := List.mem_singleton.1 hentry
      exact ⟨_, List.mem_cons_self, rfl⟩

theorem Expr.covers_emitAll (vars : String → Cell) (es : List Expr) (k : Counters) (p : Nat) :
    Covers vars (Expr.sitesAll vars es k p) (Expr.emitAll vars es k).marks p := by
  cases es with
  | nil => exact covers_nil
  | cons e rest =>
      exact covers_append.2 ⟨(Expr.covers_emit vars e k p).left,
        (Expr.covers_emitAll vars rest _ _).right⟩

theorem Expr.covers_emitPrinted (vars : String → Cell) (es : List Expr) (k : Counters) (p : Nat) :
    Covers vars (Expr.sitesPrinted vars es k p) (Expr.emitPrinted vars es k).marks p := by
  cases es with
  | nil => exact covers_nil
  | cons e rest =>
      by_cases htext : ∃ content, e = .text content
      · obtain ⟨content, rfl⟩ := htext
        exact covers_append.2 ⟨covers_chars _, Expr.covers_emitPrinted vars rest _ _⟩
      have hother : ∀ content, e = .text content → False := fun content h => htext ⟨content, h⟩
      have he := Expr.covers_emit vars e k p
      have hrest := Expr.covers_emitPrinted vars rest (e.emit vars k).counters
        (p + (width (e.emit vars k).marks + 2))
      rw [Expr.emitPrinted, Expr.sitesPrinted]
      · simpa using ⟨he.left, hrest.right⟩
      all_goals assumption

end

mutual

/-- The calls in the code of a statement are among its sites. -/
theorem Stmt.covers_emit (vars : String → Cell) (loop : Option LoopPlaces) (stmt : Stmt)
    (k : Counters) (p : Nat) :
    Covers vars (stmt.sites vars loop k p) (Stmt.emit vars loop stmt k).marks p := by
  match stmt with
  | .assign name value =>
      have hvalue := Expr.covers_emit vars value k p
      simpa [Stmt.emit, Stmt.sites, copy] using hvalue
  | .choose arms (some body) =>
      simp only [Stmt.emit, Stmt.sites, anchor, List.append_assoc, List.cons_append,
        List.nil_append, covers_append, covers_place, covers_order, covers_nil, and_true]
      exact ⟨(Stmt.covers_emitArms vars _ _ _ _ _ _ _).left,
        (Stmt.covers_emitBlock vars _ _ _ _).right.at (by omega)⟩
  | .choose arms none =>
      simpa [Stmt.emit, Stmt.sites, anchor] using Stmt.covers_emitArms vars _ _ _ _ _ _ _
  | .whileLoop condition body =>
      simp only [Stmt.emit, Stmt.sites, emitBranchIfFalse, anchor, List.append_assoc,
        List.cons_append, List.nil_append, covers_append, covers_place, covers_order, covers_nil,
        and_true]
      exact ⟨(Expr.covers_emit vars _ _ _).left,
        (Stmt.covers_emitBlock vars _ _ _ _).right.at (by omega)⟩
  | .untilLoop body condition =>
      simp only [Stmt.emit, Stmt.sites, emitBranchIfFalse, anchor, List.append_assoc,
        List.cons_append, List.nil_append, covers_append, covers_place, covers_order, covers_nil,
        and_true]
      exact ⟨(Stmt.covers_emitBlock vars _ _ _ _).left,
        (Expr.covers_emit vars _ _ _).right.at (by omega)⟩
  | .forLoop var first last body closing =>
      unfold Stmt.emit Stmt.sites
      split
      · simp only [emitCount, copy, sum, anchor, List.append_assoc, List.cons_append,
          List.nil_append, covers_append, covers_place, covers_order, covers_nil, and_true]
        exact ⟨(Expr.covers_emit vars _ _ _).left,
          (Expr.covers_emit vars _ _ _).left.right.at (by omega),
          (Stmt.covers_emitBlock vars _ _ _ _).right.right.at (by omega)⟩
      · exact covers_nil (p := p + 1)
  | .switch .. => exact covers_nil (p := p + 1)
  | .function .. => exact covers_nil (p := p + 1)
  | .giveBack (some value) =>
      have hvalue := Expr.covers_emit vars value k p
      simpa [Stmt.emit, Stmt.sites, emitReturn] using hvalue
  | .giveBack none => exact covers_nil (p := p + 6)
  | .leaveLoop => cases loop <;> exact covers_nil (p := p + 1)
  | .nextPass => cases loop <;> exact covers_nil (p := p + 1)
  | .evaluate value => exact Expr.covers_emit vars value k p

theorem Stmt.covers_emitBlock (vars : String → Cell) (loop : Option LoopPlaces)
    (block : List Stmt) (k : Counters) (p : Nat) :
    Covers vars (Stmt.sitesInBlock vars loop block k p) (Stmt.emitBlock vars loop block k).marks
      p := by
  match block with
  | [] => exact covers_nil
  | stmt :: rest =>
      exact covers_append.2 ⟨(Stmt.covers_emit vars loop stmt k p).left,
        (Stmt.covers_emitBlock vars loop rest _ _).right⟩

theorem Stmt.covers_emitArms (vars : String → Cell) (loop : Option LoopPlaces) (n : Nat)
    (fallback : Place) (i : Nat) (arms : List (Expr × List Stmt)) (k : Counters) (p : Nat) :
    Covers vars (Stmt.sitesInArms vars loop n fallback i arms k p)
      (Stmt.emitArms vars loop n fallback i arms k).marks p := by
  match arms with
  | [] => exact covers_nil
  | (condition, body) :: rest =>
      simp only [Stmt.emitArms, Stmt.sitesInArms, emitBranchIfFalse, anchor, List.append_assoc,
        List.cons_append, List.nil_append, covers_append, covers_place, covers_order]
      exact ⟨(Expr.covers_emit vars _ _ _).left,
        (Stmt.covers_emitBlock vars _ _ _ _).left.right.at (by omega),
        (Stmt.covers_emitArms vars _ _ _ _ _ _ _).right.right.at (by omega)⟩

end

end Covers

end LittleMan
