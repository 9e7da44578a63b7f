import LittleMan.Proofs.Blueprint.Effects

/-!
# Sites of operators and calls

An operator that needs both of its operands, and the call of a function, have code of their
own, which stands after the code of the operands.  `Site` says where this is in the code of
a program, and `sites` collects the sites of a construct.

The code of a site is entered at its beginning only.  Its places have numbers that are
handed out on the way, and no branch from outside goes to one of them.
-/

namespace LittleMan

open Mark

/-! ## Sites -/

/-- What is done with operands. -/
inductive Operator where
  | binary (op : BinaryOp)
  | call (callee : String)
deriving DecidableEq, Repr

namespace Operator

/-- The code of an operator on the cells of its operands; temporary `n` is the first that it
takes. -/
def marks : Operator → List Cell → Nat → List Mark
  | .binary op, [l, r], n => combine op l r n
  | .binary _, _, _ => []
  | .call callee, args, n => [.call callee args (.temporary n)]

def temporaries : Operator → Nat
  | .binary op => temporariesOf op
  | .call _ => 1

/-- The words of an operator in which its operands are read.  Those of a call end before the
branch to the function. -/
def reach : Operator → List Cell → Nat → Nat
  | .binary op, cells, n => width (marks (.binary op) cells n)
  | .call _, args, _ => 3 + 2 * args.length

/-- The operator takes these operands, and it does not leave one out. -/
def Takes : Operator → List Expr → Prop
  | .binary op, operands => op ≠ .and ∧ op ≠ .or ∧ operands.length = 2
  | .call _, _ => True

end Operator

/-- An operator with its operands.  Their code begins at `base`, with these counters. -/
structure Site where
  base : Nat
  counters : Counters
  operands : List Expr
  operator : Operator
deriving Repr

/-- An operand: the cell of its value, the address where its code ends, and the operands after
it. -/
structure Site.Operand where
  cell : Cell
  ends : Nat
  later : List Expr
deriving Repr

/-- The operands in a list of expressions whose code begins at an address. -/
def Site.operandsOf (vars : String → Cell) : List Expr → Counters → Nat → List Site.Operand
  | [], _, _ => []
  | e :: rest, k, p =>
      let x := e.emit vars k
      ⟨x.result, p + width x.marks, rest⟩ ::
        Site.operandsOf vars rest x.counters (p + width x.marks)

namespace Site

variable (vars : String → Cell) (s : Site)

def emitted : Emitted (List Cell) :=
  Expr.emitAll vars s.operands s.counters

def own : List Mark :=
  s.operator.marks (s.emitted vars).result (s.emitted vars).counters.temporaries

def marks : List Mark :=
  (s.emitted vars).marks ++ s.own vars

def finish : Counters :=
  (s.emitted vars).counters.taking s.operator.temporaries

def begins : Nat :=
  s.base + width (s.emitted vars).marks

/-- The address after the words in which the operator reads its operands. -/
def ends : Nat :=
  s.begins vars +
    s.operator.reach (s.emitted vars).result (s.emitted vars).counters.temporaries

def located : List Site.Operand :=
  operandsOf vars s.operands s.counters s.base

end Site

mutual

/-- The sites of an expression whose code begins at an address. -/
def Expr.sites (vars : String → Cell) : Expr → Counters → Nat → List Site
  | .integer _, _, _ | .bool _, _, _ | .text _, _, _ | .name _, _, _ => []
  | .group inner, k, p => inner.sites vars k p
  | .unary _ operand, k, p => operand.sites vars k p
  | .binary left .and right, k, p =>
      let l := left.emit vars (k.taking 1)
      left.sites vars (k.taking 1) p ++ right.sites vars l.counters (p + (width l.marks + 2))
  | .binary left .or right, k, p =>
      let l := left.emit vars (k.taking 1)
      left.sites vars (k.taking 1) p ++ right.sites vars l.counters (p + (width l.marks + 3))
  | .binary left op right, k, p =>
      let l := left.emit vars k
      ⟨p, k, [left, right], .binary op⟩ ::
        (left.sites vars k p ++ right.sites vars l.counters (p + width l.marks))
  | .call callee args, k, p =>
      if callee = "print" then Expr.sitesPrinted vars args k p
      else if callee = "input" then []
      else if callee = "assert" then
        match args with
        | [condition] => condition.sites vars { k with asserts := k.asserts + 1 } p
        | _ => []
      else ⟨p, k, args, .call callee⟩ :: Expr.sitesAll vars args k p

def Expr.sitesAll (vars : String → Cell) : List Expr → Counters → Nat → List Site
  | [], _, _ => []
  | e :: rest, k, p =>
      let x := e.emit vars k
      e.sites vars k p ++ Expr.sitesAll vars rest x.counters (p + width x.marks)

def Expr.sitesPrinted (vars : String → Cell) : List Expr → Counters → Nat → List Site
  | [], _, _ => []
  | .text content :: rest, k, p =>
      Expr.sitesPrinted vars rest k (p + width (content.toList.flatMap emitChar))
  | e :: rest, k, p =>
      let x := e.emit vars k
      e.sites vars k p ++ Expr.sitesPrinted vars rest x.counters (p + (width x.marks + 2))

end

mutual

def Stmt.sites (vars : String → Cell) : Option LoopPlaces → Stmt → Counters → Nat → List Site
  | _, .assign _ value, k, p => value.sites vars k p
  | loop, .choose arms otherwise, k, p =>
      let n := k.ifs
      let k := { k with ifs := n + 1 }
      match otherwise with
      | some body =>
          let x := Stmt.emitArms vars loop n (.point .choice n "_else") 0 arms k
          Stmt.sitesInArms vars loop n (.point .choice n "_else") 0 arms k p ++
            Stmt.sitesInBlock vars loop body x.counters (p + (width x.marks + 1))
      | none => Stmt.sitesInArms vars loop n (.point .choice n "_end") 0 arms k p
  | _, .whileLoop condition body, k, p =>
      let n := k.loops
      let k := { k with loops := n + 1 }
      let x := condition.emit vars k
      condition.sites vars k (p + 1) ++
        Stmt.sitesInBlock vars (some ⟨n, "_start"⟩) body x.counters (p + (width x.marks + 3))
  | _, .untilLoop body condition, k, p =>
      let n := k.loops
      let k := { k with loops := n + 1 }
      let y := Stmt.emitBlock vars (some ⟨n, "_cond"⟩) body k
      Stmt.sitesInBlock vars (some ⟨n, "_cond"⟩) body k (p + 1) ++
        condition.sites vars y.counters (p + (width y.marks + 2))
  | _, .forLoop var first last body closing, k, p =>
      if var = closing then
        let n := k.loops
        let k := { k with loops := n + 1 }
        let x := first.emit vars k
        let y := last.emit vars x.counters
        first.sites vars k p ++ last.sites vars x.counters (p + (width x.marks + 2)) ++
          Stmt.sitesInBlock vars (some ⟨n, "_step"⟩) body (y.counters.taking 1)
            (p + (width x.marks + width y.marks + 5))
      else []
  | _, .giveBack (some value), k, p => value.sites vars k p
  | _, .evaluate value, k, p => value.sites vars k p
  | _, .switch .., _, _ | _, .function .., _, _ | _, .giveBack none, _, _ | _, .leaveLoop, _, _
  | _, .nextPass, _, _ => []

def Stmt.sitesInBlock (vars : String → Cell) :
    Option LoopPlaces → List Stmt → Counters → Nat → List Site
  | _, [], _, _ => []
  | loop, stmt :: rest, k, p =>
      let x := Stmt.emit vars loop stmt k
      stmt.sites vars loop k p ++ Stmt.sitesInBlock vars loop rest x.counters (p + width x.marks)

def Stmt.sitesInArms (vars : String → Cell) :
    Option LoopPlaces → Nat → Place → Nat → List (Expr × List Stmt) → Counters → Nat → List Site
  | _, _, _, _, [], _, _ => []
  | loop, n, fallback, i, (condition, body) :: rest, k, p =>
      let x := condition.emit vars k
      let y := Stmt.emitBlock vars loop body x.counters
      condition.sites vars k (p + 1) ++
        Stmt.sitesInBlock vars loop body x.counters (p + (width x.marks + 3)) ++
        Stmt.sitesInArms vars loop n fallback (i + 1) rest y.counters
          (p + (width x.marks + width y.marks + 4))

end

/-! ## Branches from outside -/

/-- The place belongs to an expression and has its number from between the counters. -/
def Place.Inner (k k' : Counters) : Place → Prop
  | .point .temporary n _ => k.temporaries ≤ n ∧ n < k'.temporaries
  | .point .assertion n _ => k.asserts ≤ n ∧ n < k'.asserts
  | _ => False

theorem Place.Inner.between {k k' : Counters} {l : Place} (h : l.Inner k k') :
    l.Between k k' := by
  cases l with
  | point family n ending => cases family <;> first | exact h | exact h.elim
  | entry f => exact h

theorem Place.Between.inner {k k' : Counters} {l : Place} (h : l.Between k k')
    (hloops : k'.loops = k.loops) (hifs : k'.ifs = k.ifs) : l.Inner k k' := by
  cases l with
  | point family n ending =>
      cases family with
      | temporary => exact h
      | assertion => exact h
      | loop => exact absurd (h.2.trans_eq hloops) (Nat.not_lt_of_le h.1)
      | choice => exact absurd (h.2.trans_eq hifs) (Nat.not_lt_of_le h.1)
  | entry f => exact h

theorem Place.Inner.mono {k k' k₁ k₁' : Counters} {l : Place} (h : l.Inner k k')
    (hk : k₁.Before k) (hk' : k'.Before k₁') : l.Inner k₁ k₁' := by
  have hbetween := h.between.mono hk hk'
  cases l with
  | point family n ending => cases family <;> first | exact hbetween | exact h.elim
  | entry f => exact h

/-- No branch goes to a place of an expression that has its number from between the
counters. -/
def Apart (k k' : Counters) (marks : List Mark) : Prop :=
  ∀ l ∈ branches marks, ¬ l.Inner k k'

section Apart

variable {k k' k₁ k₂ : Counters} {own outer : List Place} {marks marks' : List Mark}

@[simp] theorem apart_append : Apart k k' (marks ++ marks') ↔ Apart k k' marks ∧ Apart k k' marks' := by
  simp [Apart, or_imp, forall_and]

theorem Apart.mono (h : Apart k₁ k₂ marks) (hk : k₁.Before k) (hk' : k'.Before k₂) :
    Apart k k' marks :=
  fun l hl hinner => h l hl (hinner.mono hk hk')

@[simp] theorem apart_nil : Apart k k' [] := by
  simp [Apart]

@[simp] theorem apart_cell {op : Opcode} {c : Cell} :
    Apart k k' (.order op (.cell c) :: marks) ↔ Apart k k' marks := by
  simp [Apart]

@[simp] theorem apart_bare {op : Opcode} :
    Apart k k' (.order op .none :: marks) ↔ Apart k k' marks := by
  simp [Apart]

@[simp] theorem apart_place {l : Place} :
    Apart k k' (.place l :: marks) ↔ Apart k k' marks := by
  simp [Apart]

@[simp] theorem apart_jump {op : Opcode} {l : Place} :
    Apart k k' (.order op (.place l) :: marks) ↔ ¬ l.Inner k k' ∧ Apart k k' marks := by
  simp [Apart]

theorem apart_of_branches (h : branches marks = []) : Apart k k' marks := by
  simp [Apart, h]

/-- Places of other numbers are not inner ones. -/
theorem Fits.apart (h : Fits own k k' outer marks)
    (hown : ∀ l ∈ own ++ outer, ¬ l.Inner k₁ k₂) (horder : k'.Before k₁ ∨ k₂.Before k) :
    Apart k₁ k₂ marks := by
  intro l hl hinner
  obtain ⟨inner, hperm, -, hinner'⟩ := h.places
  rcases h.branches l hl with hl | hl
  · rcases List.mem_append.1 (hperm.mem_iff.1 hl) with hl | hl
    · exact hown l (List.mem_append_left _ hl) hinner
    · have hbetween := (hinner' l hl).1
      rcases horder with horder | horder
      · exact (hbetween.mono (.refl _) horder).not_between hinner.between
      · exact (hinner.between.mono (.refl _) horder).not_between hbetween
  · exact hown l (List.mem_append_right _ hl) hinner

theorem Fits.apart_closed (h : Fits [] k k' [] marks) (horder : k'.Before k₁ ∨ k₂.Before k) :
    Apart k₁ k₂ marks :=
  h.apart (by simp) horder

theorem Expr.emit_apart {vars : String → Cell} (e : Expr) (k : Counters)
    (horder : (e.emit vars k).counters.Before k₁ ∨ k₂.Before k) :
    Apart k₁ k₂ (e.emit vars k).marks :=
  (e.emit_fits k []).apart_closed horder

end Apart

/-- The site is part of marks that are laid at `p` and take the counters from `k` to `k'`. -/
structure Site.In (vars : String → Cell) (s : Site) (k k' : Counters) (p : Nat)
    (marks : List Mark) : Prop where
  takes : s.operator.Takes s.operands
  lower : k.Before s.counters
  upper : (s.finish vars).Before k'
  split : ∃ before after, marks = before ++ s.marks vars ++ after ∧ s.base = p + width before ∧
    Apart s.counters (s.finish vars) (before ++ after)

theorem Site.In.within {vars : String → Cell} {s : Site} {k k' K K' : Counters} {p q : Nat}
    {part whole : List Mark} (h : s.In vars k k' q part) (first last : List Mark)
    (heq : whole = first ++ part ++ last) (hq : q = p + width first) (hk : K.Before k)
    (hk' : k'.Before K') (hapart : Apart k k' (first ++ last)) : s.In vars K K' p whole := by
  obtain ⟨before, after, rfl, hbase, hinner⟩ := h.split
  refine ⟨h.takes, hk.trans h.lower, h.upper.trans hk', first ++ before, after ++ last, ?_, ?_, ?_⟩
  · simp [heq]
  · rw [hbase, hq, width_append, Nat.add_assoc]
  · have houter := hapart.mono h.lower h.upper
    simp only [apart_append] at hinner houter ⊢
    exact ⟨⟨houter.1, hinner.1⟩, hinner.2, houter.2⟩

theorem Site.in_self (vars : String → Cell) (s : Site) (h : s.operator.Takes s.operands) :
    s.In vars s.counters (s.finish vars) s.base (s.marks vars) :=
  ⟨h, .refl _, .refl _, [], [], by simp, rfl, by simp⟩

section Expressions

variable {vars : String → Cell} {s : Site}

/-- A site in one of two parts that are tested one after the other. -/
theorem Site.in_tested {k : Counters} {left right : Emitted Cell} {middle last : List Mark}
    {p : Nat} (hl : Fits [] (k.taking 1) left.counters [] left.marks)
    (hr : Fits [] left.counters right.counters [] right.marks)
    (hbranches : ∀ l ∈ branches (middle ++ last), ∃ ending, l = spot k.temporaries ending)
    (hs : s.In vars (k.taking 1) left.counters p left.marks ∨
      s.In vars left.counters right.counters (p + (width left.marks + width middle)) right.marks) :
    s.In vars k right.counters p (left.marks ++ middle ++ right.marks ++ last) := by
  -- the branches go to a temporary that was handed out before both parts
  have hapart : ∀ {k₁ k₂ : Counters}, (k.taking 1).Before k₁ → Apart k₁ k₂ (middle ++ last) := by
    intro k₁ k₂ hbefore l hl hinner
    obtain ⟨ending, rfl⟩ := hbranches l hl
    exact Nat.not_lt_of_le hinner.1 (hbefore .temporary)
  rcases hs with hs | hs
  · refine hs.within [] (middle ++ right.marks ++ last) (by simp) rfl (k.before_taking 1)
      hr.before ?_
    have hout := apart_append.1 (@hapart _ left.counters (.refl _))
    simp [hout, hr.apart_closed (.inr (.refl _))]
  · refine hs.within (left.marks ++ middle) last rfl (by simp) ((k.before_taking 1).trans hl.before)
      (.refl _) ?_
    have hout := apart_append.1 (@hapart _ right.counters hl.before)
    simp [hout, hl.apart_closed (.inl (.refl _))]

mutual

theorem Expr.in_of_mem_sites (e : Expr) (k : Counters) (p : Nat) (hs : s ∈ e.sites vars k p) :
    s.In vars k (e.emit vars k).counters p (e.emit vars k).marks := by
  cases e with
  | integer value => cases hs
  | bool value => cases hs
  | text content => cases hs
  | name word => cases hs
  | group inner => exact Expr.in_of_mem_sites inner k p hs
  | unary op operand =>
      have hoperand : s.In vars k (operand.emit vars k).counters p (operand.emit vars k).marks :=
        Expr.in_of_mem_sites operand k p hs
      cases op with
      | neg =>
          exact hoperand.within [] _ rfl rfl (.refl _) (Counters.before_taking _ 1)
            (by simp [difference])
      | not =>
          refine hoperand.within [] _ rfl rfl (.refl _) (Counters.before_taking _ 1) ?_
          simpa using (select_fits .brz true rfl).apart_closed (.inr (.refl _))
  | binary left op right =>
      by_cases hand : op = .and
      · subst hand
        exact Site.in_tested (left.emit_fits _ []) (right.emit_fits _ []) (by simp)
          ((List.mem_append.1 hs).imp (Expr.in_of_mem_sites left _ p)
            (Expr.in_of_mem_sites right _ _))
      by_cases hor : op = .or
      · subst hor
        exact Site.in_tested (left.emit_fits _ []) (right.emit_fits _ []) (by simp)
          ((List.mem_append.1 hs).imp (Expr.in_of_mem_sites left _ p)
            (Expr.in_of_mem_sites right _ _))
      rw [Expr.sites] at hs
      rw [Expr.emit]
      · have hr := (@Expr.emit_fresh vars right (left.emit vars k).counters).before
        have hown := @combine_fits (right.emit vars (left.emit vars k).counters).counters [] op
          (left.emit vars k).result (right.emit vars (left.emit vars k).counters).result
        rcases List.mem_cons.1 hs with rfl | hs
        · simpa [Site.marks, Site.finish, Site.emitted, Site.own, Expr.emitAll, Operator.marks,
            Operator.temporaries] using
            Site.in_self vars ⟨p, k, [left, right], .binary op⟩ ⟨hand, hor, rfl⟩
        rcases List.mem_append.1 hs with hs | hs
        · refine (Expr.in_of_mem_sites left k p hs).within [] _ (List.append_assoc _ _ _) rfl
            (.refl _) (hr.trans hown.before) ?_
          simp [right.emit_apart _ (.inr (.refl _)), hown.apart_closed (.inr hr)]
        · refine (Expr.in_of_mem_sites right _ _ hs).within _ _ rfl rfl
            (@Expr.emit_fresh vars left k).before hown.before ?_
          simp [left.emit_apart _ (.inl (.refl _)), hown.apart_closed (.inr (.refl _))]
      all_goals assumption
  | call callee args =>
      unfold Expr.sites at hs
      unfold Expr.emit
      split
      · next hprint =>
          rw [if_pos hprint] at hs
          refine (Expr.in_of_mem_sitesPrinted args k p hs).within [] _ rfl rfl (.refl _) (.refl _) ?_
          split <;> simp [emitChar]
      next hprint =>
      rw [if_neg hprint] at hs
      split
      · next hinput =>
          rw [if_pos hinput] at hs
          cases hs
      next hinput =>
      rw [if_neg hinput] at hs
      split
      · next hassert =>
          rw [if_pos hassert] at hs
          match args with
          | [] => cases hs
          | [condition] =>
              have htail : Apart { k with asserts := k.asserts + 1 }
                  (condition.emit vars { k with asserts := k.asserts + 1 }).counters
                  ([lda (condition.emit vars { k with asserts := k.asserts + 1 }).result,
                    jump .brz (.point .assertion k.asserts "_fail"),
                    jump .bra (.point .assertion k.asserts "_ok"),
                    .place (.point .assertion k.asserts "_fail"), bare .hlt] ++
                    anchor (.point .assertion k.asserts "_ok")) := by
                simp [anchor, Place.Inner]
              exact (Expr.in_of_mem_sites condition _ p hs).within [] _ (List.append_assoc _ _ _)
                rfl k.before_assertion (.refl _) htail
          | _ :: _ :: _ => cases hs
      next hassert =>
      rw [if_neg hassert] at hs
      rcases List.mem_cons.1 hs with rfl | hs
      · exact Site.in_self vars ⟨p, k, args, .call callee⟩ trivial
      · exact (Expr.in_of_mem_sitesAll args k p hs).within [] _ rfl rfl (.refl _)
          (Counters.before_taking _ 1) (apart_of_branches rfl)

theorem Expr.in_of_mem_sitesAll (es : List Expr) (k : Counters) (p : Nat)
    (hs : s ∈ Expr.sitesAll vars es k p) :
    s.In vars k (Expr.emitAll vars es k).counters p (Expr.emitAll vars es k).marks := by
  cases es with
  | nil => cases hs
  | cons e rest =>
      have hbefore := (@Expr.emit_fresh vars e k).before
      have hrest := (@Expr.emitAll_fresh vars rest (e.emit vars k).counters).before
      rcases List.mem_append.1 hs with hs | hs
      · refine (Expr.in_of_mem_sites e k p hs).within [] _ rfl rfl (.refl _) hrest ?_
        exact (Expr.emitAll_fits rest _ []).apart_closed (.inr (.refl _))
      · refine (Expr.in_of_mem_sitesAll rest _ _ hs).within _ [] (List.append_nil _).symm rfl hbefore
          (.refl _) ?_
        rw [List.append_nil]
        exact e.emit_apart k (.inl (.refl _))

theorem Expr.in_of_mem_sitesPrinted (es : List Expr) (k : Counters) (p : Nat)
    (hs : s ∈ Expr.sitesPrinted vars es k p) :
    s.In vars k (Expr.emitPrinted vars es k).counters p (Expr.emitPrinted vars es k).marks := by
  cases es with
  | nil => cases hs
  | cons e rest =>
      by_cases htext : ∃ content, e = .text content
      · obtain ⟨content, rfl⟩ := htext
        refine (Expr.in_of_mem_sitesPrinted rest _ _ hs).within _ [] (List.append_nil _).symm rfl
          (.refl _) (.refl _) ?_
        rw [List.append_nil]
        exact (chars_fits content.toList k []).apart_closed (.inl (.refl _))
      have htext' : ∀ content, e = .text content → False := fun content h => htext ⟨content, h⟩
      have hbefore := (@Expr.emit_fresh vars e k).before
      have hrest := (@Expr.emitPrinted_fresh vars rest (e.emit vars k).counters).before
      have hmarks : Expr.emitPrinted vars (e :: rest) k =
          ⟨(e.emit vars k).marks ++ [lda (e.emit vars k).result, bare .out] ++
            (Expr.emitPrinted vars rest (e.emit vars k).counters).marks, (),
            (Expr.emitPrinted vars rest (e.emit vars k).counters).counters⟩ := by
        rw [Expr.emitPrinted]
        exact htext'
      have hsites : Expr.sitesPrinted vars (e :: rest) k p =
          e.sites vars k p ++ Expr.sitesPrinted vars rest (e.emit vars k).counters
            (p + (width (e.emit vars k).marks + 2)) := by
        rw [Expr.sitesPrinted]
        exact htext'
      rw [hmarks]
      rw [hsites] at hs
      rcases List.mem_append.1 hs with hs | hs
      · refine (Expr.in_of_mem_sites e k p hs).within [] _ (List.append_assoc _ _ _) rfl (.refl _)
          hrest ?_
        simpa using (Expr.emitPrinted_fits rest _ []).apart_closed (.inr (.refl _))
      · refine (Expr.in_of_mem_sitesPrinted rest _ _ hs).within _ [] (List.append_nil _).symm ?_
          hbefore (.refl _) ?_
        · simp [orders]
        · simpa using e.emit_apart k (.inl (.refl _))

end

end Expressions

section Statements

variable {vars : String → Cell} {s : Site} {k₁ k₂ : Counters}

@[simp] theorem Place.not_inner_loop {n : Nat} {ending : String} :
    ¬ (Place.point .loop n ending).Inner k₁ k₂ :=
  fun h => h

@[simp] theorem Place.not_inner_choice {n : Nat} {ending : String} :
    ¬ (Place.point .choice n ending).Inner k₁ k₂ :=
  fun h => h

/-- The next arm of a choice, or what comes after the last one. -/
@[simp] theorem Place.not_inner_next {c : Prop} [Decidable c] {n : Nat} {ending ending' : String} :
    ¬ (if c then Place.point .choice n ending else .point .choice n ending').Inner k₁ k₂ := by
  split <;> exact fun h => h

theorem LoopPlaces.not_inner_around {loop : Option LoopPlaces} {l : Place}
    (hl : l ∈ LoopPlaces.around loop) : ¬ l.Inner k₁ k₂ := by
  cases loop with
  | none => cases hl
  | some loop =>
      simp only [LoopPlaces.around, Option.elim_some, List.mem_cons, List.not_mem_nil, or_false]
        at hl
      rcases hl with rfl | rfl <;> exact fun h => h

variable (hvars : ∀ x, (vars x).isLiteral = false)
include hvars

theorem Stmt.emit_apart (loop : Option LoopPlaces) (stmt : Stmt) (k : Counters)
    (horder : (Stmt.emit vars loop stmt k).counters.Before k₁ ∨ k₂.Before k) :
    Apart k₁ k₂ (Stmt.emit vars loop stmt k).marks :=
  (Stmt.emit_fits hvars loop stmt k).apart (fun _ hl => LoopPlaces.not_inner_around hl) horder

theorem Stmt.emitBlock_apart (loop : Option LoopPlaces) (body : List Stmt) (k : Counters)
    (horder : (Stmt.emitBlock vars loop body k).counters.Before k₁ ∨ k₂.Before k) :
    Apart k₁ k₂ (Stmt.emitBlock vars loop body k).marks :=
  (Stmt.emitBlock_fits hvars loop body k).apart (fun _ hl => LoopPlaces.not_inner_around hl) horder

theorem Stmt.emitArms_apart (loop : Option LoopPlaces) (n : Nat) (ending : String) (i : Nat)
    (arms : List (Expr × List Stmt)) (k : Counters)
    (horder : (Stmt.emitArms vars loop n (.point .choice n ending) i arms k).counters.Before k₁ ∨
      k₂.Before k) :
    Apart k₁ k₂ (Stmt.emitArms vars loop n (.point .choice n ending) i arms k).marks := by
  let own := (ending :: "_end" :: armEndings i arms.length).map (Place.point .choice n)
  refine (Stmt.emitArms_fits hvars loop n (.point .choice n ending) i arms k
    (List.subset_append_right own _) ?_ ?_ ?_).apart ?_ horder
  · simp [own]
  · simp [own]
  · exact List.subset_append_of_subset_left _ (by simp [own])
  · intro l hl
    simp only [own, List.mem_append, List.mem_map] at hl
    rcases hl with ⟨_, -, rfl⟩ | ⟨_, -, rfl⟩ | hl
    · exact Place.not_inner_choice
    · exact Place.not_inner_choice
    · exact LoopPlaces.not_inner_around hl

mutual

theorem Stmt.in_of_mem_sites (loop : Option LoopPlaces) (stmt : Stmt) (k : Counters) (p : Nat)
    (hs : s ∈ stmt.sites vars loop k p) :
    s.In vars k (Stmt.emit vars loop stmt k).counters p (Stmt.emit vars loop stmt k).marks := by
  match stmt with
  | .assign name value =>
      exact (value.in_of_mem_sites k p hs).within [] _ rfl rfl (.refl _) (.refl _) (by simp [copy])
  | .choose arms (some body) =>
      have harms := (@Stmt.emitArms_assigns vars loop k.ifs (.point .choice k.ifs "_else") 0 arms
        { k with ifs := k.ifs + 1 }).before
      rcases List.mem_append.1 hs with hs | hs
      · refine (Stmt.in_of_mem_sitesInArms loop _ "_else" 0 arms _ p hs).within [] _
          (by simp only [Stmt.emit, List.append_assoc]; rfl) rfl k.before_choice
          (Stmt.emitBlock_assigns loop body _).before ?_
        simp [anchor, Stmt.emitBlock_apart hvars loop body _ (.inr (.refl _))]
      · refine (Stmt.in_of_mem_sitesInBlock loop body _ _ hs).within _ _ rfl ?_
          (k.before_choice.trans harms) (.refl _) ?_
        · simp [anchor, orders]
        · simp [anchor, Stmt.emitArms_apart hvars loop _ _ 0 arms _ (.inl (.refl _))]
  | .choose arms none =>
      exact (Stmt.in_of_mem_sitesInArms loop _ "_end" 0 arms _ p hs).within [] _ rfl rfl
        k.before_choice (.refl _) (by simp [anchor])
  | .whileLoop condition body =>
      have hbefore := (@Expr.emit_fresh vars condition { k with loops := k.loops + 1 }).before
      have hbody := (@Stmt.emitBlock_assigns vars (some ⟨k.loops, "_start"⟩) body
        (condition.emit vars { k with loops := k.loops + 1 }).counters).before
      rcases List.mem_append.1 hs with hs | hs
      · refine (condition.in_of_mem_sites _ _ hs).within (anchor (.point .loop k.loops "_start")) _
          (by simp only [Stmt.emit, emitBranchIfFalse, List.append_assoc]; rfl) rfl k.before_loop
          hbody ?_
        simp [anchor, Stmt.emitBlock_apart hvars _ body _ (.inr (.refl _))]
      · refine (Stmt.in_of_mem_sitesInBlock _ body _ _ hs).within _ _
          (List.append_assoc _ _ _) ?_ (k.before_loop.trans hbefore) (.refl _) ?_
        · simp [anchor, emitBranchIfFalse, orders]
          omega
        · simp [anchor, emitBranchIfFalse, condition.emit_apart _ (.inl (.refl _))]
  | .untilLoop body condition =>
      have hbody := (@Stmt.emitBlock_assigns vars (some ⟨k.loops, "_cond"⟩) body
        { k with loops := k.loops + 1 }).before
      rcases List.mem_append.1 hs with hs | hs
      · refine (Stmt.in_of_mem_sitesInBlock _ body _ _ hs).within
          (anchor (.point .loop k.loops "_start")) _
          (by simp only [Stmt.emit, List.append_assoc]; rfl) rfl k.before_loop
          (condition.emit_fresh _).before ?_
        simp [anchor, emitBranchIfFalse, condition.emit_apart _ (.inr (.refl _))]
      · refine (condition.in_of_mem_sites _ _ hs).within
          (anchor (.point .loop k.loops "_start") ++
            (Stmt.emitBlock vars (some ⟨k.loops, "_cond"⟩) body
              { k with loops := k.loops + 1 }).marks ++ anchor (.point .loop k.loops "_cond")) _
          (by simp only [Stmt.emit, emitBranchIfFalse, List.append_assoc]; rfl) ?_
          (k.before_loop.trans hbody) (.refl _) ?_
        · simp [anchor, orders]
          omega
        · simp [anchor, Stmt.emitBlock_apart hvars _ body _ (.inl (.refl _))]
  | .forLoop var first last body closing =>
      unfold Stmt.sites at hs
      unfold Stmt.emit
      split
      · next hclosing =>
          rw [if_pos hclosing] at hs
          have hfirst := (@Expr.emit_fresh vars first { k with loops := k.loops + 1 }).before
          have hlast := (@Expr.emit_fresh vars last
            (first.emit vars { k with loops := k.loops + 1 }).counters).before
          have htaking := Counters.before_taking (last.emit vars
            (first.emit vars { k with loops := k.loops + 1 }).counters).counters 1
          have hbody := (@Stmt.emitBlock_assigns vars (some ⟨k.loops, "_step"⟩) body ((last.emit vars
            (first.emit vars { k with loops := k.loops + 1 }).counters).counters.taking 1)).before
          simp only [List.mem_append] at hs
          rcases hs with (hs | hs) | hs
          · refine (first.in_of_mem_sites _ _ hs).within [] _
              (by simp only [List.append_assoc]; rfl) rfl k.before_loop
              (hlast.trans (htaking.trans hbody)) ?_
            simp [anchor, copy, emitCount, sum, last.emit_apart _ (.inr (.refl _)),
              Stmt.emitBlock_apart hvars _ body _ (.inr (hlast.trans htaking))]
          · refine (last.in_of_mem_sites _ _ hs).within (_ ++ copy _ _) _
              (by simp only [List.append_assoc]; rfl) ?_ (k.before_loop.trans hfirst)
              (htaking.trans hbody) ?_
            · simp [copy, orders]
            · simp [anchor, copy, emitCount, sum, first.emit_apart _ (.inl (.refl _)),
                Stmt.emitBlock_apart hvars _ body _ (.inr htaking)]
          · refine (Stmt.in_of_mem_sitesInBlock _ body _ _ hs).within _ _ rfl ?_
              ((k.before_loop.trans hfirst).trans (hlast.trans htaking)) (.refl _) ?_
            · simp [anchor, copy, orders]
              omega
            · simp [anchor, copy, emitCount, sum, first.emit_apart _ (.inl (hlast.trans htaking)),
                last.emit_apart _ (.inl htaking)]
      · next hclosing =>
          rw [if_neg hclosing] at hs
          cases hs
  | .switch .. => cases hs
  | .function .. => cases hs
  | .giveBack (some value) =>
      exact (value.in_of_mem_sites k p hs).within [] _ rfl rfl (.refl _)
        (Counters.before_taking _ 1) (apart_of_branches rfl)
  | .giveBack none => cases hs
  | .leaveLoop => cases hs
  | .nextPass => cases hs
  | .evaluate value => exact value.in_of_mem_sites k p hs

theorem Stmt.in_of_mem_sitesInBlock (loop : Option LoopPlaces) (block : List Stmt) (k : Counters)
    (p : Nat) (hs : s ∈ Stmt.sitesInBlock vars loop block k p) :
    s.In vars k (Stmt.emitBlock vars loop block k).counters p
      (Stmt.emitBlock vars loop block k).marks := by
  match block with
  | [] => cases hs
  | stmt :: rest =>
      rcases List.mem_append.1 hs with hs | hs
      · exact (Stmt.in_of_mem_sites loop stmt k p hs).within [] _ rfl rfl (.refl _)
          (Stmt.emitBlock_assigns loop rest _).before
          (Stmt.emitBlock_apart hvars loop rest _ (.inr (.refl _)))
      · refine (Stmt.in_of_mem_sitesInBlock loop rest _ _ hs).within _ [] (List.append_nil _).symm
          rfl (Stmt.emit_assigns loop stmt k).before (.refl _) ?_
        simpa using Stmt.emit_apart hvars loop stmt k (.inl (.refl _))

theorem Stmt.in_of_mem_sitesInArms (loop : Option LoopPlaces) (n : Nat) (ending : String) (i : Nat)
    (arms : List (Expr × List Stmt)) (k : Counters) (p : Nat)
    (hs : s ∈ Stmt.sitesInArms vars loop n (.point .choice n ending) i arms k p) :
    s.In vars k (Stmt.emitArms vars loop n (.point .choice n ending) i arms k).counters p
      (Stmt.emitArms vars loop n (.point .choice n ending) i arms k).marks := by
  match arms with
  | [] => cases hs
  | (condition, body) :: rest =>
      have hcondition := (@Expr.emit_fresh vars condition k).before
      have hbody := (@Stmt.emitBlock_assigns vars loop body (condition.emit vars k).counters).before
      have hrest := (@Stmt.emitArms_assigns vars loop n (.point .choice n ending) (i + 1) rest
        (Stmt.emitBlock vars loop body (condition.emit vars k).counters).counters).before
      simp only [Stmt.sitesInArms, List.mem_append] at hs
      rcases hs with (hs | hs) | hs
      · refine (condition.in_of_mem_sites _ _ hs).within
          (anchor (.point .choice n ("_" ++ toString i))) _
          (by simp only [Stmt.emitArms, emitBranchIfFalse, List.append_assoc]; rfl) rfl (.refl _)
          (hbody.trans hrest) ?_
        simp [anchor, Stmt.emitBlock_apart hvars _ body _ (.inr (.refl _)),
          Stmt.emitArms_apart hvars _ _ _ _ rest _ (.inr hbody)]
      · refine (Stmt.in_of_mem_sitesInBlock _ body _ _ hs).within
          (anchor (.point .choice n ("_" ++ toString i)) ++ emitBranchIfFalse _ _) _
          (by simp only [Stmt.emitArms, List.append_assoc]; rfl) ?_ hcondition hrest ?_
        · simp [anchor, emitBranchIfFalse, orders]
          omega
        · simp [anchor, emitBranchIfFalse, condition.emit_apart _ (.inl (.refl _)),
            Stmt.emitArms_apart hvars _ _ _ _ rest _ (.inr (.refl _))]
      · refine (Stmt.in_of_mem_sitesInArms loop n ending (i + 1) rest _ _ hs).within _ []
          (List.append_nil _).symm ?_ (hcondition.trans hbody) (.refl _) ?_
        · simp [anchor, emitBranchIfFalse, orders]
          omega
        · simp [anchor, emitBranchIfFalse, condition.emit_apart _ (.inl hbody),
            Stmt.emitBlock_apart hvars _ body _ (.inl (.refl _))]

end

end Statements

/-! ## The code of a site -/

/-- What is known of the code of an operator on cells, of which the first `reach` words come
before the branch of a call. -/
structure Own (cells : List Cell) (k k' : Counters) (reach : Nat) (own : List Mark) : Prop where
  fits : Fits [] k k' [] own
  fresh : ∃ callees, Fresh callees k k' own
  long : 3 ≤ reach
  inside : reach ≤ width own
  jumps : ∀ {done rest : List Mark} {op : Opcode} {l : Place},
    own = done ++ .order op (.place l) :: rest → width done < reach
  calls : ∀ {done rest : List Mark} {callee : String} {args : List Cell} {result : Cell},
    own = done ++ .call callee args result :: rest → reach ≤ width done + (4 + 2 * args.length)
  reads : ∀ c ∈ cells, ∃ op ∈ [Opcode.lda, .add, .sub],
    (op, .cell c) ∈ (own.flatMap orders).take reach

theorem own_combine {op : BinaryOp} (hand : op ≠ .and) (hor : op ≠ .or) (l r : Cell)
    (k : Counters) :
    Own [l, r] k (k.taking (temporariesOf op)) (width (combine op l r k.temporaries))
      (combine op l r k.temporaries) where
  fits := combine_fits op l r
  fresh := ⟨[], combine_fresh op l r⟩
  long := by
    cases op <;> simp_all [combine, sum, difference, copy, anchor, multiply, floorDivMod,
      divisionOperands, divisionLoop, divisionSigns, magnitude, power, Mark.compare, select, orders]
  inside := Nat.le_refl _
  jumps h := by
    rw [h]
    simp [orders]
  calls := by
    intro done rest callee args result h
    have hmem : .call callee args result ∈ combine op l r k.temporaries := by simp [h]
    cases (@combine_fresh [] k op l r).calls (mem_called hmem)
  reads := by
    intro c hc
    rw [width, List.take_length]
    simp only [List.mem_cons, List.not_mem_nil, or_false] at hc
    rcases hc with rfl | rfl <;> cases op <;> simp_all [combine, sum, difference, copy,
      multiply, floorDivMod, divisionOperands, magnitude, power, Mark.compare, orders]

theorem own_call (callee : String) (args : List Cell) (k : Counters) :
    Own args k (k.taking 1) (3 + 2 * args.length)
      [.call callee args (.temporary k.temporaries)] where
  fits := by
    have hcall : Fits [] k k [] [.call callee args (.temporary k.temporaries)] :=
      .straight rfl (List.nil_subset _) rfl
    exact hcall.later (k.before_taking 1)
  fresh := ⟨[callee], .taking (by simp) (by simp [called, callee?])⟩
  long := Nat.le_add_right _ _
  inside := by
    simp [orders]
    omega
  jumps {done rest op l} h := by
    cases done <;> simp at h
  calls {done rest callee' args' result} h := by
    cases done with
    | nil =>
        simp only [List.nil_append, List.cons.injEq, Mark.call.injEq] at h
        obtain ⟨⟨-, rfl, -⟩, -⟩ := h
        simp
    | cons m done => simp at h
  reads c hc := by
    refine ⟨.lda, by simp, ?_⟩
    have htake : (List.flatMap orders [.call callee args (.temporary k.temporaries)]).take
        (3 + 2 * args.length) =
        [(.ldaPc, .none), (.add, .cell (.literal (returnOffset args.length))), (.psh, .none)] ++
          pushes args := by
      simp only [List.flatMap_cons, List.flatMap_nil, List.append_nil, orders]
      refine List.take_left' ?_
      rw [List.length_append, length_pushes]
      rfl
    rw [htake]
    exact List.mem_append_right _ (List.mem_flatMap.2 ⟨c, hc, by simp⟩)

namespace Site

variable {vars : String → Cell} {s : Site}

theorem own_of_takes (h : s.operator.Takes s.operands) :
    Own (s.emitted vars).result (s.emitted vars).counters (s.finish vars)
      (s.operator.reach (s.emitted vars).result (s.emitted vars).counters.temporaries)
      (s.own vars) := by
  have hlength : (s.emitted vars).result.length = s.operands.length :=
    Expr.length_emitAll vars s.operands s.counters
  unfold own finish
  generalize s.emitted vars = x at hlength
  generalize s.operator = operator at h
  cases operator with
  | binary op =>
      obtain ⟨hand, hor, hoperands⟩ := h
      obtain ⟨l, r, hcells⟩ := List.length_eq_two.1 (hlength.trans hoperands)
      rw [hcells]
      exact own_combine hand hor l r x.counters
  | call callee => exact own_call callee x.result x.counters

theorem fits (h : s.operator.Takes s.operands) :
    Fits [] s.counters (s.finish vars) [] (s.marks vars) :=
  (Expr.emitAll_fits s.operands s.counters []).join (own_of_takes h).fits

theorem inner_of_mem_places (h : s.operator.Takes s.operands) {l : Place}
    (hl : l ∈ places (s.marks vars)) : l.Inner s.counters (s.finish vars) := by
  obtain ⟨inner, hperm, -, hinner⟩ := (@fits vars s h).places
  obtain ⟨callees, hown⟩ := (@own_of_takes vars s h).fresh
  have hoperands := @Expr.emitAll_fresh vars s.operands s.counters
  exact (hinner l (hperm.mem_iff.1 hl)).1.inner (hown.loops.trans hoperands.loops)
    (hown.ifs.trans hoperands.ifs)

end Site

/-! ## Operands -/

/-- The code of operands is cut where the code of one of them ends. -/
structure Site.Operand.Cuts (vars : String → Cell) (operand : Site.Operand) (k : Counters)
    (p : Nat) (x : Emitted (List Cell)) (first : List Mark) (k₁ : Counters) : Prop where
  marks : x.marks = first ++ (Expr.emitAll vars operand.later k₁).marks
  counters : x.counters = (Expr.emitAll vars operand.later k₁).counters
  ends : operand.ends = p + width first
  fits : Fits [] k k₁ [] first
  cell : operand.cell ∈ x.result
  value : (∃ value, operand.cell = .literal value) ∨ (∃ name, operand.cell = vars name) ∨
    operand.cell ∈ stores first ∧ operand.cell.Between k k₁

theorem Site.exists_cuts {vars : String → Cell} {es : List Expr} {k : Counters} {p : Nat}
    {operand : Site.Operand} (h : operand ∈ Site.operandsOf vars es k p) :
    ∃ first k₁, operand.Cuts vars k p (Expr.emitAll vars es k) first k₁ := by
  induction es generalizing k p with
  | nil => cases h
  | cons e rest ih =>
      have hfresh := @Expr.emit_fresh vars e k
      rcases List.mem_cons.1 h with rfl | h
      · refine ⟨_, _, rfl, rfl, rfl, e.emit_fits k [], List.mem_cons_self, ?_⟩
        exact (e.emit_result k).imp_right fun hresult => hresult.imp_right fun hmem =>
          ⟨hmem, hfresh.stores _ hmem⟩
      · obtain ⟨first, k₁, hcuts⟩ := ih h
        refine ⟨(e.emit vars k).marks ++ first, k₁, ?_, hcuts.counters, ?_,
          (e.emit_fits k []).join hcuts.fits, List.mem_cons_of_mem _ hcuts.cell, ?_⟩
        · rw [List.append_assoc, ← hcuts.marks]
          rfl
        · rw [hcuts.ends, width_append, Nat.add_assoc]
        · refine hcuts.value.imp_right fun hvalue => hvalue.imp_right ?_
          rintro ⟨hmem, hbetween⟩
          exact ⟨by simp [hmem], hbetween.mono hfresh.before (.refl _)⟩

end LittleMan
