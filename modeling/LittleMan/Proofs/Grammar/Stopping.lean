import LittleMan.Proofs.Grammar.Viability

/-!
# Where readers stop

A reader that stops has taken the beginning of what it was to read, so what it has taken can be
completed.  `Reading.Fails` is about the outcomes that `Reading.Yields` leaves out, and the
proofs walk through the readers in the same way.

On the way the budget turns out to be large enough: no reader stops for the lack of one.
-/

namespace LittleMan
namespace Reading

/-- Wherever a reader stops, there is budget left, and the tokens that are left fulfil the
condition. -/
def Fails {α : Type} (x : Reading α) (c : Cursor) (Q : List Spanned → Prop) : Prop :=
  ∀ ⦃stop : Stop⦄, x c = .error stop → stop.fault ≠ .exhausted ∧ Q stop.cursor.rest

namespace Fails

variable {α β : Type} {c : Cursor} {P : α → Cursor → Prop} {Q Q' : List Spanned → Prop}

theorem mono {x : Reading α} (h : Fails x c Q) (hQ : ∀ rest, Q rest → Q' rest) :
    Fails x c Q' := by
  intro stop hstop
  obtain ⟨hfault, hrest⟩ := h hstop
  exact ⟨hfault, hQ _ hrest⟩

theorem bind {x : Reading α} {f : α → Reading β} (hx : Fails x c Q) (hyields : Yields x c P)
    (hf : ∀ a c', P a c' → Fails (f a) c' Q) : Fails (x >>= f) c Q := by
  intro stop hstop
  change (StateT.bind x f) c = _ at hstop
  unfold StateT.bind at hstop
  cases hxc : x c with
  | error stop' =>
      rw [hxc] at hstop
      cases hstop
      exact hx hxc
  | ok pair =>
      obtain ⟨a, c'⟩ := pair
      rw [hxc] at hstop
      exact hf a c' (hyields hxc) hstop

theorem pure (b : β) : Fails (Pure.pure b : Reading β) c Q := by
  intro stop hstop
  cases hstop

/-- A reader that only makes something of what it is given stops where that one does. -/
theorem map {x : Reading α} {g : α → β} (h : Fails x c Q) :
    Fails (x >>= fun a => Pure.pure (g a)) c Q :=
  h.bind (P := fun _ _ => True) (fun _ _ _ => trivial) fun _ _ _ => pure _

theorem known {a : α} {f : α → Reading β} (h : Fails (f a) c Q) : Fails (Pure.pure a >>= f) c Q :=
  fun _ hstop => h hstop

theorem stop {fault : ParseFault} (hfault : fault ≠ .exhausted) (h : Q c.rest) :
    Fails (stop fault : Reading β) c Q := by
  rintro stop ⟨⟩
  exact ⟨hfault, h⟩

theorem refuse {fault : Option Token → ParseFault} (hfault : ∀ found, fault found ≠ .exhausted)
    (h : Q c.rest) : Fails (refuse fault : Reading β) c Q := by
  rintro stop ⟨⟩
  exact ⟨hfault _, h⟩

theorem get {f : Cursor → Reading β} (h : Fails (f c) c Q) : Fails (MonadState.get >>= f) c Q :=
  fun _ hstop => h hstop

theorem peek {f : Option Token → Reading β} (h : Fails (f c.peek) c Q) :
    Fails (peek >>= f) c Q :=
  fun _ hstop => h hstop

/-- A choice that depends on the next token. -/
theorem isNext {token : Token} {f : Bool → Reading β}
    (hyes : ∀ s rest, c.rest = s :: rest → s.token = token → Fails (f true) c Q)
    (hno : Fails (f false) c Q) : Fails (isNext token >>= f) c Q := by
  intro stop hstop
  cases hfound : (c.peek == some token) with
  | false => exact hno (by rw [← hfound]; exact hstop)
  | true =>
      obtain ⟨s, hs, htoken⟩ : ∃ s, c.rest.head? = some s ∧ s.token = token := by
        simpa [Cursor.peek] using hfound
      obtain ⟨rest, hrest⟩ := List.head?_eq_some_iff.1 hs
      exact hyes s rest hrest htoken (by rw [← hfound]; exact hstop)

theorem advance {s : Spanned} {rest : List Spanned} {f : Unit → Reading β}
    (hrest : c.rest = s :: rest)
    (h : ∀ c', c'.rest = rest → c'.last = some s.pos → Fails (f ()) c' Q) :
    Fails (advance >>= f) c Q := by
  intro stop hstop
  have hadvance : c.advance = { rest, last := some s.pos } := by
    simp [Cursor.advance, hrest]
  exact h c.advance (by rw [hadvance]) (by rw [hadvance]) hstop

theorem expect {wanted : Token} {text : String} {f : Unit → Reading β} (hmissing : Q c.rest)
    (h : ∀ s c', c.rest = s :: c'.rest → s.token = wanted → Fails (f ()) c' Q) :
    Fails (expect wanted text >>= f) c Q := by
  have hexpect : Fails (Reading.expect wanted text) c Q :=
    isNext (fun _ _ _ _ _ hstop => by cases hstop) (refuse (by simp) hmissing)
  have hyields : Yields (Reading.expect wanted text) c fun _ c' =>
      ∃ s, c.rest = s :: c'.rest ∧ s.token = wanted := by
    refine .isNext (fun s rest hrest htoken => ?_) (.refuse _)
    rintro a c' ⟨⟩
    exact ⟨s, by simp [Cursor.advance, hrest], htoken⟩
  refine hexpect.bind hyields ?_
  rintro - c' ⟨s, hrest, htoken⟩
  exact h s c' hrest htoken

theorem expectName {text : String} {f : String → Reading β} (hmissing : Q c.rest)
    (h : ∀ word s c', c.rest = s :: c'.rest → s.token = .name word → Fails (f word) c' Q) :
    Fails (expectName text >>= f) c Q := by
  have hexpect : Fails (Reading.expectName text) c Q := by
    refine peek ?_
    rcases peek_cases c with ⟨-, hpeek⟩ | ⟨s, rest, hrest, hpeek⟩
    · rw [hpeek]
      exact refuse (by simp) hmissing
    · rw [hpeek]
      cases s.token with
      | name word => exact advance hrest fun _ _ _ => pure _
      | _ => exact refuse (by simp) hmissing
  refine hexpect.bind (Yields.expectName text) ?_
  rintro word c' ⟨s, rest, hrest, htoken, rfl⟩
  exact h word s c' hrest htoken

end Fails

/-! ## Expressions -/

/-- What the readers of expressions have taken when they stop. -/
structure ExpressionsViable (budget : Nat) : Prop where
  expression : ∀ level c, 10 * c.rest.length + 9 ≤ budget + level.rank →
    Fails (expression budget level) c fun rest =>
      ∃ e, Viable false [.phrase (.expr level e)] c.rest rest
  operands : ∀ level left c ts, Derives [.phrase (.expr level left)] ts c.rest →
    10 * c.rest.length + 1 ≤ budget → Fails (operands budget level left) c fun rest =>
      ∃ e, Viable false [.phrase (.expr level e)] ts rest
  arguments : ∀ c, 10 * c.rest.length + 10 ≤ budget → Fails (arguments budget) c fun rest =>
    ∃ es, Viable false [.phrase (.args es)] c.rest rest

/-- An expression of some level, and what comes after it. -/
theorem Fails.expression {budget : Nat} (ih : ExpressionsViable budget) {level : Level}
    {c : Cursor} {β : Type} {f : Expr → Reading β} {Q : List Spanned → Prop}
    (hbudget : 10 * c.rest.length + 9 ≤ budget + level.rank)
    (hstops : ∀ e rest, Viable false [.phrase (.expr level e)] c.rest rest → Q rest)
    (hf : ∀ e c', Derives [.phrase (.expr level e)] c.rest c'.rest →
      c'.rest.length < c.rest.length → Fails (f e) c' Q) :
    Fails (Reading.expression budget level >>= f) c Q := by
  refine ((ih.expression level c hbudget).mono ?_).bind
    ((expressionsDerived budget).expression level c)
    fun e c' he => hf e c' he (length_lt_of_expr he)
  rintro rest ⟨e, he⟩
  exact hstops e rest he

/-- The arguments of a call, whose name and parenthesis have been read, for an expression and for
a statement. -/
theorem call_viable {budget : Nat} (ih : ExpressionsViable budget) {c : Cursor} {s t : Spanned}
    {ts : List Spanned} {word : String} (hrest : c.rest = s :: t :: ts)
    (hs : s.token = .name word) (ht : t.token = .leftParen)
    (hbudget : 10 * ts.length + 10 ≤ budget) :
    Fails (expression (budget + 1) .primary) c fun rest =>
      ∃ e inner, Production (.expr .primary e) inner ∧ Production (.stmt (.evaluate e)) inner ∧
        Viable true inner c.rest rest := by
  rw [hrest]
  refine .peek ?_
  rw [peek_of_rest hrest hs]
  refine .advance hrest fun c₁ h₁ _ => .isNext (fun _ _ _ _ => ?_) (.pure _)
  refine .advance h₁ fun c₂ h₂ _ => .isNext (fun u us hus hu => ?_) ?_
  · refine .known (.expect ⟨.call word [], _, .callBare word, .evaluateBare word, ?_⟩
      fun _ _ _ _ => .pure _)
    rw [h₂]
    exact .token hs (.token ht (.here rfl))
  · refine ((ih.arguments c₂ (h₂ ▸ hbudget)).mono ?_).bind
      ((expressionsDerived budget).arguments c₂) fun args c₃ hargs =>
        .expect ?_ fun _ _ _ _ => .pure _
    · rintro rest ⟨es, hes⟩
      exact ⟨.call word es, _, .call, .evaluate, .token hs (.token ht (.cons (h₂ ▸ hes) rfl))⟩
    · exact ⟨.call word args, _, .call, .evaluate, .token hs (.token ht
        (.next (h₂ ▸ hargs) (.here rfl)))⟩

theorem primary_viable {budget : Nat} (ih : ExpressionsViable budget) (c : Cursor)
    (hbudget : 10 * c.rest.length + 9 ≤ budget + 1 + 8) :
    Fails (expression (budget + 1) .primary) c fun rest =>
      ∃ e, Viable false [.phrase (.expr .primary e)] c.rest rest := by
  by_cases hcall : ∃ s t ts word, c.rest = s :: t :: ts ∧ s.token = .name word ∧
      t.token = .leftParen
  · obtain ⟨s, t, ts, word, hrest, hs, ht⟩ := hcall
    rw [hrest, List.length_cons, List.length_cons] at hbudget
    refine (call_viable ih hrest hs ht (by omega)).mono ?_
    rintro rest ⟨e, inner, production, -, hinner⟩
    exact ⟨e, .of_production production hinner.weak⟩
  have hmissing : ∃ e, Viable false [.phrase (.expr .primary e)] c.rest c.rest :=
    ⟨.integer 1, .bare rfl⟩
  refine .peek ?_
  rcases peek_cases c with ⟨-, hpeek⟩ | ⟨s, rest, hrest, hpeek⟩
  · rw [hpeek]
    exact .stop (by simp) hmissing
  rw [hpeek]
  cases htoken : s.token with
  | integer value => exact .advance hrest fun _ _ _ => .pure _
  | bool value => exact .advance hrest fun _ _ _ => .pure _
  | text content => exact .advance hrest fun _ _ _ => .pure _
  | name word =>
      refine .advance hrest fun c' h' _ => .isNext (fun t ts hts ht => ?_) (.pure _)
      exact absurd ⟨s, t, ts, word, by rw [hrest, ← h', hts], htoken, ht⟩ hcall
  | leftParen =>
      rw [hrest, List.length_cons] at hbudget
      rw [hrest]
      refine .advance hrest fun c₁ h₁ _ => .expression ih (by simp only [Level.rank, h₁]; omega)
        (fun e r he => ⟨.group e, .of_production .group (.token htoken (.cons (h₁ ▸ he) rfl))⟩)
        fun e c₂ he _ => .expect ?_ fun _ _ _ _ => .pure _
      exact ⟨.group e, .of_production .group (.token htoken (.next (h₁ ▸ he) (.here rfl)))⟩
  | _ => exact .refuse (by simp) hmissing

theorem chain_viable {budget : Nat} (ih : ExpressionsViable budget) {level : Level} (c : Cursor)
    (hlevel : level ≠ .primary) (hbudget : 10 * c.rest.length + 9 ≤ budget + 1 + level.rank) :
    Fails (do
      let first ← expression budget level.operand
      operands budget level first) c fun rest =>
        ∃ e, Viable false [.phrase (.expr level e)] c.rest rest := by
  have hrank := Level.rank_operand hlevel
  have hbound := level.rank_le
  refine .expression ih (by omega)
    (fun e rest he => ⟨e, .of_production (.descend hlevel) he⟩) fun first c' hfirst hlength => ?_
  exact ih.operands level first c' c.rest (.of_production (.descend hlevel) hfirst) (by omega)

theorem comparison_viable {budget : Nat} (ih : ExpressionsViable budget) (c : Cursor)
    (hbudget : 10 * c.rest.length + 9 ≤ budget + 1 + Level.comparison.rank) :
    Fails (expression (budget + 1) .comparison) c fun rest =>
      ∃ e, Viable false [.phrase (.expr .comparison e)] c.rest rest := by
  simp only [Level.rank] at hbudget
  refine .expression ih (by simp only [Level.rank]; omega)
    (fun e rest he => ⟨e, .of_production (.descend (by simp)) he⟩)
    fun left c₁ hleft hlength => .peek ?_
  cases hop : c₁.peek.bind Level.comparison? with
  | none => exact .pure _
  | some op =>
      obtain ⟨s, rest, hrest, hs⟩ := operator_of_peek hop
      rw [hrest] at hleft
      rw [hrest, List.length_cons] at hlength
      refine .advance hrest fun c₂ h₂ _ => .expression ih (by simp only [Level.rank, h₂]; omega)
        (fun right r hright => ⟨.binary left op right, .of_production (.compare hs)
          (.next hleft (.token rfl (h₂ ▸ hright)))⟩) fun right c₃ hright _ => .peek ?_
      cases (c₃.peek.bind Level.comparison?).isSome with
      | false => exact .pure _
      | true =>
          -- The comparison is whole; only a second one must not follow.
          refine .stop (by simp) ⟨.binary left op right, .of_production (.compare hs) ?_⟩
          exact .next hleft (.token rfl (.next (h₂ ▸ hright) (.here rfl)))

theorem expressionsViable (budget : Nat) : ExpressionsViable budget := by
  induction budget with
  | zero =>
      refine ⟨fun level c hbudget => ?_, fun _ _ _ _ _ hbudget => ?_, fun _ hbudget => ?_⟩
      · have hrank := level.rank_le
        omega
      · omega
      · omega
  | succ budget ih =>
      -- A sign, or none: the reader goes on with its own level or with the next one.
      have hsign : ∀ {level : Level} {sign : Token} {op : UnaryOp} (c : Cursor),
          level ≠ .primary → (∀ e, Production (.expr level (.unary op e))
            [.token sign, .phrase (.expr level e)]) →
          10 * c.rest.length + 9 ≤ budget + 1 + level.rank →
          Fails (do
            if ← isNext sign then
              advance
              return .unary op (← expression budget level)
            else expression budget level.operand) c fun rest =>
              ∃ e, Viable false [.phrase (.expr level e)] c.rest rest := by
        intro level sign op c hlevel production hbudget
        have hrank := Level.rank_operand hlevel
        refine .isNext (fun s rest hrest htoken => ?_) ?_
        · rw [hrest, List.length_cons] at hbudget
          rw [hrest]
          exact .advance hrest fun c₁ h₁ _ => .expression ih (by rw [h₁]; omega)
            (fun e r he => ⟨.unary op e, .of_production (production e) (.token htoken (h₁ ▸ he))⟩)
            fun _ _ _ _ => .pure _
        · refine (ih.expression level.operand c (by omega)).mono ?_
          rintro rest ⟨e, he⟩
          exact ⟨e, .of_production (.descend hlevel) he⟩
      refine ⟨fun level c hbudget => ?_, fun level left c ts hleft hbudget => ?_,
        fun c hbudget => ?_⟩
      · cases level with
        | disjunction => exact chain_viable ih c (by simp) hbudget
        | conjunction => exact chain_viable ih c (by simp) hbudget
        | sum => exact chain_viable ih c (by simp) hbudget
        | product => exact chain_viable ih c (by simp) hbudget
        | negation => exact hsign c (by simp) (fun _ => .not) hbudget
        | signed => exact hsign c (by simp) (fun _ => .neg) hbudget
        | comparison => exact comparison_viable ih c hbudget
        | primary => exact primary_viable ih c hbudget
        | power =>
            simp only [Level.rank] at hbudget
            refine .expression ih (by simp only [Level.rank]; omega)
              (fun e rest he => ⟨e, .of_production (.descend (by simp)) he⟩)
              fun base c₁ hbase hlength => .isNext (fun s rest hrest htoken => ?_) (.pure _)
            rw [hrest] at hbase
            rw [hrest, List.length_cons] at hlength
            exact .advance hrest fun c₂ h₂ _ => .expression ih
              (by simp only [Level.rank, h₂]; omega)
              (fun e r he => ⟨.binary base .pow e, .of_production .power
                (.next hbase (.token htoken (h₂ ▸ he)))⟩) fun _ _ _ _ => .pure _
      · refine .peek ?_
        cases hop : c.peek.bind level.operator? with
        | none => exact .pure _
        | some op =>
            obtain ⟨s, rest, hrest, hs⟩ := operator_of_peek hop
            rw [hrest] at hleft
            rw [hrest, List.length_cons] at hbudget
            refine .advance hrest fun c₁ h₁ _ => .expression ih (by rw [h₁]; omega)
              (fun right r hright => ⟨.binary left op right, .of_production (.chain hs)
                (.next hleft (.token rfl (h₁ ▸ hright)))⟩) fun right c₂ hright hlength => ?_
            rw [h₁] at hlength
            exact ih.operands level _ c₂ ts (.of_production (.chain hs)
              (hleft.cons (.token rfl (h₁ ▸ hright)))) (by omega)
      · refine .expression ih (by simp only [Level.rank]; omega)
          (fun e rest he => ⟨[e], .of_production .lastArg he⟩)
          fun first c₁ hfirst hlength => .isNext (fun s rest hrest htoken => ?_) (.pure _)
        rw [hrest] at hfirst
        rw [hrest, List.length_cons] at hlength
        refine .advance hrest fun c₂ h₂ _ => .map ((ih.arguments c₂ (by rw [h₂]; omega)).mono ?_)
        rintro r ⟨es, hes⟩
        exact ⟨first :: es, .of_production .moreArgs (.next hfirst (.token htoken (h₂ ▸ hes)))⟩

/-! ## Statements -/

theorem Fails.whole {budget : Nat} {c : Cursor} {β : Type} {f : Expr → Reading β}
    {Q : List Spanned → Prop} (hbudget : 10 * c.rest.length + 9 ≤ budget)
    (hstops : ∀ e rest, Viable false [.whole e] c.rest rest → Q rest)
    (hf : ∀ e c', Derives [.whole e] c.rest c'.rest → c'.rest.length < c.rest.length →
      Fails (f e) c' Q) :
    Fails (Reading.expression budget .disjunction >>= f) c Q :=
  .expression (expressionsViable budget) hbudget hstops hf

theorem returnStatement_viable {budget : Nat} {c : Cursor} {s : Spanned} {rest : List Spanned}
    (hrest : c.rest = s :: rest) (htoken : s.token = .returnKw)
    (hbudget : 10 * c.rest.length ≤ budget) :
    Fails (returnStatement budget) c fun r =>
      ∃ stmt, Viable true [.phrase (.stmt stmt)] c.rest r := by
  rw [hrest, List.length_cons] at hbudget
  rw [hrest]
  refine .advance hrest fun c₁ h₁ hlast => .get ?_
  rw [takesValue_eq h₁ hlast]
  cases hvalued : s.takesValue rest.head? with
  | false => exact .pure _
  | true =>
      refine .whole (by rw [h₁]; omega) ?_ fun _ _ _ _ => .pure _
      rw [h₁]
      rintro e r ⟨used, word, rfl, -, hderives⟩
      cases used with
      | cons u used =>
          refine ⟨.giveBack (some e), s :: u :: used, word, rfl, by simp, fun other hother => ?_⟩
          exact .of_production .giveBack (.returning htoken hvalued (hderives other hother))
      | nil =>
          refine ⟨.giveBack none, [s], [], rfl, by simp, fun other hother => ?_⟩
          exact .of_production .giveBackNothing
            (.returning htoken (hother.takesValue s) .nil)

theorem nameStatement_viable {budget : Nat} {c : Cursor} {s : Spanned} {rest : List Spanned}
    {word : String} (hrest : c.rest = s :: rest) (htoken : s.token = .name word)
    (hbudget : 10 * c.rest.length + 1 ≤ budget) :
    Fails (nameStatement budget word) c fun r =>
      ∃ stmt, Viable true [.phrase (.stmt stmt)] c.rest r := by
  -- A name alone is the beginning of an assignment.
  have hname : ∃ stmt, Viable true [.phrase (.stmt stmt)] (s :: rest) rest :=
    ⟨.assign word (.integer 1), .of_production .assign (.token htoken (.bare rfl))⟩
  refine .get ?_
  have hsecond : c.peekSecond = rest.head?.map Spanned.token := by
    simp [Cursor.peekSecond, hrest]
  rw [hsecond]
  rcases rest with _ | ⟨t, ts⟩
  · rw [hrest]
    exact .advance hrest fun c₁ h₁ _ => .refuse (by simp) (h₁ ▸ hname)
  rw [List.head?_cons, Option.map_some]
  cases ht : t.token with
  | assign =>
      rw [hrest, List.length_cons, List.length_cons] at hbudget
      rw [hrest]
      exact .advance hrest fun c₁ h₁ _ => .advance h₁ fun c₂ h₂ _ => .whole (by rw [h₂]; omega)
        (fun e r he => ⟨.assign word e, .of_production .assign
          (.token htoken (.token ht (h₂ ▸ he)))⟩) fun _ _ _ _ => .pure _
  | leftParen =>
      obtain ⟨budget, rfl⟩ : ∃ n, budget = n + 1 := ⟨budget - 1, by omega⟩
      have hlength : c.rest.length = ts.length + 2 := by rw [hrest]; rfl
      refine .map ((call_viable (expressionsViable budget) hrest htoken ht (by omega)).mono ?_)
      rintro r ⟨e, inner, -, production, hinner⟩
      exact ⟨.evaluate e, .of_production production hinner⟩
  | equal =>
      rw [hrest]
      exact .advance hrest fun c₁ h₁ _ => .stop (by simp) (h₁ ▸ hname)
  | _ =>
      rw [hrest]
      exact .advance hrest fun c₁ h₁ _ => .refuse (by simp) (h₁ ▸ hname)

/-- What the readers of statements have taken when they stop. -/
structure StatementsViable (budget : Nat) : Prop where
  statement : ∀ c, 10 * c.rest.length + 2 ≤ budget → Fails (statement budget) c fun rest =>
    ∃ s, Viable true [.phrase (.stmt s)] c.rest rest
  block : ∀ closers construct c, 10 * c.rest.length + 3 ≤ budget →
    Fails (block budget closers construct) c fun rest => ∃ b, Viable true [.body b] c.rest rest
  elseIfs : ∀ c, 10 * c.rest.length + 1 ≤ budget → Fails (elseIfs budget) c fun rest =>
    ∃ arms, Viable true [.phrase (.elseIfs arms)] c.rest rest
  cases : ∀ c, 10 * c.rest.length + 1 ≤ budget → Fails (cases budget) c fun rest =>
    ∃ arms, Viable true [.phrase (.cases arms)] c.rest rest

theorem Fails.block {budget : Nat} (ih : StatementsViable budget) {closers : List Token}
    {construct : String} {c : Cursor} {β : Type} {f : List Stmt → Reading β}
    {Q : List Spanned → Prop} (hbudget : 10 * c.rest.length + 3 ≤ budget)
    (hstops : ∀ b rest, Viable true [.body b] c.rest rest → Q rest)
    (hf : ∀ b c', Derives [.body b] c.rest c'.rest → Heads closers c'.rest →
      c'.rest.length ≤ c.rest.length → Fails (f b) c' Q) :
    Fails (Reading.block budget closers construct >>= f) c Q := by
  refine ((ih.block closers construct c hbudget).mono ?_).bind
    ((statementsDerived budget).block closers construct c) ?_
  · rintro rest ⟨b, hb⟩
    exact hstops b rest hb
  · rintro b c' ⟨hb, hheads⟩
    exact hf b c' hb hheads hb.length_le

/-- A block whose one closer is taken after it. -/
theorem Fails.closed {budget : Nat} (ih : StatementsViable budget) {closer : Token}
    {construct : String} {c : Cursor} {β : Type} {f : List Stmt → Reading β}
    {Q : List Spanned → Prop} (hbudget : 10 * c.rest.length + 3 ≤ budget)
    (hstops : ∀ b rest, Viable true [.body b] c.rest rest → Q rest)
    (hf : ∀ b s rest c', Derives [.body b] c.rest (s :: rest) → s.token = closer →
      c'.rest = s :: rest → rest.length < c.rest.length → Fails (f b) c' Q) :
    Fails (Reading.block budget [closer] construct >>= f) c Q := by
  refine .block ih hbudget hstops ?_
  rintro b c' hb ⟨s, rest, hrest, hs⟩ hlength
  rw [hrest] at hb
  rw [hrest, List.length_cons] at hlength
  exact hf b s rest c' hb (by simpa using hs) hrest hlength

/-- A condition or value, a token and a block. -/
theorem arm_viable {budget : Nat} (ih : StatementsViable budget) {separator : Token}
    {text construct : String} {closers : List Token} {c : Cursor} {β : Type}
    {f : Expr → List Stmt → Reading β} {Q : List Spanned → Prop}
    (hseparator : separator.startsExpression = false)
    (hbudget : 10 * c.rest.length + 9 ≤ budget)
    (hstops : ∀ e b rest, Viable false [.whole e, .token separator, .body b] c.rest rest → Q rest)
    (hf : ∀ e b c', Derives [.whole e, .token separator, .body b] c.rest c'.rest →
      c'.rest.length < c.rest.length → Fails (f e b) c' Q) :
    Fails (do
      let test ← expression budget .disjunction
      expect separator text
      let body ← block budget closers construct
      f test body) c Q := by
  have hclosing : Piece.closing [.token separator, .body []] = true := by
    simp [Piece.closing, Piece.fillAll?, Piece.fill?, hseparator]
  refine .whole hbudget (fun e rest he => hstops e [] rest (he.cons hclosing))
    fun e c₁ he hlength => .expect (hstops e [] _ (.next he (.here hclosing)))
    fun s c₂ h₁ hs => ?_
  rw [h₁] at he
  rw [h₁, List.length_cons] at hlength
  refine .block ih (by omega)
    (fun b rest hb => hstops e b rest (.next he (.token hs hb.weak)))
    fun b c₃ hb _ hlength' => hf e b c₃ (he.cons (.token hs hb)) (by omega)

theorem choose_viable {budget : Nat} (ih : StatementsViable budget) {c : Cursor} {s : Spanned}
    {rest : List Spanned} (hrest : c.rest = s :: rest) (hs : s.token = .ifKw)
    (hbudget : 10 * c.rest.length + 2 ≤ budget + 1) :
    Fails (statement (budget + 1)) c fun r =>
      ∃ stmt, Viable true [.phrase (.stmt stmt)] c.rest r := by
  rw [hrest, List.length_cons] at hbudget
  refine .peek ?_
  rw [peek_of_rest hrest hs, hrest]
  refine .advance hrest fun c₁ h₁ _ => arm_viable ih rfl (by rw [h₁]; omega)
    (fun e b r h => ⟨.choose [(e, b)] none, .of_production .choose
      (.token hs (.append (h₁ ▸ h) [.phrase (.elseIfs []), .token .endIfKw] rfl))⟩)
    fun e b c₂ harm hlength => ?_
  rw [h₁] at harm hlength
  refine ((ih.elseIfs c₂ (by omega)).mono ?_).bind ((statementsDerived budget).elseIfs c₂)
    fun arms c₃ harms => .isNext (fun t ts hts ht => ?_) ?_
  · rintro r ⟨arms, harms⟩
    exact ⟨.choose ((e, b) :: arms) none, .of_production .choose
      (.token hs (.after harm rfl (harms.cons rfl)))⟩
  · have hlength' := harms.length_le
    rw [hts, List.length_cons] at hlength'
    rw [hts] at harms
    refine .advance hts fun c₄ h₄ _ => .closed ih (by rw [h₄]; omega) (fun o r ho => ?_)
      fun o u us c₅ ho hu h₅ _ => .known (.expect ?_ fun _ _ _ _ => .pure _)
    · exact ⟨.choose ((e, b) :: arms) (some o), .of_production .chooseElse
        (.token hs (.after harm rfl (.next harms (.token ht (.cons (h₄ ▸ ho.weak) rfl)))))⟩
    · rw [h₅]
      exact ⟨.choose ((e, b) :: arms) (some o), .of_production .chooseElse
        (.token hs (.after harm rfl (.next harms (.token ht (.next (h₄ ▸ ho) (.here rfl))))))⟩
  · refine .known (.expect ?_ fun _ _ _ _ => .pure _)
    exact ⟨.choose ((e, b) :: arms) none, .of_production .choose
      (.token hs (.after harm rfl (.next harms (.here rfl))))⟩

theorem switch_viable {budget : Nat} (ih : StatementsViable budget) {c : Cursor} {s : Spanned}
    {rest : List Spanned} (hrest : c.rest = s :: rest) (hs : s.token = .switchKw)
    (hbudget : 10 * c.rest.length + 2 ≤ budget + 1) :
    Fails (statement (budget + 1)) c fun r =>
      ∃ stmt, Viable true [.phrase (.stmt stmt)] c.rest r := by
  rw [hrest, List.length_cons] at hbudget
  refine .peek ?_
  rw [peek_of_rest hrest hs, hrest]
  refine .advance hrest fun c₁ h₁ _ => .whole (by rw [h₁]; omega)
    (fun e r he => ⟨.switch e [] none, .of_production .switch (.token hs (.cons (h₁ ▸ he) rfl))⟩)
    fun e c₂ he hlength => .expect ⟨.switch e [] none, .of_production .switch
      (.token hs (.next (h₁ ▸ he) (.here rfl)))⟩ fun t c₃ h₂ ht => ?_
  rw [h₁, h₂] at he
  rw [h₁, h₂, List.length_cons] at hlength
  refine ((ih.cases c₃ (by omega)).mono ?_).bind ((statementsDerived budget).cases c₃)
    fun arms c₄ harms => .isNext (fun u us hus hu => ?_) ?_
  · rintro r ⟨arms, harms⟩
    exact ⟨.switch e arms none, .of_production .switch
      (.token hs (.next he (.token ht (harms.weak.cons rfl))))⟩
  · have hlength' := harms.length_le
    rw [hus, List.length_cons] at hlength'
    rw [hus] at harms
    refine .advance hus fun c₅ h₅ _ => .expect ?_ fun v c₆ h₆ hv => ?_
    · exact ⟨.switch e arms (some []), .of_production .switchDefault
        (.token hs (.next he (.token ht (.next harms (.token hu (h₅ ▸ .here rfl))))))⟩
    · rw [h₅] at h₆
      subst h₆
      rw [List.length_cons] at hlength'
      refine .closed ih (by omega) (fun o r ho => ?_) fun o w ws c₇ ho hw h₇ _ =>
        .known (.expect ?_ fun _ _ _ _ => .pure _)
      · exact ⟨.switch e arms (some o), .of_production .switchDefault (.token hs (.next he
          (.token ht (.next harms (.token hu (.token hv (ho.weak.cons rfl)))))))⟩
      · rw [h₇]
        exact ⟨.switch e arms (some o), .of_production .switchDefault (.token hs (.next he
          (.token ht (.next harms (.token hu (.token hv (.next ho (.here rfl))))))))⟩
  · refine .known (.expect ?_ fun _ _ _ _ => .pure _)
    exact ⟨.switch e arms none, .of_production .switch
      (.token hs (.next he (.token ht (.next harms (.here rfl)))))⟩

theorem forLoop_viable {budget : Nat} (ih : StatementsViable budget) {c : Cursor} {s : Spanned}
    {rest : List Spanned} (hrest : c.rest = s :: rest) (hs : s.token = .forKw)
    (hbudget : 10 * c.rest.length + 2 ≤ budget + 1) :
    Fails (statement (budget + 1)) c fun r =>
      ∃ stmt, Viable true [.phrase (.stmt stmt)] c.rest r := by
  rw [hrest, List.length_cons] at hbudget
  refine .peek ?_
  rw [peek_of_rest hrest hs, hrest]
  refine .advance hrest fun c₁ h₁ _ => .expectName ?_ fun var t c₂ h₁' ht => ?_
  · exact ⟨.forLoop "i" (.integer 1) (.integer 1) [] "i", .of_production .forLoop
      (.token hs (h₁ ▸ .bare rfl))⟩
  rw [h₁] at h₁'
  subst h₁'
  rw [List.length_cons] at hbudget
  refine .expect ?_ fun u c₃ h₂ hu => ?_
  · exact ⟨.forLoop var (.integer 1) (.integer 1) [] var, .of_production .forLoop
      (.token hs (.token ht (.bare rfl)))⟩
  rw [h₂]
  rw [h₂, List.length_cons] at hbudget
  refine .whole (by omega) (fun first r hfirst => ?_) fun first c₄ hfirst hlength =>
    .expect ?_ fun v c₅ h₄ hv => ?_
  · exact ⟨.forLoop var first (.integer 1) [] var, .of_production .forLoop
      (.token hs (.token ht (.token hu (hfirst.cons rfl))))⟩
  · exact ⟨.forLoop var first (.integer 1) [] var, .of_production .forLoop
      (.token hs (.token ht (.token hu (.next hfirst (.here rfl)))))⟩
  rw [h₄] at hfirst
  rw [h₄, List.length_cons] at hlength
  refine .whole (by omega) (fun last r hlast => ?_) fun last c₆ hlast hlength' =>
    .closed ih (by omega) (fun b r hb => ?_) fun b w ws c₇ hb hw h₇ _ =>
    .advance h₇ fun c₈ h₈ _ => .expectName ?_ fun _ _ _ _ _ => .pure _
  · exact ⟨.forLoop var first last [] var, .of_production .forLoop
      (.token hs (.token ht (.token hu (.next hfirst (.token hv (hlast.cons rfl))))))⟩
  · exact ⟨.forLoop var first last b var, .of_production .forLoop (.token hs (.token ht
      (.token hu (.next hfirst (.token hv (.next hlast (hb.cons rfl)))))))⟩
  · rw [h₈]
    exact ⟨.forLoop var first last b var, .of_production .forLoop (.token hs (.token ht (.token hu
      (.next hfirst (.token hv (.next hlast (.next hb (.token hw (.bare rfl)))))))))⟩

theorem statement_viable {budget : Nat} (ih : StatementsViable budget) (c : Cursor)
    (hbudget : 10 * c.rest.length + 2 ≤ budget + 1) :
    Fails (statement (budget + 1)) c fun rest =>
      ∃ s, Viable true [.phrase (.stmt s)] c.rest rest := by
  have hmissing : ∃ s, Viable true [.phrase (.stmt s)] c.rest c.rest := ⟨.leaveLoop, .here rfl⟩
  rcases peek_cases c with ⟨-, hpeek⟩ | ⟨s, rest, hrest, hpeek⟩
  · refine .peek ?_
    rw [hpeek]
    exact .stop (by simp) hmissing
  by_cases hif : s.token = .ifKw
  · exact choose_viable ih hrest hif hbudget
  by_cases hswitch : s.token = .switchKw
  · exact switch_viable ih hrest hswitch hbudget
  by_cases hfor : s.token = .forKw
  · exact forLoop_viable ih hrest hfor hbudget
  have hlength : c.rest.length = rest.length + 1 := by rw [hrest]; rfl
  refine .peek ?_
  rw [hpeek]
  cases htoken : s.token with
  | ifKw => exact absurd htoken hif
  | switchKw => exact absurd htoken hswitch
  | forKw => exact absurd htoken hfor
  | name word => exact nameStatement_viable hrest htoken (by omega)
  | returnKw => exact returnStatement_viable hrest htoken (by omega)
  | whileKw =>
      rw [hrest]
      refine .advance hrest fun c₁ h₁ _ => .whole (by rw [h₁]; omega) (fun e r he => ?_)
        fun e c₂ he hshorter => .closed ih (by rw [h₁] at hshorter; omega) (fun b r hb => ?_)
          fun _ _ _ _ _ _ h₃ _ => .advance h₃ fun _ _ _ => .pure _
      · exact ⟨.whileLoop e [], .of_production .whileLoop (.token htoken (.cons (h₁ ▸ he) rfl))⟩
      · exact ⟨.whileLoop e b, .of_production .whileLoop
          (.token htoken (.next (h₁ ▸ he) (hb.cons rfl)))⟩
  | doKw =>
      rw [hrest]
      refine .advance hrest fun c₁ h₁ _ => .closed ih (by rw [h₁]; omega) (fun b r hb => ?_)
        fun b t ts c₂ hb ht h₂ hshorter => .advance h₂ fun c₃ h₃ _ => .whole ?_
          (fun e r he => ?_) fun _ _ _ _ => .pure _
      · rw [h₁] at hb
        refine ⟨.untilLoop b (.integer 1), .of_production .untilLoop (.token htoken ?_)⟩
        exact hb.weak.cons rfl
      · rw [h₁] at hshorter
        rw [h₃]
        omega
      · exact ⟨.untilLoop b e, .of_production .untilLoop
          (.token htoken (.next (h₁ ▸ hb) (.token ht (h₃ ▸ he))))⟩
  | breakKw => exact .advance hrest fun _ _ _ => .pure _
  | continueKw => exact .advance hrest fun _ _ _ => .pure _
  | functionKw => exact .stop (by simp) hmissing
  | _ => exact .refuse (by simp) hmissing

/-- The arms of an `if` after the first and those of a `switch`, each after its keyword. -/
theorem arms_viable {budget : Nat} (ih : StatementsViable budget) {keyword separator : Token}
    {text construct : String} {closers : List Token}
    {phrase : List (Expr × List Stmt) → Phrase} {x : Reading (List (Expr × List Stmt))}
    (hseparator : separator.startsExpression = false)
    (hclosing : Piece.closing [.phrase (phrase [])] = true)
    (production : ∀ e b arms, Production (phrase ((e, b) :: arms))
      [.token keyword, .whole e, .token separator, .body b, .phrase (phrase arms)])
    (hx : ∀ c, 10 * c.rest.length + 1 ≤ budget → Fails x c fun rest =>
      ∃ arms, Viable true [.phrase (phrase arms)] c.rest rest)
    (c : Cursor) (hbudget : 10 * c.rest.length + 1 ≤ budget + 1) :
    Fails (do
      if ← isNext keyword then
        advance
        let test ← expression budget .disjunction
        expect separator text
        let body ← block budget closers construct
        return (test, body) :: (← x)
      else return []) c fun rest =>
        ∃ arms, Viable true [.phrase (phrase arms)] c.rest rest := by
  refine .isNext (fun s rest hrest hs => ?_) (.pure _)
  rw [hrest, List.length_cons] at hbudget
  rw [hrest]
  refine .advance hrest fun c₁ h₁ _ => arm_viable ih hseparator (by rw [h₁]; omega)
    (fun e b r h => ⟨[(e, b)], .of_production (production e b [])
      (.token hs (.append (h₁ ▸ h) [.phrase (phrase [])] hclosing))⟩)
    fun e b c₂ harm hlength => ?_
  rw [h₁] at harm hlength
  refine .map ((hx c₂ (by omega)).mono ?_)
  rintro r ⟨arms, harms⟩
  have hproper : Piece.proper [.whole e, .token separator, .body b] = true := by
    have hwhole := (production e b arms).proper
    simp only [Piece.proper, Bool.and_true, Bool.and_eq_true] at hwhole ⊢
    exact hwhole.2
  exact ⟨(e, b) :: arms, .of_production (production e b arms)
    (.token hs (.after harm hproper harms))⟩

theorem statementsViable (budget : Nat) : StatementsViable budget := by
  induction budget with
  | zero =>
      exact ⟨fun _ hbudget => by omega, fun _ _ _ hbudget => by omega,
        fun _ hbudget => by omega, fun _ hbudget => by omega⟩
  | succ budget ih =>
      refine ⟨statement_viable ih, fun closers construct c hbudget => ?_, fun c hbudget => ?_,
        fun c hbudget => ?_⟩
      · refine .get ?_
        cases c.peek.any closers.contains with
        | true => exact .pure _
        | false =>
            cases c.atEnd with
            | true => exact .stop (by simp) ⟨[], .here rfl⟩
            | false =>
                refine ((ih.statement c (by omega)).mono ?_).bind
                  ((statementsDerived budget).statement c) fun s c' hs => ?_
                · rintro r ⟨s, hs⟩
                  exact ⟨[s], .of_production .blockMore (hs.cons rfl)⟩
                · obtain ⟨t, ts, hrest, -, hlength⟩ := hs.starts rfl rfl
                  rw [hrest, List.length_cons] at hbudget
                  exact .block ih (by omega)
                    (fun b r hb => ⟨s :: b, .of_production .blockMore (.next hs hb)⟩)
                    fun _ _ _ _ _ => .pure _
      · exact arms_viable ih rfl rfl (fun _ _ _ => .elseIfsMore) ih.elseIfs c hbudget
      · exact arms_viable ih rfl rfl (fun _ _ _ => .casesMore) ih.cases c hbudget

/-! ## Programs -/

theorem parameters_viable (budget : Nat) (c : Cursor) (hbudget : c.rest.length < budget) :
    Fails (parameters budget) c fun rest =>
      ∃ names, Viable false [.phrase (.params names)] c.rest rest := by
  induction budget generalizing c with
  | zero => omega
  | succ budget ih =>
      refine .expectName ⟨["a"], .bare rfl⟩ fun name s c₁ h₁ hs => ?_
      rw [h₁, List.length_cons] at hbudget
      rw [h₁]
      refine .isNext (fun t ts hts ht => ?_) (.pure _)
      rw [hts, List.length_cons] at hbudget
      rw [hts]
      refine .advance hts fun c₂ h₂ _ => .map ((ih c₂ (by rw [h₂]; omega)).mono ?_)
      rintro r ⟨names, hnames⟩
      exact ⟨name :: names, .of_production .moreParams (.token hs (.token ht (h₂ ▸ hnames)))⟩

theorem declaration_viable {budget : Nat} {c : Cursor} {s : Spanned} {rest : List Spanned}
    (hrest : c.rest = s :: rest) (hs : s.token = .functionKw)
    (hbudget : 10 * c.rest.length + 2 ≤ budget) :
    Fails (declaration budget) c fun r =>
      ∃ stmt, Viable true [.phrase (.declaration stmt)] c.rest r := by
  rw [hrest, List.length_cons] at hbudget
  rw [hrest]
  refine .advance hrest fun c₁ h₁ _ => .expectName ?_ fun name t c₂ h₁' ht => ?_
  · exact ⟨.function "f" [] [], .of_production .functionBare (.token hs (h₁ ▸ .bare rfl))⟩
  rw [h₁] at h₁'
  subst h₁'
  rw [List.length_cons] at hbudget
  refine .expect ?_ fun u c₃ h₂ hu => ?_
  · exact ⟨.function name [] [], .of_production .functionBare (.token hs (.token ht (.bare rfl)))⟩
  rw [h₂]
  rw [h₂, List.length_cons] at hbudget
  refine .isNext (fun _ _ _ _ => ?_) ?_
  · refine .known (.expect ?_ fun w c₄ h₃ hw => .closed (statementsViable budget) ?_
      (fun b r hb => ?_) fun _ _ _ _ _ _ h₅ _ => .advance h₅ fun _ _ _ => .pure _)
    · exact ⟨.function name [] [], .of_production .functionBare
        (.token hs (.token ht (.token hu (.here rfl))))⟩
    · rw [h₃, List.length_cons] at hbudget
      omega
    · rw [h₃]
      exact ⟨.function name [] b, .of_production .functionBare
        (.token hs (.token ht (.token hu (.token hw (hb.weak.cons rfl)))))⟩
  · refine ((parameters_viable budget c₃ (by omega)).mono ?_).bind (parameters_derived budget c₃)
      fun params c₄ hparams => .expect ?_ fun w c₅ h₄ hw => .closed (statementsViable budget) ?_
        (fun b r hb => ?_) fun _ _ _ _ _ _ h₆ _ => .advance h₆ fun _ _ _ => .pure _
    · rintro r ⟨params, hparams⟩
      exact ⟨.function name params [], .of_production .function
        (.token hs (.token ht (.token hu (hparams.cons rfl))))⟩
    · exact ⟨.function name params [], .of_production .function
        (.token hs (.token ht (.token hu (.next hparams (.here rfl)))))⟩
    · have hlength := hparams.length_le
      rw [h₄, List.length_cons] at hlength
      omega
    · rw [h₄] at hparams
      exact ⟨.function name params b, .of_production .function (.token hs (.token ht
        (.token hu (.next hparams (.token hw (hb.weak.cons rfl))))))⟩

theorem topLevel_viable (budget : Nat) (c : Cursor) (hbudget : 10 * c.rest.length + 3 ≤ budget) :
    Fails (topLevel budget) c fun rest =>
      ∃ b, Viable true [.phrase (.program b)] c.rest rest := by
  induction budget generalizing c with
  | zero => omega
  | succ budget ih =>
      -- The rest of the program, after one more statement or function.
      have hmore : ∀ {p : Phrase} {starts : Token → Bool} {s : Stmt} {c' : Cursor},
          (Piece.phrase p).starts? = some starts → Derives [.phrase p] c.rest c'.rest →
          (∀ b, Production (.program (s :: b)) [.phrase p, .phrase (.program b)]) →
          Fails (topLevel budget >>= fun b => Pure.pure (s :: b)) c' fun rest =>
            ∃ b, Viable true [.phrase (.program b)] c.rest rest := by
        intro p starts s c' hstarts hs production
        obtain ⟨t, ts, hrest, -, hlength⟩ := hs.starts rfl hstarts
        rw [hrest, List.length_cons] at hbudget
        refine .map ((ih c' (by omega)).mono ?_)
        rintro r ⟨b, hb⟩
        exact ⟨s :: b, .of_production (production b) (.next hs hb)⟩
      refine .get ?_
      cases c.atEnd with
      | true => exact .pure _
      | false =>
          refine .isNext (fun s rest hrest hs => ?_) ?_
          · refine ((declaration_viable hrest hs (by omega)).mono ?_).bind
              (declaration_derived budget hrest hs) fun stmt c' hstmt =>
                hmore rfl hstmt fun _ => .programFunction
            rintro r ⟨stmt, hstmt⟩
            exact ⟨[stmt], .of_production .programFunction (hstmt.cons rfl)⟩
          · refine (((statementsViable budget).statement c (by omega)).mono ?_).bind
              ((statementsDerived budget).statement c) fun stmt c' hstmt =>
                hmore rfl hstmt fun _ => .programStmt
            rintro r ⟨stmt, hstmt⟩
            exact ⟨[stmt], .of_production .programStmt (hstmt.cons rfl)⟩

end Reading
end LittleMan
