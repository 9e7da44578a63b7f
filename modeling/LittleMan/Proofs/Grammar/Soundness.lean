import LittleMan.Proofs.Grammar

/-!
# What is read is derived

`Reading.Yields` says what a reader that comes to an end at a cursor has found.  The rules
follow the tokens that a reader takes, so that the proof for a construct walks through its
reader once and ends with the production of the construct.

The readers count down a budget, and the proofs are by induction on it.
-/

namespace LittleMan
namespace Reading

/-- Whatever a reader gives back at a cursor, it fulfils the condition. -/
def Yields {α : Type} (x : Reading α) (c : Cursor) (Q : α → Cursor → Prop) : Prop :=
  ∀ ⦃a : α⦄ ⦃c' : Cursor⦄, x c = .ok (a, c') → Q a c'

namespace Yields

variable {α β : Type} {P : α → Cursor → Prop} {Q : β → Cursor → Prop} {c : Cursor}

theorem bind {x : Reading α} {f : α → Reading β} (hx : Yields x c P)
    (hf : ∀ a c', P a c' → Yields (f a) c' Q) : Yields (x >>= f) c Q := by
  intro b c'' hok
  change (StateT.bind x f) c = _ at hok
  unfold StateT.bind at hok
  cases hx' : x c with
  | error stop => simp [hx', Bind.bind, Except.bind] at hok
  | ok pair =>
      obtain ⟨a, c'⟩ := pair
      rw [hx'] at hok
      exact hf a c' (hx hx') hok

theorem pure {b : β} (h : Q b c) : Yields (Pure.pure b : Reading β) c Q := by
  intro b' c' hok
  obtain ⟨rfl, rfl⟩ : b = b' ∧ c = c' := by
    simpa [Pure.pure, StateT.pure, Except.pure] using hok
  exact h

theorem known {a : α} {f : α → Reading β} (h : Yields (f a) c Q) :
    Yields (Pure.pure a >>= f) c Q :=
  fun _ _ hok => h hok

theorem stop (fault : ParseFault) : Yields (stop fault : Reading β) c Q := by
  intro b c' hok
  simp [Reading.stop] at hok

theorem refuse (fault : Option Token → ParseFault) : Yields (refuse fault : Reading β) c Q := by
  intro b c' hok
  simp [Reading.refuse] at hok

theorem get {f : Cursor → Reading β} (h : Yields (f c) c Q) :
    Yields (MonadState.get >>= f) c Q :=
  fun _ _ hok => h hok

theorem peek {f : Option Token → Reading β} (h : Yields (f c.peek) c Q) :
    Yields (peek >>= f) c Q :=
  fun _ _ hok => h hok

/-- A choice that depends on the next token. -/
theorem isNext {token : Token} {f : Bool → Reading β}
    (hyes : ∀ s rest, c.rest = s :: rest → s.token = token → Yields (f true) c Q)
    (hno : Yields (f false) c Q) : Yields (isNext token >>= f) c Q := by
  intro b c' hok
  cases hfound : (c.peek == some token) with
  | false => exact hno (by rw [← hfound]; exact hok)
  | true =>
      obtain ⟨s, hs, htoken⟩ : ∃ s, c.rest.head? = some s ∧ s.token = token := by
        simpa [Cursor.peek] using hfound
      obtain ⟨rest, hrest⟩ := List.head?_eq_some_iff.1 hs
      exact hyes s rest hrest htoken (by rw [← hfound]; exact hok)

theorem isNext_found {token : Token} {s : Spanned} {rest : List Spanned} {f : Bool → Reading β}
    (hrest : c.rest = s :: rest) (htoken : s.token = token) (h : Yields (f true) c Q) :
    Yields (Reading.isNext token >>= f) c Q := by
  intro b c' hok
  have hfound : (c.peek == some token) = true := by simp [Cursor.peek, hrest, htoken]
  exact h (by rw [← hfound]; exact hok)

theorem advance {s : Spanned} {rest : List Spanned} {f : Unit → Reading β}
    (hrest : c.rest = s :: rest)
    (h : ∀ c', c'.rest = rest → c'.last = some s.pos → Yields (f ()) c' Q) :
    Yields (advance >>= f) c Q := by
  intro b c' hok
  have hadvance : c.advance = { rest, last := some s.pos } := by
    simp [Cursor.advance, hrest]
  refine h c.advance ?_ ?_ hok
  · rw [hadvance]
  · rw [hadvance]

theorem expect {wanted : Token} {after : String} {f : Unit → Reading β}
    (h : ∀ s rest c', c.rest = s :: rest → s.token = wanted → c'.rest = rest →
      Yields (f ()) c' Q) :
    Yields (expect wanted after >>= f) c Q := by
  have hexpect : Yields (Reading.expect wanted after) c fun _ c' =>
      ∃ s rest, c.rest = s :: rest ∧ s.token = wanted ∧ c'.rest = rest := by
    refine isNext (fun s rest hrest htoken => ?_) (refuse _)
    intro b c' hok
    have hadvance : Reading.advance c = .ok ((), { rest, last := some s.pos }) := by
      simp [Reading.advance, Cursor.advance, hrest]
    obtain ⟨-, rfl⟩ := Prod.mk.inj (Except.ok.inj (hadvance.symm.trans hok))
    exact ⟨s, rest, hrest, htoken, rfl⟩
  refine hexpect.bind ?_
  rintro - c' ⟨s, rest, hrest, htoken, hc'⟩
  exact h s rest c' hrest htoken hc'

theorem expectName (after : String) : Yields (expectName after) c fun word c' =>
    ∃ s rest, c.rest = s :: rest ∧ s.token = .name word ∧ c'.rest = rest := by
  refine peek ?_
  cases hrest : c.rest with
  | nil =>
      rw [show c.peek = none by simp [Cursor.peek, hrest]]
      exact refuse _
  | cons s rest =>
      rw [show c.peek = some s.token by simp [Cursor.peek, hrest]]
      cases htoken : s.token with
      | name word => exact advance hrest fun c' hc' _ => pure ⟨s, rest, rfl, htoken, hc'⟩
      | _ => exact refuse _

end Yields

/-! ## Expressions -/

/-- What the readers of expressions have found with a budget. -/
structure ExpressionsDerived (budget : Nat) : Prop where
  expression : ∀ level c, Yields (expression budget level) c fun e c' =>
    Derives [.phrase (.expr level e)] c.rest c'.rest
  operands : ∀ level left c, Yields (operands budget level left) c fun e c' =>
    Chain level left c.rest e c'.rest
  arguments : ∀ c, Yields (arguments budget) c fun es c' =>
    Derives [.phrase (.args es)] c.rest c'.rest

theorem peek_cases (c : Cursor) :
    (c.rest = [] ∧ c.peek = none) ∨ ∃ s rest, c.rest = s :: rest ∧ c.peek = some s.token := by
  cases hrest : c.rest with
  | nil => exact .inl ⟨rfl, by simp [Cursor.peek, hrest]⟩
  | cons s rest => exact .inr ⟨s, rest, rfl, by simp [Cursor.peek, hrest]⟩

/-- A token that an operator of a level stands for. -/
theorem operator_of_peek {c : Cursor} {operator? : Token → Option BinaryOp} {op : BinaryOp}
    (h : c.peek.bind operator? = some op) :
    ∃ s rest, c.rest = s :: rest ∧ operator? s.token = some op := by
  rcases peek_cases c with ⟨-, hpeek⟩ | ⟨s, rest, hrest, hpeek⟩
  · simp [hpeek] at h
  · exact ⟨s, rest, hrest, by simpa [hpeek] using h⟩

/-- A name before a parenthesis is a call, which can be an expression or a statement. -/
theorem call_derived {budget : Nat} (ih : ExpressionsDerived budget) {c : Cursor} {s t : Spanned}
    {ts : List Spanned} {word : String} (hrest : c.rest = s :: t :: ts)
    (hs : s.token = .name word) (ht : t.token = .leftParen) :
    Yields (expression (budget + 1) .primary) c fun e c' =>
      ∃ inner, Production (.expr .primary e) inner ∧ Production (.stmt (.evaluate e)) inner ∧
        Derives inner c.rest c'.rest := by
  rw [hrest]
  refine .peek ?_
  rw [show c.peek = some (.name word) by simp [Cursor.peek, hrest, hs]]
  refine .advance hrest fun c₁ h₁ _ => .isNext_found h₁ ht (.advance h₁ fun c₂ h₂ _ =>
    .isNext (fun _ _ _ _ => ?_) ?_)
  · refine .known (.expect fun v vs c₃ hvs hv h₃ => .pure ?_)
    rw [h₂] at hvs
    subst hvs
    exact ⟨_, .callBare word, .evaluateBare word, .token hs (.token ht (.token hv (h₃ ▸ .nil)))⟩
  · refine (ih.arguments c₂).bind fun args c₃ hargs => .expect fun v vs c₄ hvs hv h₄ => .pure ?_
    rw [h₂, hvs] at hargs
    exact ⟨_, .call, .evaluate, .token hs (.token ht (hargs.cons (.token hv (h₄ ▸ .nil))))⟩

theorem primary_derived {budget : Nat} (ih : ExpressionsDerived budget) (c : Cursor) :
    Yields (expression (budget + 1) .primary) c fun e c' =>
      Derives [.phrase (.expr .primary e)] c.rest c'.rest := by
  by_cases hcall : ∃ s t ts word, c.rest = s :: t :: ts ∧ s.token = .name word ∧
      t.token = .leftParen
  · obtain ⟨s, t, ts, word, hrest, hs, ht⟩ := hcall
    intro e c' hok
    obtain ⟨inner, production, -, hinner⟩ := call_derived ih hrest hs ht hok
    exact .of_production production hinner
  refine .peek ?_
  rcases peek_cases c with ⟨-, hpeek⟩ | ⟨s, rest, hrest, hpeek⟩
  · rw [hpeek]
    exact .stop _
  rw [hpeek, hrest]
  cases htoken : s.token with
  | integer value =>
      refine .advance hrest fun c' h' _ => .pure ?_
      exact .of_production (.integer value) (.token htoken (h' ▸ .nil))
  | bool value =>
      refine .advance hrest fun c' h' _ => .pure ?_
      exact .of_production (.bool value) (.token htoken (h' ▸ .nil))
  | text content =>
      refine .advance hrest fun c' h' _ => .pure ?_
      exact .of_production (.text content) (.token htoken (h' ▸ .nil))
  | name word =>
      refine .advance hrest fun c' h' _ => .isNext (fun t ts hts ht => ?_) ?_
      · exact absurd ⟨s, t, ts, word, by rw [hrest, ← h', hts], htoken, ht⟩ hcall
      · exact .pure (.of_production (.name word) (.token htoken (h' ▸ .nil)))
  | leftParen =>
      refine .advance hrest fun c₁ h₁ _ => (ih.expression .disjunction c₁).bind fun e c₂ he =>
        .expect fun t ts c₃ hts ht h₃ => .pure ?_
      rw [h₁, hts] at he
      exact .of_production .group (.token htoken (he.cons (.token ht (h₃ ▸ .nil))))
  | _ => exact .refuse _

theorem expressionsDerived (budget : Nat) : ExpressionsDerived budget := by
  induction budget with
  | zero =>
      exact ⟨fun level _ => by cases level <;> exact .stop _, fun _ _ _ => .stop _,
        fun _ => .stop _⟩
  | succ budget ih =>
      have hchain : ∀ (level : Level) (c : Cursor), level ≠ .primary → Yields (do
          let first ← expression budget level.operand
          operands budget level first) c fun e c' =>
            Derives [.phrase (.expr level e)] c.rest c'.rest := by
        intro level c hlevel
        refine (ih.expression level.operand c).bind fun first c' hfirst => ?_
        intro e c'' hok
        exact (ih.operands level first c' hok).derives (.of_production (.descend hlevel) hfirst)
      have hsign : ∀ {level : Level} {sign : Token} {op : UnaryOp} (c : Cursor),
          level ≠ .primary →
          (∀ {e}, Production (.expr level (.unary op e)) [.token sign, .phrase (.expr level e)]) →
          Yields (do
            if ← isNext sign then
              advance
              return .unary op (← expression budget level)
            else expression budget level.operand) c fun e c' =>
              Derives [.phrase (.expr level e)] c.rest c'.rest := by
        intro level sign op c hlevel production
        refine .isNext (fun s rest hrest htoken => ?_) ?_
        · refine .advance hrest fun c' hc' _ =>
            (ih.expression level c').bind fun e c'' he => .pure ?_
          rw [hrest]
          exact .of_production production (.token htoken (hc' ▸ he))
        · intro e c' hok
          exact .of_production (.descend hlevel) (ih.expression level.operand c hok)
      refine ⟨fun level c => ?_, fun level left c => ?_, fun c => ?_⟩
      · cases level with
        | disjunction => exact hchain .disjunction c (by simp)
        | conjunction => exact hchain .conjunction c (by simp)
        | sum => exact hchain .sum c (by simp)
        | product => exact hchain .product c (by simp)
        | negation => exact hsign c (by simp) .not
        | comparison =>
            refine (ih.expression .sum c).bind fun left c' hleft => .peek ?_
            cases hop : c'.peek.bind Level.comparison? with
            | none => exact .pure (.of_production (.descend (by simp)) hleft)
            | some op =>
                obtain ⟨s, rest, hrest, hs⟩ := operator_of_peek hop
                refine .advance hrest fun c₂ hc₂ _ => (ih.expression .sum c₂).bind
                  fun right c₃ hright => .peek ?_
                cases (c₃.peek.bind Level.comparison?).isSome with
                | true => exact .stop _
                | false =>
                    rw [hrest] at hleft
                    exact .pure (.of_production (.compare hs)
                      (hleft.cons (.token rfl (hc₂ ▸ hright))))
        | power =>
            refine (ih.expression .signed c).bind fun base c' hbase =>
              .isNext (fun s rest hrest htoken => ?_) ?_
            · refine .advance hrest fun c₂ hc₂ _ =>
                (ih.expression .power c₂).bind fun e c₃ he => .pure ?_
              rw [hrest] at hbase
              exact .of_production .power (hbase.cons (.token htoken (hc₂ ▸ he)))
            · exact .pure (.of_production (.descend (by simp)) hbase)
        | signed => exact hsign c (by simp) .neg
        | primary => exact primary_derived ih c
      · refine .peek ?_
        cases hop : c.peek.bind level.operator? with
        | none => exact .pure .done
        | some op =>
            obtain ⟨s, rest, hrest, hs⟩ := operator_of_peek hop
            refine .advance hrest fun c' hc' _ => (ih.expression level.operand c').bind
              fun right c₂ hright => ?_
            intro e c₃ hok
            rw [hrest]
            exact .more hs (hc' ▸ hright) (ih.operands level _ c₂ hok)
      · refine (ih.expression .disjunction c).bind fun first c' hfirst =>
          .isNext (fun s rest hrest htoken => ?_) ?_
        · refine .advance hrest fun c₂ hc₂ _ => (ih.arguments c₂).bind fun es c₃ hes => .pure ?_
          rw [hrest] at hfirst
          exact .of_production .moreArgs (hfirst.cons (.token htoken (hc₂ ▸ hes)))
        · exact .pure (.of_production .lastArg hfirst)

/-! ## Statements -/

/-- Right after a token, the reader of `return` looks for what `takesValue` asks for. -/
theorem takesValue_eq {c : Cursor} {s : Spanned} {rest : List Spanned} (hrest : c.rest = rest)
    (hlast : c.last = some s.pos) :
    (c.staysOnLine && c.peek.any Token.startsExpression) = s.takesValue rest.head? := by
  rcases rest with _ | ⟨u, us⟩ <;>
    simp [Cursor.staysOnLine, Cursor.peek, Spanned.takesValue, hrest, hlast]

theorem returnStatement_derived (budget : Nat) {c : Cursor} {s : Spanned} {rest : List Spanned}
    (hrest : c.rest = s :: rest) (htoken : s.token = .returnKw) :
    Yields (returnStatement budget) c fun stmt c' =>
      Derives [.phrase (.stmt stmt)] c.rest c'.rest := by
  refine .advance hrest fun c' hc' hlast => .get ?_
  rw [takesValue_eq hc' hlast, hrest]
  cases hvalued : s.takesValue rest.head? with
  | true =>
      refine ((expressionsDerived budget).expression .disjunction c').bind fun e c₂ he => .pure ?_
      exact .of_production .giveBack (.returning htoken hvalued (hc' ▸ he))
  | false =>
      exact .pure (.of_production .giveBackNothing (.returning htoken hvalued (hc' ▸ .nil)))

theorem nameStatement_derived (budget : Nat) {c : Cursor} {s : Spanned} {rest : List Spanned}
    {word : String} (hrest : c.rest = s :: rest) (htoken : s.token = .name word) :
    Yields (nameStatement budget word) c fun stmt c' =>
      Derives [.phrase (.stmt stmt)] c.rest c'.rest := by
  refine .get ?_
  have hsecond : c.peekSecond = rest.head?.map Spanned.token := by
    simp [Cursor.peekSecond, hrest]
  rw [hsecond]
  rcases rest with _ | ⟨t, ts⟩
  · exact .advance hrest fun _ _ _ => .refuse _
  rw [List.head?_cons, Option.map_some]
  cases hsecond : t.token with
  | assign =>
      refine .advance hrest fun c' hc' _ => .advance hc' fun c₂ hc₂ _ =>
        ((expressionsDerived budget).expression .disjunction c₂).bind fun e c₃ he => .pure ?_
      rw [hrest]
      exact .of_production .assign (.token htoken (.token hsecond (hc₂ ▸ he)))
  | leftParen =>
      cases budget with
      | zero => exact (Yields.stop _).bind fun _ _ h => h
      | succ budget =>
          refine (call_derived (expressionsDerived budget) hrest htoken hsecond).bind ?_
          rintro e c' ⟨inner, -, production, hinner⟩
          exact .pure (.of_production production hinner)
  | equal => exact .advance hrest fun _ _ _ => .stop _
  | _ => exact .advance hrest fun _ _ _ => .refuse _

/-- What the readers of statements have found with a budget. -/
structure StatementsDerived (budget : Nat) : Prop where
  statement : ∀ c, Yields (statement budget) c fun s c' =>
    Derives [.phrase (.stmt s)] c.rest c'.rest
  block : ∀ closers construct c, Yields (block budget closers construct) c fun b c' =>
    Derives [.phrase (.block b)] c.rest c'.rest ∧
      ∃ s rest, c'.rest = s :: rest ∧ s.token ∈ closers
  elseIfs : ∀ c, Yields (elseIfs budget) c fun arms c' =>
    Derives [.phrase (.elseIfs arms)] c.rest c'.rest
  cases : ∀ c, Yields (cases budget) c fun arms c' =>
    Derives [.phrase (.cases arms)] c.rest c'.rest

/-- The one closer of a block is taken after it. -/
theorem closed_derived {budget : Nat} (ih : StatementsDerived budget) {closer : Token}
    {construct : String} {c : Cursor} {β : Type} {f : List Stmt → Reading β}
    {Q : β → Cursor → Prop}
    (h : ∀ b s rest c', Derives [.phrase (.block b)] c.rest (s :: rest) → s.token = closer →
      c'.rest = s :: rest → Yields (f b) c' Q) :
    Yields (block budget [closer] construct >>= f) c Q := by
  refine (ih.block [closer] construct c).bind ?_
  rintro b c' ⟨hderives, s, rest, hrest, hs⟩
  rw [hrest] at hderives
  exact h b s rest c' hderives (by simpa using hs) hrest

theorem statement_derived {budget : Nat} (ih : StatementsDerived budget) (c : Cursor) :
    Yields (statement (budget + 1)) c fun s c' =>
      Derives [.phrase (.stmt s)] c.rest c'.rest := by
  have hexpression := (expressionsDerived budget).expression .disjunction
  refine .peek ?_
  rcases peek_cases c with ⟨-, hpeek⟩ | ⟨s, rest, hrest, hpeek⟩
  · rw [hpeek]
    exact .stop _
  rw [hpeek]
  cases htoken : s.token with
  | name word => exact nameStatement_derived budget hrest htoken
  | ifKw =>
      rw [hrest]
      refine .advance hrest fun c₁ h₁ _ => (hexpression c₁).bind fun test c₂ htest =>
        .expect fun t ts c₃ h₂ ht h₃ => (ih.block _ _ c₃).bind ?_
      rintro body c₄ ⟨hbody, -⟩
      refine (ih.elseIfs c₄).bind fun arms c₅ harms => .isNext (fun u us hus hu => ?_) ?_
      · refine .advance hus fun c₆ h₆ _ => closed_derived ih fun otherwise w ws c₇ hotherwise hw h₇ =>
          .known (.expect fun x xs c₈ hxs hx h₈ => .pure ?_)
        rw [h₇] at hxs
        cases hxs
        rw [h₁, h₂] at htest
        rw [h₃] at hbody
        rw [hus] at harms
        rw [h₆] at hotherwise
        exact .of_production .chooseElse (.token htoken (htest.cons (.token ht (hbody.cons
          (harms.cons (.token hu (hotherwise.cons (.token hx (h₈ ▸ .nil)))))))))
      · refine .known (.expect fun u us c₆ hus hu h₆ => .pure ?_)
        rw [h₁, h₂] at htest
        rw [h₃] at hbody
        rw [hus] at harms
        exact .of_production .choose (.token htoken (htest.cons (.token ht (hbody.cons
          (harms.cons (.token hu (h₆ ▸ .nil)))))))
  | whileKw =>
      rw [hrest]
      refine .advance hrest fun c₁ h₁ _ => (hexpression c₁).bind fun e c₂ he =>
        closed_derived ih fun b t ts c₃ hb ht h₃ => .advance h₃ fun c₄ h₄ _ => .pure ?_
      exact .of_production .whileLoop (.token htoken ((h₁ ▸ he).cons (hb.cons
        (.token ht (h₄ ▸ .nil)))))
  | doKw =>
      rw [hrest]
      refine .advance hrest fun c₁ h₁ _ => closed_derived ih fun b t ts c₂ hb ht h₂ =>
        .advance h₂ fun c₃ h₃ _ => (hexpression c₃).bind fun e c₄ he => .pure ?_
      exact .of_production .untilLoop (.token htoken ((h₁ ▸ hb).cons (.token ht (h₃ ▸ he))))
  | forKw =>
      rw [hrest]
      refine .advance hrest fun c₁ h₁ _ => (Yields.expectName _).bind ?_
      rintro var c₂ ⟨v, vs, h₁', hv, h₂⟩
      refine .expect fun t ts c₃ h₂' ht h₃ => (hexpression c₃).bind fun first c₄ hfirst =>
        .expect fun u us c₅ h₄ hu h₅ => (hexpression c₅).bind fun last c₆ hlast =>
        closed_derived ih fun b w ws c₇ hb hw h₇ => .advance h₇ fun c₈ h₈ _ =>
        (Yields.expectName _).bind ?_
      rintro closing c₉ ⟨x, xs, h₈', hx, h₉⟩
      refine .pure ?_
      rw [h₁] at h₁'
      rw [h₂] at h₂'
      rw [h₈] at h₈'
      subst h₁' h₂' h₈'
      rw [h₃, h₄] at hfirst
      rw [h₅] at hlast
      exact .of_production .forLoop (.token htoken (.token hv (.token ht (hfirst.cons
        (.token hu (hlast.cons (hb.cons (.token hw (.token hx (h₉ ▸ .nil))))))))))
  | switchKw =>
      rw [hrest]
      refine .advance hrest fun c₁ h₁ _ => (hexpression c₁).bind fun e c₂ he =>
        .expect fun t ts c₃ h₂ ht h₃ => (ih.cases c₃).bind fun arms c₄ harms =>
        .isNext (fun u us hus hu => ?_) ?_
      · refine .advance hus fun c₅ h₅ _ => .expect fun v vs c₆ hvs hv h₆ =>
          closed_derived ih fun otherwise w ws c₇ hotherwise hw h₇ =>
          .known (.expect fun x xs c₈ hxs hx h₈ => .pure ?_)
        rw [h₇] at hxs
        rw [h₅] at hvs
        cases hxs
        subst hvs
        rw [h₁, h₂] at he
        rw [h₃, hus] at harms
        rw [h₆] at hotherwise
        exact .of_production .switchDefault (.token htoken (he.cons (.token ht (harms.cons
          (.token hu (.token hv (hotherwise.cons (.token hx (h₈ ▸ .nil)))))))))
      · refine .known (.expect fun u us c₅ hus hu h₅ => .pure ?_)
        rw [h₁, h₂] at he
        rw [h₃, hus] at harms
        exact .of_production .switch (.token htoken (he.cons (.token ht (harms.cons
          (.token hu (h₅ ▸ .nil))))))
  | returnKw => exact returnStatement_derived budget hrest htoken
  | breakKw =>
      rw [hrest]
      exact .advance hrest fun c' h' _ =>
        .pure (.of_production .leaveLoop (.token htoken (h' ▸ .nil)))
  | continueKw =>
      rw [hrest]
      exact .advance hrest fun c' h' _ =>
        .pure (.of_production .nextPass (.token htoken (h' ▸ .nil)))
  | functionKw => exact .stop _
  | _ => exact .refuse _

theorem statementsDerived (budget : Nat) : StatementsDerived budget := by
  induction budget with
  | zero => exact ⟨fun _ => .stop _, fun _ _ _ => .stop _, fun _ => .stop _, fun _ => .stop _⟩
  | succ budget ih =>
      have hexpression := (expressionsDerived budget).expression .disjunction
      refine ⟨statement_derived ih, fun closers construct c => ?_, fun c => ?_, fun c => ?_⟩
      · refine .get ?_
        cases hcloses : c.peek.any closers.contains with
        | true =>
            refine .pure ⟨.of_production .blockEnd .nil, ?_⟩
            rcases peek_cases c with ⟨-, hpeek⟩ | ⟨s, rest, hrest, hpeek⟩
            · simp [hpeek] at hcloses
            · exact ⟨s, rest, hrest, by simpa [hpeek] using hcloses⟩
        | false =>
            cases c.atEnd with
            | true => exact .stop _
            | false =>
                refine (ih.statement c).bind fun s c' hs => (ih.block _ _ c').bind ?_
                rintro b c'' ⟨hb, hclosed⟩
                exact .pure ⟨.of_production .blockMore (hs.cons hb), hclosed⟩
      · refine .isNext (fun s rest hrest htoken => ?_)
          (.pure (.of_production .elseIfsEnd .nil))
        rw [hrest]
        refine .advance hrest fun c₁ h₁ _ => (hexpression c₁).bind fun e c₂ he =>
          .expect fun t ts c₃ h₂ ht h₃ => (ih.block _ _ c₃).bind ?_
        rintro b c₄ ⟨hb, -⟩
        refine (ih.elseIfs c₄).bind fun arms c₅ harms => .pure ?_
        rw [h₁, h₂] at he
        exact .of_production .elseIfsMore (.token htoken (he.cons (.token ht
          ((h₃ ▸ hb).cons harms))))
      · refine .isNext (fun s rest hrest htoken => ?_)
          (.pure (.of_production .casesEnd .nil))
        rw [hrest]
        refine .advance hrest fun c₁ h₁ _ => (hexpression c₁).bind fun e c₂ he =>
          .expect fun t ts c₃ h₂ ht h₃ => (ih.block _ _ c₃).bind ?_
        rintro b c₄ ⟨hb, -⟩
        refine (ih.cases c₄).bind fun arms c₅ harms => .pure ?_
        rw [h₁, h₂] at he
        exact .of_production .casesMore (.token htoken (he.cons (.token ht
          ((h₃ ▸ hb).cons harms))))

/-! ## Programs -/

theorem parameters_derived (budget : Nat) (c : Cursor) :
    Yields (parameters budget) c fun names c' =>
      Derives [.phrase (.params names)] c.rest c'.rest := by
  induction budget generalizing c with
  | zero => exact .stop _
  | succ budget ih =>
      refine (Yields.expectName _).bind ?_
      rintro first c' ⟨s, rest, hrest, hs, h'⟩
      rw [hrest]
      refine .isNext (fun t ts hts ht => ?_) ?_
      · refine .advance hts fun c₂ h₂ _ => (ih c₂).bind fun names c₃ hnames => .pure ?_
        rw [← h', hts]
        exact .of_production .moreParams (.token hs (.token ht (h₂ ▸ hnames)))
      · exact .pure (.of_production (.lastParam first) (.token hs (h' ▸ .nil)))

theorem declaration_derived (budget : Nat) {c : Cursor} {s : Spanned} {rest : List Spanned}
    (hrest : c.rest = s :: rest) (htoken : s.token = .functionKw) :
    Yields (declaration budget) c fun stmt c' =>
      Derives [.phrase (.declaration stmt)] c.rest c'.rest := by
  rw [hrest]
  refine .advance hrest fun c₁ h₁ _ => (Yields.expectName _).bind ?_
  rintro name c₂ ⟨t, ts, h₁', ht, h₂⟩
  refine .expect fun u us c₃ h₂' hu h₃ => .isNext (fun v vs hvs hv => ?_) ?_
  · refine .known (.expect fun w ws c₄ hws hw h₄ => closed_derived (statementsDerived budget)
      fun b x xs c₅ hb hx h₅ => .advance h₅ fun c₆ h₆ _ => .pure ?_)
    rw [h₁] at h₁'
    rw [h₂] at h₂'
    rw [h₃] at hws
    subst h₁' h₂' hws
    exact .of_production .functionBare (.token htoken (.token ht (.token hu (.token hw
      ((h₄ ▸ hb).cons (.token hx (h₆ ▸ .nil)))))))
  · refine (parameters_derived budget c₃).bind fun params c₄ hparams =>
      .expect fun w ws c₅ hws hw h₅ => closed_derived (statementsDerived budget)
      fun b x xs c₆ hb hx h₆ => .advance h₆ fun c₇ h₇ _ => .pure ?_
    rw [h₁] at h₁'
    rw [h₂] at h₂'
    subst h₁' h₂'
    rw [h₃, hws] at hparams
    exact .of_production .function (.token htoken (.token ht (.token hu (hparams.cons
      (.token hw ((h₅ ▸ hb).cons (.token hx (h₇ ▸ .nil))))))))

theorem topLevel_derived (budget : Nat) (c : Cursor) :
    Yields (topLevel budget) c fun b c' =>
      Derives [.phrase (.program b)] c.rest c'.rest ∧ c'.atEnd = true := by
  induction budget generalizing c with
  | zero => exact .stop _
  | succ budget ih =>
      refine .get ?_
      cases hend : c.atEnd with
      | true => exact .pure ⟨.of_production .programEnd .nil, hend⟩
      | false =>
          refine .isNext (fun s rest hrest htoken => ?_) ?_
          · refine (declaration_derived budget hrest htoken).bind fun s c' hs =>
              (ih c').bind ?_
            rintro b c'' ⟨hb, hlast⟩
            exact .pure ⟨.of_production .programFunction (hs.cons hb), hlast⟩
          · refine ((statementsDerived budget).statement c).bind fun s c' hs => (ih c').bind ?_
            rintro b c'' ⟨hb, hlast⟩
            exact .pure ⟨.of_production .programStmt (hs.cons hb), hlast⟩

end Reading
end LittleMan
