import LittleMan.Report
import Mathlib.Tactic.Common

/-!
# Layout

The layout of a text is where its lines end and where its comments and gaps stand.  Two texts
with the same tokens, but for comments and line ends, mean the same program, or are refused for
the same reason, if they agree in one thing: which of their `return`s have the next token on
their line.

Both texts are read at once.  `Relaid` relates the tokens that are left of the one and of the
other, and `LayoutFree` says of a reader that it keeps this relation and comes to the same end on
both sides.  Every reader but one is such a reader because its parts are.  The exception is the
reader of a `return`, the only one that looks at a position: it asks for the line of the token
that it has just taken, which is the `return` itself.
-/

namespace LittleMan

namespace Token

/-- For each `return`, whether the token after it stands on its line. -/
def returnLines : List Spanned → List Bool
  | [] => []
  | s :: rest =>
      if s.token = .returnKw then
        (rest.head?.any fun next => next.pos.line == s.pos.line) :: returnLines rest
      else returnLines rest

/-- The same tokens, with the same `return`s followed on their line. -/
structure Relaid (tokens others : List Spanned) : Prop where
  same : tokens.map Spanned.token = others.map Spanned.token
  lines : returnLines tokens = returnLines others

instance (tokens others : List Spanned) : Decidable (Relaid tokens others) :=
  decidable_of_iff
    (tokens.map Spanned.token = others.map Spanned.token ∧ returnLines tokens = returnLines others)
    ⟨fun h => ⟨h.1, h.2⟩, fun h => ⟨h.same, h.lines⟩⟩

namespace Relaid

variable {tokens others : List Spanned} {s t : Spanned}

theorem head (h : Relaid (s :: tokens) (t :: others)) : s.token = t.token := by
  have hsame := h.same
  rw [List.map_cons, List.map_cons] at hsame
  exact (List.cons.inj hsame).1

theorem tail (h : Relaid (s :: tokens) (t :: others)) : Relaid tokens others := by
  have hsame := h.same
  have hlines := h.lines
  rw [List.map_cons, List.map_cons] at hsame
  rw [returnLines, returnLines, ← h.head] at hlines
  refine ⟨(List.cons.inj hsame).2, ?_⟩
  split at hlines
  · exact (List.cons.inj hlines).2
  · exact hlines

/-- After a `return` the next tokens agree on whether they stand on its line. -/
theorem line (h : Relaid (s :: tokens) (t :: others)) (hreturn : s.token = .returnKw) :
    (tokens.head?.any fun next => next.pos.line == s.pos.line) =
      others.head?.any fun next => next.pos.line == t.pos.line := by
  have hlines := h.lines
  rw [returnLines, returnLines, if_pos hreturn, if_pos (h.head ▸ hreturn)] at hlines
  exact (List.cons.inj hlines).1

theorem length_eq (h : Relaid tokens others) : tokens.length = others.length := by
  simpa using congrArg List.length h.same

end Relaid
end Token

open Token (Relaid)

namespace Cursor

variable {c d : Cursor}

theorem peek_eq_of_relaid (h : Relaid c.rest d.rest) : c.peek = d.peek := by
  have hsame := congrArg List.head? h.same
  rwa [List.head?_map, List.head?_map] at hsame

theorem peekSecond_eq_of_relaid (h : Relaid c.rest d.rest) : c.peekSecond = d.peekSecond := by
  have hsame := congrArg (fun tokens => tokens.tail.head?) h.same
  simp only [← List.map_tail, List.head?_map] at hsame
  exact hsame

theorem atEnd_eq_of_relaid (h : Relaid c.rest d.rest) : c.atEnd = d.atEnd := by
  rw [atEnd, atEnd, peek_eq_of_relaid h]

theorem advance_relaid (h : Relaid c.rest d.rest) : Relaid c.advance.rest d.advance.rest := by
  unfold advance
  cases hc : c.rest <;> cases hd : d.rest <;> rw [hc, hd] at h
  case nil.nil =>
    rw [hc, hd]
    exact h
  case cons.cons => exact h.tail
  all_goals exact absurd h.length_eq (by simp)

/-- Just after a `return`, the next token stands on its line on both sides or on none. -/
theorem staysOnLine_eq_of_relaid (h : Relaid c.rest d.rest) (hpeek : c.peek = some .returnKw) :
    c.advance.staysOnLine = d.advance.staysOnLine := by
  have hany : ∀ {e : Cursor} {s : Spanned} {rest : List Spanned}, e.rest = s :: rest →
      e.advance.staysOnLine = rest.head?.any fun next => next.pos.line == s.pos.line := by
    intro e s rest he
    cases rest <;> simp [advance, he, staysOnLine]
  cases hc : c.rest with
  | nil => simp [peek, hc] at hpeek
  | cons s tokens =>
      cases hd : d.rest with
      | nil =>
          rw [hc, hd] at h
          exact absurd h.length_eq (by simp)
      | cons t others =>
          rw [hc, hd] at h
          rw [hany hc, hany hd]
          exact h.line (by simpa [peek, hc] using hpeek)

end Cursor

namespace Reading

variable {α β : Type}

/-- The same result with tokens left that differ in layout only, or the same fault. -/
def Agree : Except Stop (α × Cursor) → Except Stop (α × Cursor) → Prop
  | .ok (a, c), .ok (b, d) => a = b ∧ Relaid c.rest d.rest
  | .error stop, .error stop' => stop.fault = stop'.fault
  | .ok _, .error _ | .error _, .ok _ => False

theorem Agree.inv {first second : Except Stop (α × Cursor)} (h : Agree first second) :
    (∃ a c d, first = .ok (a, c) ∧ second = .ok (a, d) ∧ Relaid c.rest d.rest) ∨
      ∃ stop stop', first = .error stop ∧ second = .error stop' ∧ stop.fault = stop'.fault := by
  cases first with
  | error stop =>
      cases second with
      | error stop' => exact .inr ⟨stop, stop', rfl, rfl, h⟩
      | ok _ => exact h.elim
  | ok result =>
      cases second with
      | error _ => exact h.elim
      | ok other =>
          obtain ⟨hsame, hrest⟩ := h
          exact .inl ⟨result.1, result.2, other.2, rfl, by rw [hsame], hrest⟩

/-- A reader comes to the same end on tokens that differ in layout only, with this next one. -/
def LayoutFreeAt (next : Option Token) (x : Reading α) : Prop :=
  ∀ c d : Cursor, c.peek = next → Relaid c.rest d.rest → Agree (x c) (x d)

def LayoutFree (x : Reading α) : Prop :=
  ∀ next, LayoutFreeAt next x

namespace LayoutFree

theorem bind {x : Reading α} {f : α → Reading β} (hx : LayoutFree x)
    (hf : ∀ a, LayoutFree (f a)) : LayoutFree (x >>= f) := by
  intro next c d hpeek hrelaid
  change Agree (StateT.bind x f c) (StateT.bind x f d)
  unfold StateT.bind
  rcases (hx next c d hpeek hrelaid).inv with
    ⟨a, c', d', hc, hd, hrest⟩ | ⟨stop, stop', hc, hd, hfault⟩
  · rw [hc, hd]
    exact hf a _ c' d' rfl hrest
  · rw [hc, hd]
    exact hfault

theorem pure (b : β) : LayoutFree (Pure.pure b : Reading β) :=
  fun _ _ _ _ hrelaid => ⟨rfl, hrelaid⟩

theorem stop (fault : ParseFault) : LayoutFree (stop fault : Reading β) :=
  fun _ _ _ _ _ => rfl

theorem refuse (fault : Option Token → ParseFault) : LayoutFree (refuse fault : Reading β) :=
  fun _ _ _ _ hrelaid => congrArg fault (Cursor.peek_eq_of_relaid hrelaid)

/-- What comes after a look at the next token has to hold for that token only. -/
theorem peek {f : Option Token → Reading β} (h : ∀ next, LayoutFreeAt next (f next)) :
    LayoutFree (peek >>= f) := by
  intro _ c d _ hrelaid
  change Agree (f c.peek c) (f d.peek d)
  rw [← Cursor.peek_eq_of_relaid hrelaid]
  exact h c.peek c d rfl hrelaid

/-- What comes after a look at the cursor has to depend on the tokens only. -/
theorem get {f : Cursor → Reading β} (hsame : ∀ c d : Cursor, Relaid c.rest d.rest → f c = f d)
    (h : ∀ c, LayoutFree (f c)) : LayoutFree (MonadState.get >>= f) := by
  intro next c d hpeek hrelaid
  change Agree (f c c) (f d d)
  rw [← hsame c d hrelaid]
  exact h c next c d hpeek hrelaid

theorem isNext {token : Token} {f : Bool → Reading β} (h : ∀ found, LayoutFree (f found)) :
    LayoutFree (isNext token >>= f) :=
  peek fun next => h (next == some token) next

theorem advance : LayoutFree advance :=
  fun _ _ _ _ hrelaid => ⟨rfl, Cursor.advance_relaid hrelaid⟩

theorem expect (wanted : Token) (text : String) : LayoutFree (expect wanted text) :=
  isNext fun
    | true => advance
    | false => refuse _

theorem expectName (text : String) : LayoutFree (expectName text) := by
  refine peek fun next => ?_
  rcases next with _ | token
  · exact refuse _ _
  cases token with
  | name word => exact advance.bind (fun _ => pure word) _
  | _ => exact refuse _ _

end LayoutFree

/-! ## Expressions -/

structure ExpressionsLayoutFree (budget : Nat) : Prop where
  expression : ∀ level, LayoutFree (expression budget level)
  operands : ∀ level left, LayoutFree (operands budget level left)
  arguments : LayoutFree (arguments budget)

theorem primary_layoutFree {budget : Nat} (ih : ExpressionsLayoutFree budget) :
    LayoutFree (expression (budget + 1) .primary) := by
  refine .peek fun next => ?_
  rcases next with _ | token
  · exact LayoutFree.stop _ _
  cases token with
  | integer value => exact LayoutFree.advance.bind (fun _ => .pure _) _
  | bool value => exact LayoutFree.advance.bind (fun _ => .pure _) _
  | text content => exact LayoutFree.advance.bind (fun _ => .pure _) _
  | name word =>
      refine LayoutFree.advance.bind (fun _ => .isNext fun opened => ?_) _
      cases opened with
      | false => exact .pure _
      | true =>
          refine LayoutFree.advance.bind fun _ => .isNext fun closed => ?_
          cases closed with
          | true =>
              exact (LayoutFree.pure []).bind fun _ => (LayoutFree.expect _ _).bind fun _ =>
                .pure _
          | false => exact ih.arguments.bind fun _ => (LayoutFree.expect _ _).bind fun _ => .pure _
  | leftParen =>
      exact LayoutFree.advance.bind (fun _ => (ih.expression _).bind fun _ =>
        (LayoutFree.expect _ _).bind fun _ => .pure _) _
  | _ => exact LayoutFree.refuse _ _

theorem expressionsLayoutFree (budget : Nat) : ExpressionsLayoutFree budget := by
  induction budget with
  | zero =>
      exact ⟨fun level => by cases level <;> exact .stop _, fun _ _ => .stop _, .stop _⟩
  | succ budget ih =>
      have hchain : ∀ level : Level, LayoutFree (do
          let first ← expression budget level.operand
          operands budget level first) :=
        fun level => (ih.expression _).bind fun first => ih.operands level first
      -- A sign or a `not` before an expression of the same level, or one of the next.
      have hsigned : ∀ {token : Token} {wrap : Expr → Expr} (same tighter : Level), LayoutFree (do
          if ← isNext token then
            advance
            return wrap (← expression budget same)
          else expression budget tighter) := by
        refine fun same tighter => .isNext fun found => ?_
        cases found with
        | true => exact LayoutFree.advance.bind fun _ => (ih.expression _).bind fun _ => .pure _
        | false => exact ih.expression _
      refine ⟨fun level => ?_, fun level left => ?_, ?_⟩
      · cases level with
        | disjunction => exact hchain .disjunction
        | conjunction => exact hchain .conjunction
        | sum => exact hchain .sum
        | product => exact hchain .product
        | primary => exact primary_layoutFree ih
        | negation => exact hsigned .negation .comparison
        | signed => exact hsigned .signed .primary
        | power =>
            refine (ih.expression _).bind fun base => .isNext fun raised => ?_
            cases raised with
            | true => exact LayoutFree.advance.bind fun _ => (ih.expression _).bind fun _ => .pure _
            | false => exact .pure _
        | comparison =>
            refine (ih.expression _).bind fun left => .peek fun next => ?_
            cases next.bind Level.comparison? with
            | none => exact LayoutFree.pure _ _
            | some op =>
                refine LayoutFree.advance.bind (fun _ => (ih.expression _).bind fun right =>
                  .peek fun next => ?_) _
                cases (next.bind Level.comparison?).isSome with
                | true => exact LayoutFree.stop _ _
                | false => exact LayoutFree.pure _ _
      · refine .peek fun next => ?_
        cases next.bind level.operator? with
        | none => exact LayoutFree.pure _ _
        | some op =>
            exact LayoutFree.advance.bind (fun _ => (ih.expression _).bind fun _ =>
              ih.operands level _) _
      · refine (ih.expression _).bind fun first => .isNext fun followed => ?_
        cases followed with
        | true => exact LayoutFree.advance.bind fun _ => ih.arguments.bind fun _ => .pure _
        | false => exact .pure _

/-! ## Statements -/

theorem nameStatement_layoutFree (budget : Nat) (word : String) :
    LayoutFree (nameStatement budget word) := by
  have ih := expressionsLayoutFree budget
  refine .get (fun c d hrelaid => by rw [Cursor.peekSecond_eq_of_relaid hrelaid]) fun c => ?_
  generalize c.peekSecond = second
  rcases second with _ | token
  · exact LayoutFree.advance.bind fun _ => .refuse _
  cases token with
  | assign =>
      exact LayoutFree.advance.bind fun _ => LayoutFree.advance.bind fun _ =>
        (ih.expression _).bind fun _ => .pure _
  | leftParen => exact (ih.expression _).bind fun _ => .pure _
  | equal => exact LayoutFree.advance.bind fun _ => .stop _
  | _ => exact LayoutFree.advance.bind fun _ => .refuse _

/-- A `return` has a value on both sides or on none. -/
theorem returnStatement_layoutFree (budget : Nat) :
    LayoutFreeAt (some .returnKw) (returnStatement budget) := by
  intro c d hpeek hrelaid
  have hnext := Cursor.advance_relaid hrelaid
  have hvalued : (c.advance.staysOnLine && c.advance.peek.any Token.startsExpression) =
      (d.advance.staysOnLine && d.advance.peek.any Token.startsExpression) := by
    rw [Cursor.staysOnLine_eq_of_relaid hrelaid hpeek, Cursor.peek_eq_of_relaid hnext]
  let value (valued : Bool) : Reading Stmt :=
    if valued then do
      return .giveBack (some (← expression budget .disjunction))
    else return .giveBack none
  have hvalue : ∀ valued, LayoutFree (value valued) := fun
    | true => ((expressionsLayoutFree budget).expression _).bind fun _ => .pure _
    | false => .pure _
  change Agree
    (value (c.advance.staysOnLine && c.advance.peek.any Token.startsExpression) c.advance)
    (value (d.advance.staysOnLine && d.advance.peek.any Token.startsExpression) d.advance)
  rw [hvalued]
  exact hvalue _ _ _ _ rfl hnext

structure StatementsLayoutFree (budget : Nat) : Prop where
  statement : LayoutFree (statement budget)
  block : ∀ closers construct, LayoutFree (block budget closers construct)
  elseIfs : LayoutFree (elseIfs budget)
  cases : LayoutFree (cases budget)

theorem statement_layoutFree {budget : Nat} (ih : StatementsLayoutFree budget) :
    LayoutFree (statement (budget + 1)) := by
  have hexpression := (expressionsLayoutFree budget).expression .disjunction
  refine .peek fun next => ?_
  rcases next with _ | token
  · exact LayoutFree.stop _ _
  cases token with
  | name word => exact nameStatement_layoutFree budget word _
  | ifKw =>
      refine LayoutFree.advance.bind (fun _ => hexpression.bind fun test =>
        (LayoutFree.expect _ _).bind fun _ => (ih.block _ _).bind fun body =>
        ih.elseIfs.bind fun others => .isNext fun found => ?_) _
      cases found with
      | true =>
          exact LayoutFree.advance.bind fun _ => (ih.block _ _).bind fun otherwise =>
            (LayoutFree.pure _).bind fun _ => (LayoutFree.expect _ _).bind fun _ => .pure _
      | false =>
          exact (LayoutFree.pure _).bind fun _ => (LayoutFree.expect _ _).bind fun _ => .pure _
  | whileKw =>
      exact LayoutFree.advance.bind (fun _ => hexpression.bind fun condition =>
        (ih.block _ _).bind fun body => LayoutFree.advance.bind fun _ => .pure _) _
  | doKw =>
      exact LayoutFree.advance.bind (fun _ => (ih.block _ _).bind fun body =>
        LayoutFree.advance.bind fun _ => hexpression.bind fun condition => .pure _) _
  | forKw =>
      exact LayoutFree.advance.bind (fun _ => (LayoutFree.expectName _).bind fun var =>
        (LayoutFree.expect _ _).bind fun _ => hexpression.bind fun first =>
        (LayoutFree.expect _ _).bind fun _ => hexpression.bind fun last =>
        (ih.block _ _).bind fun body => LayoutFree.advance.bind fun _ =>
        (LayoutFree.expectName _).bind fun closing => .pure _) _
  | switchKw =>
      refine LayoutFree.advance.bind (fun _ => hexpression.bind fun subject =>
        (LayoutFree.expect _ _).bind fun _ => ih.cases.bind fun arms =>
        .isNext fun found => ?_) _
      cases found with
      | true =>
          exact LayoutFree.advance.bind fun _ => (LayoutFree.expect _ _).bind fun _ =>
            (ih.block _ _).bind fun otherwise => (LayoutFree.pure _).bind fun _ =>
            (LayoutFree.expect _ _).bind fun _ => .pure _
      | false =>
          exact (LayoutFree.pure _).bind fun _ => (LayoutFree.expect _ _).bind fun _ => .pure _
  | returnKw => exact returnStatement_layoutFree budget
  | breakKw => exact LayoutFree.advance.bind (fun _ => .pure _) _
  | continueKw => exact LayoutFree.advance.bind (fun _ => .pure _) _
  | functionKw => exact LayoutFree.stop _ _
  | _ => exact LayoutFree.refuse _ _

/-- An arm that a keyword opens, and the arms after it. -/
theorem arms_layoutFree {budget : Nat} (ih : StatementsLayoutFree budget)
    {opener separator : Token} {text construct : String} {closers : List Token}
    {more : Reading (List (Expr × List Stmt))} (hmore : LayoutFree more) : LayoutFree (do
      if ← isNext opener then
        advance
        let test ← expression budget .disjunction
        expect separator text
        let body ← block budget closers construct
        return (test, body) :: (← more)
      else return []) := by
  refine .isNext fun found => ?_
  cases found with
  | true =>
      exact LayoutFree.advance.bind fun _ => ((expressionsLayoutFree budget).expression _).bind
        fun _ => (LayoutFree.expect _ _).bind fun _ => (ih.block _ _).bind fun _ =>
        hmore.bind fun _ => .pure _
  | false => exact .pure _

theorem statementsLayoutFree (budget : Nat) : StatementsLayoutFree budget := by
  induction budget with
  | zero => exact ⟨.stop _, fun _ _ => .stop _, .stop _, .stop _⟩
  | succ budget ih =>
      refine ⟨statement_layoutFree ih, fun closers construct => .get (fun c d hrelaid => ?_)
        fun c => ?_, arms_layoutFree ih ih.elseIfs, arms_layoutFree ih ih.cases⟩
      · rw [Cursor.peek_eq_of_relaid hrelaid, Cursor.atEnd_eq_of_relaid hrelaid]
      · split
        · exact .pure _
        · split
          · exact .stop _
          · exact ih.statement.bind fun _ => (ih.block _ _).bind fun _ => .pure _

/-! ## Programs -/

theorem parameters_layoutFree (budget : Nat) : LayoutFree (parameters budget) := by
  induction budget with
  | zero => exact .stop _
  | succ budget ih =>
      refine (LayoutFree.expectName _).bind fun first => .isNext fun followed => ?_
      cases followed with
      | true => exact LayoutFree.advance.bind fun _ => ih.bind fun _ => .pure _
      | false => exact .pure _

theorem declaration_layoutFree (budget : Nat) : LayoutFree (declaration budget) := by
  refine LayoutFree.advance.bind fun _ => (LayoutFree.expectName _).bind fun name =>
    (LayoutFree.expect _ _).bind fun _ => .isNext fun closed => ?_
  have hbody : ∀ params, LayoutFree (do
      expect .rightParen "parameter list"
      let body ← block budget [.endFunctionKw] "function"
      advance
      return Stmt.function name params body) :=
    fun params => (LayoutFree.expect _ _).bind fun _ =>
      ((statementsLayoutFree budget).block _ _).bind fun _ => LayoutFree.advance.bind fun _ =>
      .pure _
  cases closed with
  | true => exact (LayoutFree.pure _).bind hbody
  | false => exact (parameters_layoutFree budget).bind hbody

theorem topLevel_layoutFree (budget : Nat) : LayoutFree (topLevel budget) := by
  induction budget with
  | zero => exact .stop _
  | succ budget ih =>
      refine .get (fun c d hrelaid => by rw [Cursor.atEnd_eq_of_relaid hrelaid]) fun c => ?_
      split
      · exact .pure _
      · refine .isNext fun declared => ?_
        cases declared with
        | true => exact (declaration_layoutFree budget).bind fun _ => ih.bind fun _ => .pure _
        | false =>
            exact (statementsLayoutFree budget).statement.bind fun _ => ih.bind fun _ => .pure _

end Reading

namespace Program

/-- The tokens are all that a program is read from. -/
theorem ofTokens_relaid {tokens others : List Spanned}
    (h : Relaid (Token.withoutTrivia tokens) (Token.withoutTrivia others)) :
    (∃ program, ofTokens tokens = .ok program ∧ ofTokens others = .ok program) ∨
      ∃ error error', ofTokens tokens = .error error ∧ ofTokens others = .error error' ∧
        error.cause = error'.cause := by
  have hbudget : (Cursor.start tokens).budget = (Cursor.start others).budget := by
    rw [Cursor.budget, Cursor.budget]
    exact congrArg (fun n => 10 * n + 10) h.length_eq
  have hagree := Reading.topLevel_layoutFree (Cursor.start tokens).budget _ (Cursor.start tokens)
    (Cursor.start others) rfl h
  rw [ofTokens, ofTokens, read, read, ← hbudget]
  rcases hagree.inv with ⟨stmts, c, d, hfirst, hsecond, -⟩ | ⟨stop, stop', hfirst, hsecond, hfault⟩
  · rw [hfirst, hsecond]
    exact .inl ⟨⟨stmts⟩, rfl, rfl⟩
  · rw [hfirst, hsecond]
    exact .inr ⟨stop.error, stop'.error, rfl, rfl, hfault⟩

end Program

/-- Texts that differ in layout only mean the same program and have the same code, or are
refused for the same cause. -/
theorem compile_relaid {source other : String} {tokens others : List Spanned}
    (hscan : Token.scan source = .ok tokens) (hother : Token.scan other = .ok others)
    (h : Relaid (Token.withoutTrivia tokens) (Token.withoutTrivia others)) :
    (∃ program, Program.parse source = .ok program ∧ Program.parse other = .ok program ∧
        ∀ takesNotes, compile source takesNotes = compile other takesNotes) ∨
      ∃ error error' : ParseError,
        Program.parse source = .error error ∧ Program.parse other = .error error' ∧
        error.cause = error'.cause ∧ error.cause.message = error'.cause.message ∧
        ∀ takesNotes, compile source takesNotes = .error (.parse error) ∧
          compile other takesNotes = .error (.parse error') := by
  have hsource : Program.parse source = Program.ofTokens tokens := by rw [Program.parse, hscan]
  have hsecond : Program.parse other = Program.ofTokens others := by rw [Program.parse, hother]
  rcases Program.ofTokens_relaid h with
    ⟨program, hfirst, hsame⟩ | ⟨error, error', hfirst, hsame, hcause⟩
  · rw [hfirst] at hsource
    rw [hsame] at hsecond
    exact .inl ⟨program, hsource, hsecond, fun _ => by rw [compile, compile, hsource, hsecond]⟩
  · rw [hfirst] at hsource
    rw [hsame] at hsecond
    exact .inr ⟨error, error', hsource, hsecond, hcause, congrArg ParseFault.message hcause,
      fun _ => ⟨by rw [compile, hsource], by rw [compile, hsecond]⟩⟩

/-- A function over several lines, with a comment, and the same on fewer lines. -/
def spreadOut : String :=
  "function twice(n)\n  return n + n // the value\nendfunction\nprint(twice(3))\n"

def squeezed : String :=
  "FUNCTION twice ( n ) return n\n+ n EndFunction print(twice(3))"

theorem compile_relaid_spreadOut :
    Program.parse spreadOut = Program.parse squeezed ∧ compile spreadOut = compile squeezed ∧
      ∃ program, Program.parse spreadOut = .ok program := by
  have hrelaid : ((Token.scan spreadOut).toOption.bind fun tokens =>
      (Token.scan squeezed).toOption.map fun others =>
        decide (Relaid (Token.withoutTrivia tokens) (Token.withoutTrivia others))) = some true := by
    decide +kernel
  have hparsed : (Program.parse spreadOut).isOk = true := by decide +kernel
  cases hscan : Token.scan spreadOut with
  | error error =>
      rw [hscan] at hrelaid
      cases hrelaid
  | ok tokens =>
      cases hother : Token.scan squeezed with
      | error error =>
          rw [hscan, hother] at hrelaid
          cases hrelaid
      | ok others =>
          rw [hscan, hother] at hrelaid
          rcases compile_relaid hscan hother (of_decide_eq_true (Option.some.inj hrelaid)) with
            ⟨program, hfirst, hsecond, hcompile⟩ | ⟨error, error', hfirst, -⟩
          · exact ⟨hfirst.trans hsecond.symm, hcompile true, program, hfirst⟩
          · rw [hfirst] at hparsed
            cases hparsed

end LittleMan
