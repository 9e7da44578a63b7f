import LittleMan.Proofs.Grammar.Soundness

/-!
# One token of lookahead

What a reader does depends on the tokens that it takes and on the one after them.  `Twins`
are two cursors with the same tokens up to a point, and the same token at that point.  A
reader that does not pass the point at one of them does the same at the other, and it does so
with a larger budget too.

The one place with a second token of lookahead is the name that starts a statement.  The name
is taken in any case, so the token after it is the next one by then.
-/

namespace LittleMan
namespace Reading

variable {α β : Type} {after more : List Spanned}

/-- Cursors with the same tokens up to `after` in the one and `more` in the other, which start
with the same token. -/
structure Twins (after more : List Spanned) (c d : Cursor) : Prop where
  head : after.head? = more.head?
  last : c.last = d.last
  rest : ∃ ahead, c.rest = ahead ++ after ∧ d.rest = ahead ++ more

theorem Twins.head?_eq {c d : Cursor} (h : Twins after more c d) :
    c.rest.head? = d.rest.head? := by
  obtain ⟨ahead, hc, hd⟩ := h.rest
  rw [hc, hd, List.head?_append, List.head?_append, h.head]

theorem Twins.peek_eq {c d : Cursor} (h : Twins after more c d) : c.peek = d.peek := by
  rw [Cursor.peek, Cursor.peek, h.head?_eq]

/-- Where a reader comes to an end, with a result or without. -/
def lands (x : Reading α) (c : Cursor) : Cursor :=
  match x c with
  | .ok (_, c') => c'
  | .error stop => stop.cursor

/-- The second outcome repeats the first, unless that lies behind the common part. -/
def Echoed (after more : List Spanned) :
    Except Stop (α × Cursor) → Except Stop (α × Cursor) → Prop
  | .ok (a, c), second => after.length ≤ c.rest.length →
      ∃ d, second = .ok (a, d) ∧ Twins after more c d
  | .error stop, second => stop.fault ≠ .exhausted → after.length ≤ stop.cursor.rest.length →
      ∃ stop', second = .error stop'

theorem Echoed.of_passed {x : Reading α} {c : Cursor} {second : Except Stop (α × Cursor)}
    (h : (lands x c).rest.length < after.length) : Echoed after more (x c) second := by
  unfold lands at h
  cases hx : x c with
  | ok pair =>
      rw [hx] at h
      exact fun hle => absurd h (Nat.not_lt.2 hle)
  | error stop =>
      rw [hx] at h
      exact fun _ hle => absurd h (Nat.not_lt.2 hle)

/-- A reader repeats at a twin, with this next token, what another one does. -/
structure EchoesAt (after more : List Spanned) (next : Option Token) (x y : Reading α) :
    Prop where
  shrinks : ∀ c, c.peek = next → (lands x c).rest.length ≤ c.rest.length
  echo : ∀ c d, c.peek = next → Twins after more c d → Echoed after more (x c) (y d)

def Echoes (after more : List Spanned) (x y : Reading α) : Prop :=
  ∀ next, EchoesAt after more next x y

namespace Echoes

theorem bind {x y : Reading α} {f g : α → Reading β} (hx : Echoes after more x y)
    (hf : ∀ a, Echoes after more (f a) (g a)) : Echoes after more (x >>= f) (y >>= g) := by
  have hok : ∀ {z : Reading α} {h : α → Reading β} {c a c'}, z c = .ok (a, c') →
      (z >>= h) c = h a c' := by
    intro z h c a c' hz
    change (StateT.bind z h) c = _
    rw [StateT.bind, hz]
    rfl
  have herror : ∀ {z : Reading α} {h : α → Reading β} {c stop}, z c = .error stop →
      (z >>= h) c = .error stop := by
    intro z h c stop hz
    change (StateT.bind z h) c = _
    rw [StateT.bind, hz]
    rfl
  refine fun next => ⟨fun c hc => ?_, fun c d hc htwins => ?_⟩
  · have hshrinks := (hx next).shrinks c hc
    cases hxc : x c with
    | error stop =>
        rw [lands, hxc] at hshrinks
        rw [lands, herror hxc]
        exact hshrinks
    | ok pair =>
        obtain ⟨a, c'⟩ := pair
        rw [lands, hxc] at hshrinks
        rw [lands, hok hxc]
        exact ((hf a _).shrinks c' rfl).trans hshrinks
  · have hecho := (hx next).echo c d hc htwins
    cases hxc : x c with
    | error stop =>
        rw [hxc] at hecho
        rw [herror hxc]
        intro hfault hle
        obtain ⟨stop', hy⟩ := hecho hfault hle
        exact ⟨stop', herror hy⟩
    | ok pair =>
        obtain ⟨a, c'⟩ := pair
        rw [hxc] at hecho
        rw [hok hxc]
        by_cases hle : after.length ≤ c'.rest.length
        · obtain ⟨d', hy, htwins'⟩ := hecho hle
          rw [hok hy]
          exact (hf a _).echo c' d' rfl htwins'
        · exact .of_passed (((hf a _).shrinks c' rfl).trans_lt (Nat.not_le.1 hle))

theorem pure (b : β) : Echoes after more (Pure.pure b : Reading β) (Pure.pure b) :=
  fun _ => ⟨fun _ _ => le_rfl, fun _ d _ htwins _ => ⟨d, rfl, htwins⟩⟩

theorem stop (fault : ParseFault) :
    Echoes after more (stop fault : Reading β) (Reading.stop fault) :=
  fun _ => ⟨fun _ _ => le_rfl, fun _ _ _ _ _ _ => ⟨_, rfl⟩⟩

/-- A budget that is used up says nothing about a larger one. -/
theorem exhausted (y : Reading β) : Echoes after more (Reading.stop .exhausted) y :=
  fun _ => ⟨fun _ _ => le_rfl, fun _ _ _ _ hfault => absurd rfl hfault⟩

theorem refuse (fault : Option Token → ParseFault) :
    Echoes after more (refuse fault : Reading β) (Reading.refuse fault) :=
  fun _ => ⟨fun _ _ => le_rfl, fun _ _ _ _ _ _ => ⟨_, rfl⟩⟩

/-- What comes after a look at the next token has to hold for that token only. -/
theorem peek {f g : Option Token → Reading β}
    (h : ∀ next, EchoesAt after more next (f next) (g next)) :
    Echoes after more (peek >>= f) (Reading.peek >>= g) := by
  refine fun next => ⟨fun c _ => (h c.peek).shrinks c rfl, fun c d _ htwins => ?_⟩
  change Echoed after more (f c.peek c) (g d.peek d)
  rw [← htwins.peek_eq]
  exact (h c.peek).echo c d rfl htwins

theorem get {f g : Cursor → Reading β} (h : ∀ c d : Cursor, c.rest.head? = d.rest.head? →
    c.last = d.last → Echoes after more (f c) (g d)) :
    Echoes after more (MonadState.get >>= f) (MonadState.get >>= g) :=
  fun _ => ⟨fun c _ => (h c c rfl rfl _).shrinks c rfl,
    fun c d _ htwins => (h c d htwins.head?_eq htwins.last _).echo c d rfl htwins⟩

theorem isNext {token : Token} {f g : Bool → Reading β}
    (h : ∀ found, Echoes after more (f found) (g found)) :
    Echoes after more (isNext token >>= f) (Reading.isNext token >>= g) :=
  peek fun next => h (next == some token) next

theorem advance : Echoes after more advance Reading.advance := by
  refine fun _ => ⟨fun c _ => ?_, fun c d _ htwins hle => ⟨d.advance, rfl, ?_⟩⟩
  · change c.advance.rest.length ≤ _
    rw [Cursor.advance]
    split <;> simp_all
  · obtain ⟨hhead, hlast, ahead, hc, hd⟩ := htwins
    cases ahead with
    | cons s ahead =>
        rw [List.cons_append] at hc hd
        exact ⟨hhead, by simp [Cursor.advance, hc, hd], ahead, by simp [Cursor.advance, hc],
          by simp [Cursor.advance, hd]⟩
    | nil =>
        rw [List.nil_append] at hc hd
        cases after with
        | cons s after => simp [Cursor.advance, hc] at hle
        | nil =>
            obtain rfl : more = [] := List.head?_eq_none_iff.1 hhead.symm
            exact ⟨rfl, by simp [Cursor.advance, hc, hd, hlast], [], by simp [Cursor.advance, hc],
              by simp [Cursor.advance, hd]⟩

theorem expect (wanted : Token) (text : String) :
    Echoes after more (expect wanted text) (Reading.expect wanted text) :=
  isNext fun
    | true => advance
    | false => refuse _

theorem expectName (text : String) :
    Echoes after more (expectName text) (Reading.expectName text) := by
  refine peek fun next => ?_
  rcases next with _ | token
  · exact refuse _ _
  cases token with
  | name word => exact advance.bind (fun _ => pure word) _
  | _ => exact refuse _ _

end Echoes

/-! ## Expressions -/

/-- The readers of expressions with a budget, and with a larger one. -/
structure ExpressionsEcho (after more : List Spanned) (small large : Nat) : Prop where
  expression : ∀ level, Echoes after more (expression small level) (expression large level)
  operands : ∀ level left,
    Echoes after more (operands small level left) (operands large level left)
  arguments : Echoes after more (arguments small) (arguments large)

/-- What is read after a name in an expression. -/
def called (budget : Nat) (word : String) : Reading Expr := do
  if ← isNext .leftParen then
    advance
    let args ← if ← isNext .rightParen then pure [] else arguments budget
    expect .rightParen ("arguments to '" ++ word ++ "'")
    return .call word args
  else return .name word

theorem expression_name (budget : Nat) {word : String} {c : Cursor}
    (hpeek : c.peek = some (.name word)) : expression (budget + 1) .primary c =
      (advance >>= fun _ => called budget word) c := by
  have hlook : ∀ f : Option Token → Reading Expr, (peek >>= f) c = f (some (.name word)) c := by
    intro f
    rw [← hpeek]
    rfl
  exact hlook _

theorem called_echoes {small large : Nat} (ih : ExpressionsEcho after more small large)
    (word : String) : Echoes after more (called small word) (called large word) := by
  refine .isNext fun opened => ?_
  cases opened with
  | false => exact .pure _
  | true =>
      refine Echoes.advance.bind fun _ => .isNext fun closed => ?_
      cases closed with
      | true => exact (Echoes.pure []).bind fun _ => (Echoes.expect _ _).bind fun _ => .pure _
      | false => exact ih.arguments.bind fun _ => (Echoes.expect _ _).bind fun _ => .pure _

theorem primary_echoes {small large : Nat} (ih : ExpressionsEcho after more small large) :
    Echoes after more (expression (small + 1) .primary) (expression (large + 1) .primary) := by
  refine .peek fun next => ?_
  rcases next with _ | token
  · exact Echoes.stop _ _
  cases token with
  | integer value => exact Echoes.advance.bind (fun _ => .pure _) _
  | bool value => exact Echoes.advance.bind (fun _ => .pure _) _
  | text content => exact Echoes.advance.bind (fun _ => .pure _) _
  | name word => exact Echoes.advance.bind (fun _ => called_echoes ih word) _
  | leftParen =>
      exact Echoes.advance.bind (fun _ => (ih.expression _).bind fun _ =>
        (Echoes.expect _ _).bind fun _ => .pure _) _
  | _ => exact Echoes.refuse _ _

theorem expressionsEcho {small large : Nat} (hle : small ≤ large) :
    ExpressionsEcho after more small large := by
  induction small generalizing large with
  | zero =>
      exact ⟨fun level => by cases level <;> exact .exhausted _, fun _ _ => .exhausted _,
        .exhausted _⟩
  | succ small ih =>
      obtain ⟨large, rfl⟩ : ∃ n, large = n + 1 := ⟨large - 1, by omega⟩
      replace ih := ih (Nat.le_of_succ_le_succ hle)
      have hchain : ∀ level : Level, Echoes after more
          (do
            let first ← expression small level.operand
            operands small level first)
          (do
            let first ← expression large level.operand
            operands large level first) :=
        fun level => (ih.expression _).bind fun first => ih.operands level first
      have hsign : ∀ (level : Level) (sign : Token) (op : UnaryOp), Echoes after more
          (do
            if ← isNext sign then
              advance
              return .unary op (← expression small level)
            else expression small level.operand)
          (do
            if ← isNext sign then
              advance
              return .unary op (← expression large level)
            else expression large level.operand) := by
        refine fun level sign op => .isNext fun found => ?_
        cases found with
        | true => exact Echoes.advance.bind fun _ => (ih.expression _).bind fun _ => .pure _
        | false => exact ih.expression _
      refine ⟨fun level => ?_, fun level left => ?_, ?_⟩
      · cases level with
        | disjunction => exact hchain .disjunction
        | conjunction => exact hchain .conjunction
        | sum => exact hchain .sum
        | product => exact hchain .product
        | primary => exact primary_echoes ih
        | negation => exact hsign .negation .not .not
        | signed => exact hsign .signed .minus .neg
        | power =>
            refine (ih.expression _).bind fun base => .isNext fun raised => ?_
            cases raised with
            | true => exact Echoes.advance.bind fun _ => (ih.expression _).bind fun _ => .pure _
            | false => exact .pure _
        | comparison =>
            refine (ih.expression _).bind fun left => .peek fun next => ?_
            cases next.bind Level.comparison? with
            | none => exact Echoes.pure _ _
            | some op =>
                refine Echoes.advance.bind (fun _ => (ih.expression _).bind fun right =>
                  .peek fun next => ?_) _
                cases (next.bind Level.comparison?).isSome with
                | true => exact Echoes.stop _ _
                | false => exact Echoes.pure _ _
      · refine .peek fun next => ?_
        cases next.bind level.operator? with
        | none => exact Echoes.pure _ _
        | some op =>
            exact Echoes.advance.bind (fun _ => (ih.expression _).bind fun _ =>
              ih.operands level _) _
      · refine (ih.expression _).bind fun first => .isNext fun followed => ?_
        cases followed with
        | true => exact Echoes.advance.bind fun _ => ih.arguments.bind fun _ => .pure _
        | false => exact .pure _

/-! ## Statements -/

/-- A reader that takes a token first has passed a point that stands before it. -/
theorem lands_advance_lt {f : Unit → Reading α} {c : Cursor} (hrest : c.rest ≠ [])
    (hf : Echoes after more (f ()) (f ())) :
    (lands (advance >>= f) c).rest.length < c.rest.length := by
  obtain ⟨s, rest, hc⟩ := List.exists_cons_of_ne_nil hrest
  have hadvance : c.advance.rest = rest := by simp [Cursor.advance, hc]
  have hle : (lands (f ()) c.advance).rest.length ≤ c.advance.rest.length :=
    (hf _).shrinks c.advance rfl
  rw [hadvance] at hle
  rw [hc]
  exact Nat.lt_succ_of_le hle

/-- What is read from a name at the start of a statement, given the token after it. -/
def named (budget : Nat) (word : String) : Option Token → Reading Stmt
  | some .assign => do
      advance
      advance
      return .assign word (← expression budget .disjunction)
  | some .leftParen => return .evaluate (← expression budget .primary)
  | some .equal => do
      advance
      stop .equalityForAssignment
  | _ => do
      advance
      refuse (.danglingName word)

theorem nameStatement_eq (budget : Nat) (word : String) (c : Cursor) :
    nameStatement budget word c = named budget word c.peekSecond c :=
  rfl

theorem named_echoes {small large : Nat} (hle : small ≤ large) (word : String)
    (second : Option Token) : Echoes after more (named small word second)
      (named large word second) := by
  have ih : ExpressionsEcho after more small large := expressionsEcho hle
  rcases second with _ | token
  · exact Echoes.advance.bind fun _ => .refuse _
  cases token with
  | assign =>
      exact Echoes.advance.bind fun _ => Echoes.advance.bind fun _ => (ih.expression _).bind
        fun _ => .pure _
  | leftParen => exact (ih.expression _).bind fun _ => .pure _
  | equal => exact Echoes.advance.bind fun _ => .stop _
  | _ => exact Echoes.advance.bind fun _ => .refuse _

/-- Whatever comes after the name, the name itself is taken. -/
theorem named_passes (budget : Nat) {word : String} (second : Option Token) {c : Cursor}
    (hpeek : c.peek = some (.name word)) (hrest : c.rest = after)
    (result : Except Stop (Stmt × Cursor)) :
    Echoed after more (named budget word second c) result := by
  have hne : c.rest ≠ [] := by
    intro hnil
    simp [Cursor.peek, hnil] at hpeek
  have htakes : ∀ f : Unit → Reading Stmt, Echoes after more (f ()) (f ()) →
      Echoed after more ((advance >>= f) c) result :=
    fun f hf => .of_passed (hrest ▸ lands_advance_lt hne hf)
  have ih : ExpressionsEcho after more budget budget := expressionsEcho le_rfl
  rcases second with _ | token
  · exact htakes _ (.refuse _)
  cases token with
  | assign => exact htakes _ (Echoes.advance.bind fun _ => (ih.expression _).bind fun _ => .pure _)
  | equal => exact htakes _ (.stop _)
  | leftParen =>
      cases budget with
      | zero => exact fun hfault => absurd rfl hfault
      | succ budget =>
          have hname : named (budget + 1) word (some .leftParen) c =
              (advance >>= fun _ => called budget word >>= fun e =>
                Pure.pure (Stmt.evaluate e)) c := by
            simp only [named, bind, StateT.bind, expression_name budget hpeek]
            rfl
          rw [hname]
          exact htakes _ ((called_echoes (expressionsEcho le_rfl) word).bind fun _ => .pure _)
  | _ => exact htakes _ (.refuse _)

theorem nameStatement_echoes {small large : Nat} (hle : small ≤ large) (word : String) :
    EchoesAt after more (some (.name word)) (nameStatement small word)
      (nameStatement large word) := by
  have hnamed : ∀ second, Echoes after more (named small word second) (named large word second) :=
    named_echoes hle word
  refine ⟨fun c _ => (hnamed c.peekSecond _).shrinks c rfl, fun c d hpeek htwins => ?_⟩
  rw [nameStatement_eq, nameStatement_eq]
  obtain ⟨ahead, hc, hd⟩ := htwins.rest
  cases ahead with
  | nil => exact named_passes small _ hpeek hc _
  | cons s ahead =>
      have hsecond : c.peekSecond = d.peekSecond := by
        simp [Cursor.peekSecond, hc, hd, htwins.head]
      rw [← hsecond]
      exact (hnamed _ _).echo c d rfl htwins

theorem returnStatement_echoes {small large : Nat} (hle : small ≤ large) :
    Echoes after more (returnStatement small) (returnStatement large) := by
  have ih : ExpressionsEcho after more small large := expressionsEcho hle
  refine Echoes.advance.bind fun _ => .get fun c d hhead hlast => ?_
  have hline : (c.staysOnLine && c.peek.any Token.startsExpression) =
      (d.staysOnLine && d.peek.any Token.startsExpression) := by
    cases hc : c.rest <;> cases hd : d.rest <;>
      simp_all [Cursor.staysOnLine, Cursor.peek]
  rw [hline]
  cases d.staysOnLine && d.peek.any Token.startsExpression with
  | true => exact (ih.expression _).bind fun _ => .pure _
  | false => exact .pure _

/-- The readers of statements with a budget, and with a larger one. -/
structure StatementsEcho (after more : List Spanned) (small large : Nat) : Prop where
  statement : Echoes after more (statement small) (statement large)
  block : ∀ closers construct,
    Echoes after more (block small closers construct) (block large closers construct)
  elseIfs : Echoes after more (elseIfs small) (elseIfs large)
  cases : Echoes after more (cases small) (cases large)

theorem statement_echoes {small large : Nat} (hle : small ≤ large)
    (ih : StatementsEcho after more small large) :
    Echoes after more (statement (small + 1)) (statement (large + 1)) := by
  have hexpression := (expressionsEcho hle : ExpressionsEcho after more _ _).expression .disjunction
  refine .peek fun next => ?_
  rcases next with _ | token
  · exact Echoes.stop _ _
  cases token with
  | name word => exact nameStatement_echoes hle word
  | ifKw =>
      refine Echoes.advance.bind (fun _ => hexpression.bind fun test =>
        (Echoes.expect _ _).bind fun _ => (ih.block _ _).bind fun body =>
        ih.elseIfs.bind fun others => .isNext fun found => ?_) _
      cases found with
      | true =>
          exact Echoes.advance.bind fun _ => (ih.block _ _).bind fun otherwise =>
            (Echoes.pure _).bind fun _ => (Echoes.expect _ _).bind fun _ => .pure _
      | false => exact (Echoes.pure _).bind fun _ => (Echoes.expect _ _).bind fun _ => .pure _
  | whileKw =>
      exact Echoes.advance.bind (fun _ => hexpression.bind fun condition =>
        (ih.block _ _).bind fun body => Echoes.advance.bind fun _ => .pure _) _
  | doKw =>
      exact Echoes.advance.bind (fun _ => (ih.block _ _).bind fun body =>
        Echoes.advance.bind fun _ => hexpression.bind fun condition => .pure _) _
  | forKw =>
      exact Echoes.advance.bind (fun _ => (Echoes.expectName _).bind fun var =>
        (Echoes.expect _ _).bind fun _ => hexpression.bind fun first =>
        (Echoes.expect _ _).bind fun _ => hexpression.bind fun last =>
        (ih.block _ _).bind fun body => Echoes.advance.bind fun _ =>
        (Echoes.expectName _).bind fun closing => .pure _) _
  | switchKw =>
      refine Echoes.advance.bind (fun _ => hexpression.bind fun subject =>
        (Echoes.expect _ _).bind fun _ => ih.cases.bind fun arms => .isNext fun found => ?_) _
      cases found with
      | true =>
          exact Echoes.advance.bind fun _ => (Echoes.expect _ _).bind fun _ =>
            (ih.block _ _).bind fun otherwise => (Echoes.pure _).bind fun _ =>
            (Echoes.expect _ _).bind fun _ => .pure _
      | false => exact (Echoes.pure _).bind fun _ => (Echoes.expect _ _).bind fun _ => .pure _
  | returnKw => exact returnStatement_echoes hle _
  | breakKw => exact Echoes.advance.bind (fun _ => .pure _) _
  | continueKw => exact Echoes.advance.bind (fun _ => .pure _) _
  | functionKw => exact Echoes.stop _ _
  | _ => exact Echoes.refuse _ _

/-- A condition or value, a token and a block, and the arms after them. -/
theorem arm_echoes {small large : Nat} (hle : small ≤ large)
    (ih : StatementsEcho after more small large) {separator : Token} {text construct : String}
    {closers : List Token} {x y : Reading (List (Expr × List Stmt))}
    (hxy : Echoes after more x y) : Echoes after more
      (do
        let test ← expression small .disjunction
        expect separator text
        let body ← block small closers construct
        return (test, body) :: (← x))
      (do
        let test ← expression large .disjunction
        expect separator text
        let body ← block large closers construct
        return (test, body) :: (← y)) :=
  ((expressionsEcho hle).expression _).bind fun _ => (Echoes.expect _ _).bind fun _ =>
    (ih.block _ _).bind fun _ => hxy.bind fun _ => .pure _

theorem statementsEcho {small large : Nat} (hle : small ≤ large) :
    StatementsEcho after more small large := by
  induction small generalizing large with
  | zero => exact ⟨.exhausted _, fun _ _ => .exhausted _, .exhausted _, .exhausted _⟩
  | succ small ih =>
      obtain ⟨large, rfl⟩ : ∃ n, large = n + 1 := ⟨large - 1, by omega⟩
      replace hle := Nat.le_of_succ_le_succ hle
      replace ih := ih hle
      refine ⟨statement_echoes hle ih, fun closers construct => .get fun c d hhead _ => ?_,
        .isNext fun found => ?_, .isNext fun found => ?_⟩
      · have hpeek : c.peek = d.peek := by rw [Cursor.peek, Cursor.peek, hhead]
        have hend : c.atEnd = d.atEnd := by rw [Cursor.atEnd, Cursor.atEnd, hpeek]
        rw [hpeek, hend]
        split
        · exact .pure _
        · split
          · exact .stop _
          · exact ih.statement.bind fun _ => (ih.block _ _).bind fun _ => .pure _
      · cases found with
        | true => exact Echoes.advance.bind fun _ => arm_echoes hle ih ih.elseIfs
        | false => exact .pure _
      · cases found with
        | true => exact Echoes.advance.bind fun _ => arm_echoes hle ih ih.cases
        | false => exact .pure _

/-! ## Programs -/

theorem parameters_echoes {small large : Nat} (hle : small ≤ large) :
    Echoes after more (parameters small) (parameters large) := by
  induction small generalizing large with
  | zero => exact .exhausted _
  | succ small ih =>
      obtain ⟨large, rfl⟩ : ∃ n, large = n + 1 := ⟨large - 1, by omega⟩
      refine (Echoes.expectName _).bind fun first => .isNext fun followed => ?_
      cases followed with
      | true =>
          exact Echoes.advance.bind fun _ => (ih (Nat.le_of_succ_le_succ hle)).bind fun _ =>
            .pure _
      | false => exact .pure _

theorem declaration_echoes {small large : Nat} (hle : small ≤ large) :
    Echoes after more (declaration small) (declaration large) := by
  refine Echoes.advance.bind fun _ => (Echoes.expectName _).bind fun name =>
    (Echoes.expect _ _).bind fun _ => .isNext fun closed => ?_
  have hbody : ∀ params, Echoes after more
      (do
        expect .rightParen "parameter list"
        let body ← block small [.endFunctionKw] "function"
        advance
        return Stmt.function name params body)
      (do
        expect .rightParen "parameter list"
        let body ← block large [.endFunctionKw] "function"
        advance
        return Stmt.function name params body) :=
    fun params => (Echoes.expect _ _).bind fun _ => ((statementsEcho hle).block _ _).bind
      fun _ => Echoes.advance.bind fun _ => .pure _
  cases closed with
  | true => exact (Echoes.pure _).bind hbody
  | false => exact (parameters_echoes hle).bind hbody

theorem topLevel_echoes {small large : Nat} (hle : small ≤ large) :
    Echoes after more (topLevel small) (topLevel large) := by
  induction small generalizing large with
  | zero => exact .exhausted _
  | succ small ih =>
      obtain ⟨large, rfl⟩ : ∃ n, large = n + 1 := ⟨large - 1, by omega⟩
      replace hle := Nat.le_of_succ_le_succ hle
      refine .get fun c d hhead _ => ?_
      have hend : c.atEnd = d.atEnd := by
        rw [Cursor.atEnd, Cursor.atEnd, Cursor.peek, Cursor.peek, hhead]
      rw [hend]
      split
      · exact .pure _
      · refine .isNext fun declared => ?_
        cases declared with
        | true => exact (declaration_echoes hle).bind fun _ => (ih hle).bind fun _ => .pure _
        | false =>
            exact (statementsEcho hle).statement.bind fun _ => (ih hle).bind fun _ => .pure _

end Reading
end LittleMan
