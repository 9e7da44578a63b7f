import LittleMan.Proofs.Grammar.Soundness

/-!
# Derived expressions are read

A reader looks one token ahead, so it follows a derivation as long as the token after a
phrase cannot be taken for a part of the phrase.  Operators bind on to an expression of
their level and of all looser ones, and a parenthesis to a name.  `Stops` says of what
comes after an expression that it does none of this.  Nothing that starts a statement or
closes a block does.

`Reading.Finds` is the counterpart of `Reading.Yields`: the reader does come to an end.
The budget it needs is ten for every token that is left, and a little more.
-/

namespace LittleMan

/-! ## What can go on -/

namespace Level

/-- The levels are counted from the loosest. -/
def rank : Level → Nat
  | .disjunction => 0
  | .conjunction => 1
  | .negation => 2
  | .comparison => 3
  | .sum => 4
  | .product => 5
  | .power => 6
  | .signed => 7
  | .primary => 8

theorem rank_operand {level : Level} (h : level ≠ .primary) :
    level.operand.rank = level.rank + 1 := by
  cases level <;> simp_all [operand, rank]

theorem rank_le (level : Level) : level.rank ≤ 8 := by
  cases level <;> simp [rank]

end Level

/-- The level at which a token goes on with an expression. -/
def Token.joins? : Token → Option Level
  | .or => some .disjunction
  | .and => some .conjunction
  | .equal | .notEqual | .less | .greater | .lessEqual | .greaterEqual => some .comparison
  | .plus | .minus => some .sum
  | .star | .slash | .div | .mod => some .product
  | .caret => some .power
  | .leftParen => some .primary
  | _ => none

/-- Tokens that close a block. -/
def Token.closes : Token → Bool
  | .elseIfKw | .elseKw | .endIfKw | .endWhileKw | .untilKw | .nextKw | .caseKw | .defaultKw
  | .endSwitchKw | .endFunctionKw => true
  | _ => false

/-- What comes next does not go on with an expression of the level. -/
def Stops (level : Level) (rest : List Spanned) : Prop :=
  ∀ s ∈ rest.head?, ∀ joined ∈ s.token.joins?, joined.rank < level.rank

theorem Stops.operand {level : Level} {rest : List Spanned} (h : Stops level rest) :
    Stops level.operand rest := by
  intro s hs joined hjoined
  have hlt := h s hs joined hjoined
  by_cases hprimary : level = .primary
  · subst hprimary
    exact hlt
  · rw [Level.rank_operand hprimary]
    omega

theorem Stops.loosest {rest : List Spanned} (h : Stops .disjunction rest) (level : Level) :
    Stops level rest := by
  intro s hs joined hjoined
  exact absurd (h s hs joined hjoined) (Nat.not_lt_zero _)

theorem stops_of_joins? {level : Level} {t : Spanned} {ts : List Spanned}
    (h : ∀ joined ∈ t.token.joins?, joined.rank < level.rank) : Stops level (t :: ts) := by
  intro s hs
  cases hs
  exact h

theorem stops_of_token {t : Spanned} {ts : List Spanned} (h : t.token.joins? = none)
    (level : Level) : Stops level (t :: ts) :=
  stops_of_joins? (by simp [h])

theorem joins?_of_operator? {level : Level} {t : Token} {op : BinaryOp}
    (h : level.operator? t = some op) : t.joins? = some level := by
  cases level <;> cases t <;> simp_all [Level.operator?, Token.joins?]

theorem joins?_of_comparison? {t : Token} {op : BinaryOp} (h : Level.comparison? t = some op) :
    t.joins? = some .comparison := by
  cases t <;> simp_all [Level.comparison?, Token.joins?]

theorem joins?_of_startsStatement {t : Token} (h : t.startsStatement = true) :
    t.joins? = none := by
  cases t <;> first | rfl | cases h

theorem joins?_of_closes {t : Token} (h : t.closes = true) : t.joins? = none := by
  cases t <;> first | rfl | cases h

/-- No operator of its level follows an expression that stops. -/
theorem Stops.operator? {level : Level} {c : Cursor} (h : Stops level c.rest) :
    c.peek.bind level.operator? = none := by
  cases hop : c.peek.bind level.operator? with
  | none => rfl
  | some op =>
      obtain ⟨s, rest, hrest, hs⟩ := Reading.operator_of_peek hop
      have hlt := h s (by simp [hrest]) level (joins?_of_operator? hs)
      omega

theorem Stops.comparison? {c : Cursor} (h : Stops .comparison c.rest) :
    c.peek.bind Level.comparison? = none := by
  cases hop : c.peek.bind Level.comparison? with
  | none => rfl
  | some op =>
      obtain ⟨s, rest, hrest, hs⟩ := Reading.operator_of_peek hop
      have hlt := h s (by simp [hrest]) .comparison (joins?_of_comparison? hs)
      omega

theorem Stops.token {level : Level} {s : Spanned} {rest : List Spanned} {t : Token}
    (h : Stops level (s :: rest)) {joined : Level} (hjoins : t.joins? = some joined)
    (hrank : level.rank ≤ joined.rank) : s.token ≠ t := by
  rintro rfl
  have hlt := h s rfl joined hjoins
  omega

namespace Reading

theorem peek_of_rest {c : Cursor} {s : Spanned} {ts : List Spanned} {token : Token}
    (hrest : c.rest = s :: ts) (htoken : s.token = token) : c.peek = some token := by
  simp [Cursor.peek, hrest, htoken]

/-- A reader at a cursor gives back a result and leaves a rest. -/
def Finds {α : Type} (x : Reading α) (c : Cursor) (a : α) (rest : List Spanned) : Prop :=
  ∃ c', x c = .ok (a, c') ∧ c'.rest = rest

namespace Finds

variable {α β : Type} {c : Cursor} {a : α} {b : β} {mid rest : List Spanned}

theorem bind {x : Reading α} {f : α → Reading β} (hx : Finds x c a mid)
    (hf : ∀ c', c'.rest = mid → Finds (f a) c' b rest) : Finds (x >>= f) c b rest := by
  obtain ⟨c', hok, hc'⟩ := hx
  obtain ⟨c'', hok', hc''⟩ := hf c' hc'
  refine ⟨c'', ?_, hc''⟩
  change (StateT.bind x f) c = _
  unfold StateT.bind
  rw [hok]
  exact hok'

theorem pure (h : c.rest = rest) : Finds (Pure.pure b : Reading β) c b rest :=
  ⟨c, rfl, h⟩

theorem known {f : α → Reading β} (h : Finds (f a) c b rest) :
    Finds (Pure.pure a >>= f) c b rest :=
  h

theorem get {f : Cursor → Reading β} (h : Finds (f c) c b rest) :
    Finds (MonadState.get >>= f) c b rest :=
  h

theorem peek {f : Option Token → Reading β} (h : Finds (f c.peek) c b rest) :
    Finds (peek >>= f) c b rest :=
  h

variable {s : Spanned} {ts : List Spanned}

theorem isNext_found {token : Token} {f : Bool → Reading β} (hrest : c.rest = s :: ts)
    (htoken : s.token = token) (h : Finds (f true) c b rest) :
    Finds (isNext token >>= f) c b rest := by
  have hfound : (c.peek == some token) = true := by simp [Cursor.peek, hrest, htoken]
  obtain ⟨c', hok, hc'⟩ := h
  exact ⟨c', by rw [← hok, ← hfound]; rfl, hc'⟩

theorem isNext_other {token : Token} {f : Bool → Reading β}
    (hother : ∀ s ∈ c.rest.head?, s.token ≠ token) (h : Finds (f false) c b rest) :
    Finds (isNext token >>= f) c b rest := by
  have hfound : (c.peek == some token) = false := by
    rcases peek_cases c with ⟨-, hpeek⟩ | ⟨s, ts, hrest, hpeek⟩
    · rw [hpeek]
      rfl
    · have hne := hother s (by simp [hrest])
      simp [hpeek, hne]
  obtain ⟨c', hok, hc'⟩ := h
  exact ⟨c', by rw [← hok, ← hfound]; rfl, hc'⟩

theorem advance {f : Unit → Reading β} (hrest : c.rest = s :: ts)
    (h : ∀ c', c'.rest = ts → c'.last = some s.pos → Finds (f ()) c' b rest) :
    Finds (advance >>= f) c b rest := by
  have hadvance : c.advance = { rest := ts, last := some s.pos } := by
    simp [Cursor.advance, hrest]
  obtain ⟨c', hok, hc'⟩ := h c.advance (by rw [hadvance]) (by rw [hadvance])
  exact ⟨c', hok, hc'⟩

theorem expect {wanted : Token} {after : String} {f : Unit → Reading β}
    (hrest : c.rest = s :: ts) (htoken : s.token = wanted)
    (h : ∀ c', c'.rest = ts → Finds (f ()) c' b rest) :
    Finds (expect wanted after >>= f) c b rest := by
  have hexpect : Finds (Reading.expect wanted after) c () ts := by
    refine isNext_found hrest htoken ⟨c.advance, rfl, ?_⟩
    simp [Cursor.advance, hrest]
  exact hexpect.bind h

theorem expectName {after : String} {word : String} {f : String → Reading β}
    (hrest : c.rest = s :: ts) (htoken : s.token = .name word)
    (h : ∀ c', c'.rest = ts → Finds (f word) c' b rest) :
    Finds (expectName after >>= f) c b rest := by
  have hexpect : Finds (Reading.expectName after) c word ts := by
    refine peek ?_
    rw [peek_of_rest hrest htoken]
    exact advance hrest fun c' hc' _ => pure hc'
  exact hexpect.bind h

end Finds

/-! ## Expressions -/

/-- What the readers of expressions find with a budget. -/
structure ExpressionsFound (budget : Nat) : Prop where
  expression : ∀ {level e rest c}, Derives [.phrase (.expr level e)] c.rest rest →
    Stops level rest → 10 * c.rest.length + 9 ≤ budget + level.rank →
    Finds (expression budget level) c e rest
  operands : ∀ {level left e rest c}, Chain level left c.rest e rest → Stops level rest →
    10 * c.rest.length + 1 ≤ budget → Finds (operands budget level left) c e rest
  arguments : ∀ {es rest c}, Derives [.phrase (.args es)] c.rest rest →
    (∀ s ∈ rest.head?, s.token = .rightParen) → 10 * c.rest.length + 10 ≤ budget →
    Finds (arguments budget) c es rest

theorem length_lt_of_expr {level : Level} {e : Expr} {ts rest : List Spanned}
    (h : Derives [.phrase (.expr level e)] ts rest) : rest.length < ts.length := by
  obtain ⟨t, ts', rfl, -, hlength⟩ := h.starts rfl rfl
  exact Nat.lt_succ_of_le hlength

/-- The first token of an expression. -/
theorem head_of_expr {level : Level} {e : Expr} {ts rest : List Spanned}
    (h : Derives [.phrase (.expr level e)] ts rest) :
    ∀ s ∈ ts.head?, level.starts s.token = true := by
  obtain ⟨t, ts', rfl, ht, -⟩ := h.starts rfl rfl
  intro s hs
  cases hs
  exact ht

theorem head_of_args {es : List Expr} {ts rest : List Spanned}
    (h : Derives [.phrase (.args es)] ts rest) :
    ∀ s ∈ ts.head?, s.token.startsExpression = true := by
  obtain ⟨t, ts', rfl, ht, -⟩ := h.starts rfl rfl
  intro s hs
  cases hs
  exact ht

/-- An operand stops where the chain goes on. -/
theorem stops_of_chain {level : Level} {left e : Expr} {ts rest : List Spanned}
    (h : Chain level left ts e rest) (hstops : Stops level rest) : Stops level.operand ts := by
  cases h with
  | done => exact hstops.operand
  | more operator _ _ =>
      have hprimary : level ≠ .primary := by
        rintro rfl
        cases operator
      refine stops_of_joins? fun joined hjoined => ?_
      rw [joins?_of_operator? operator] at hjoined
      cases hjoined
      rw [Level.rank_operand hprimary]
      exact Nat.lt_succ_self _

theorem chain_found {budget : Nat} (ih : ExpressionsFound budget) {level : Level} {e : Expr}
    {rest : List Spanned} {c : Cursor}
    (hlevel : level = .disjunction ∨ level = .conjunction ∨ level = .sum ∨ level = .product)
    (h : Derives [.phrase (.expr level e)] c.rest rest) (hstops : Stops level rest)
    (hbudget : 10 * c.rest.length + 9 ≤ budget + 1 + level.rank) :
    Finds (do
      let first ← expression budget level.operand
      operands budget level first) c e rest := by
  have hprimary : level ≠ .primary := by
    rintro rfl
    simp at hlevel
  have hrank := Level.rank_operand hprimary
  obtain ⟨first, mid, hfirst, hchain⟩ := Chain.of_derives h hlevel
  have hlength := length_lt_of_expr hfirst
  refine (ih.expression hfirst (stops_of_chain hchain hstops) (by omega)).bind fun c' hc' => ?_
  have hbound := level.rank_le
  exact ih.operands (hc' ▸ hchain) hstops (by rw [hc']; omega)

theorem primary_found {budget : Nat} (ih : ExpressionsFound budget) {e : Expr}
    {rest : List Spanned} {c : Cursor} (h : Derives [.phrase (.expr .primary e)] c.rest rest)
    (hstops : Stops .primary rest) (hbudget : 10 * c.rest.length + 9 ≤ budget + 1 + 8) :
    Finds (expression (budget + 1) .primary) c e rest := by
  obtain ⟨inner, production, hinner⟩ := h.phrase_inv
  refine .peek ?_
  cases production with
  | descend hprimary => exact absurd rfl hprimary
  | chain hoperator => cases hoperator
  | integer value =>
      obtain ⟨s, ts, hrest, hs, hmore⟩ := hinner.token_inv
      rw [peek_of_rest hrest hs]
      exact .advance hrest fun c' h' _ => .pure (h'.trans hmore.nil_inv)
  | bool value =>
      obtain ⟨s, ts, hrest, hs, hmore⟩ := hinner.token_inv
      rw [peek_of_rest hrest hs]
      exact .advance hrest fun c' h' _ => .pure (h'.trans hmore.nil_inv)
  | text content =>
      obtain ⟨s, ts, hrest, hs, hmore⟩ := hinner.token_inv
      rw [peek_of_rest hrest hs]
      exact .advance hrest fun c' h' _ => .pure (h'.trans hmore.nil_inv)
  | name word =>
      obtain ⟨s, ts, hrest, hs, hmore⟩ := hinner.token_inv
      obtain rfl := hmore.nil_inv
      rw [peek_of_rest hrest hs]
      refine .advance hrest fun c' h' _ => .isNext_other (fun t ht => ?_) (.pure h')
      rw [h'] at ht
      obtain ⟨ts', rfl⟩ := List.head?_eq_some_iff.1 ht
      exact hstops.token rfl le_rfl
  | callBare callee =>
      obtain ⟨s, ts, hrest, hs, hmore⟩ := hinner.token_inv
      obtain ⟨t, ts, rfl, ht, hmore⟩ := hmore.token_inv
      obtain ⟨u, ts, rfl, hu, hmore⟩ := hmore.token_inv
      obtain rfl := hmore.nil_inv
      rw [peek_of_rest hrest hs]
      refine .advance hrest fun c₁ h₁ _ => .isNext_found h₁ ht (.advance h₁ fun c₂ h₂ _ =>
        .isNext_found h₂ hu (.known (.expect h₂ hu fun c₃ h₃ => .pure h₃)))
  | call =>
      obtain ⟨s, ts, hrest, hs, hmore⟩ := hinner.token_inv
      obtain ⟨t, ts, rfl, ht, hmore⟩ := hmore.token_inv
      obtain ⟨mid, hargs, hmore⟩ := hmore.split
      obtain ⟨u, us, rfl, hu, hmore⟩ := hmore.token_inv
      obtain rfl := hmore.nil_inv
      rw [hrest, List.length_cons, List.length_cons] at hbudget
      rw [peek_of_rest hrest hs]
      refine .advance hrest fun c₁ h₁ _ => .isNext_found h₁ ht (.advance h₁ fun c₂ h₂ _ =>
        .isNext_other (fun v hv => ?_) ?_)
      · rw [h₂] at hv
        intro hparen
        have hstarts := head_of_args hargs v hv
        rw [hparen] at hstarts
        cases hstarts
      · refine (ih.arguments (h₂ ▸ hargs) (by simpa using hu) (by rw [h₂]; omega)).bind
          fun c₃ h₃ => .expect h₃ hu fun c₄ h₄ => .pure h₄
  | group =>
      obtain ⟨s, ts, hrest, hs, hmore⟩ := hinner.token_inv
      obtain ⟨mid, he, hmore⟩ := hmore.split
      obtain ⟨u, us, rfl, hu, hmore⟩ := hmore.token_inv
      obtain rfl := hmore.nil_inv
      rw [hrest, List.length_cons] at hbudget
      rw [peek_of_rest hrest hs]
      refine .advance hrest fun c₁ h₁ _ => (ih.expression (h₁ ▸ he) ?_ ?_).bind
        fun c₂ h₂ => .expect h₂ hu fun c₃ h₃ => .pure h₃
      · exact stops_of_token (by rw [hu]; rfl) _
      · rw [h₁]
        omega

/-- An operator in front of its operand, which no operand of the level below begins with. -/
theorem prefixed_found {budget : Nat} (ih : ExpressionsFound budget) {level : Level} {sign : Token}
    {op : UnaryOp} {e : Expr} {rest : List Spanned} {c : Cursor} (hlevel : level ≠ .primary)
    (hproductions : ∀ {inner}, Production (.expr level e) inner →
      inner = [.phrase (.expr level.operand e)] ∨
        ∃ operand, e = .unary op operand ∧ inner = [.token sign, .phrase (.expr level operand)])
    (hsign : level.operand.starts sign = false)
    (h : Derives [.phrase (.expr level e)] c.rest rest) (hstops : Stops level rest)
    (hbudget : 10 * c.rest.length + 9 ≤ budget + 1 + level.rank) :
    Finds (do
      if ← isNext sign then
        advance
        return .unary op (← expression budget level)
      else expression budget level.operand) c e rest := by
  have hrank := Level.rank_operand hlevel
  obtain ⟨inner, production, hinner⟩ := h.phrase_inv
  rcases hproductions production with rfl | ⟨operand, rfl, rfl⟩
  · refine .isNext_other (fun s hs heq => ?_) (ih.expression hinner hstops.operand (by omega))
    have hstarts := head_of_expr hinner s hs
    rw [heq, hsign] at hstarts
    cases hstarts
  · obtain ⟨s, ts, hrest, hs, hmore⟩ := hinner.token_inv
    rw [hrest, List.length_cons] at hbudget
    refine .isNext_found hrest hs (.advance hrest fun c' h' _ =>
      (ih.expression (h' ▸ hmore) hstops ?_).bind fun c'' h'' => .pure h'')
    rw [h']
    omega

theorem comparison_found {budget : Nat} (ih : ExpressionsFound budget) {e : Expr}
    {rest : List Spanned} {c : Cursor} (h : Derives [.phrase (.expr .comparison e)] c.rest rest)
    (hstops : Stops .comparison rest) (hbudget : 10 * c.rest.length + 9 ≤ budget + 1 + 3) :
    Finds (expression (budget + 1) .comparison) c e rest := by
  obtain ⟨inner, production, hinner⟩ := h.phrase_inv
  cases production with
  | descend =>
      refine (ih.expression hinner hstops.operand
        (by simp only [Level.operand, Level.rank]; omega)).bind fun c' h' => .peek ?_
      rw [Stops.comparison? (h' ▸ hstops)]
      exact .pure h'
  | @compare t op l r hop =>
      obtain ⟨mid, hleft, hmore⟩ := hinner.split
      obtain ⟨s, ts, rfl, hs, hright⟩ := hmore.token_inv
      have hlength := length_lt_of_expr hleft
      rw [List.length_cons] at hlength
      have hjoins : s.token.joins? = some .comparison := by
        rw [hs]
        exact joins?_of_comparison? hop
      refine (ih.expression hleft (stops_of_joins? ?_)
        (by simp only [Level.rank]; omega)).bind fun c₁ h₁ => .peek ?_
      · rw [hjoins]
        simp [Level.rank]
      rw [show c₁.peek.bind Level.comparison? = some op by
        simp [Cursor.peek, h₁, hs, hop]]
      refine .advance h₁ fun c₂ h₂ _ => (ih.expression (h₂ ▸ hright) hstops.operand
        (by simp only [Level.rank, h₂]; omega)).bind fun c₃ h₃ => .peek ?_
      rw [Stops.comparison? (h₃ ▸ hstops)]
      exact .pure h₃
  | chain hoperator => cases hoperator

theorem power_found {budget : Nat} (ih : ExpressionsFound budget) {e : Expr}
    {rest : List Spanned} {c : Cursor} (h : Derives [.phrase (.expr .power e)] c.rest rest)
    (hstops : Stops .power rest) (hbudget : 10 * c.rest.length + 9 ≤ budget + 1 + 6) :
    Finds (expression (budget + 1) .power) c e rest := by
  obtain ⟨inner, production, hinner⟩ := h.phrase_inv
  cases production with
  | descend =>
      refine (ih.expression hinner hstops.operand
        (by simp only [Level.operand, Level.rank]; omega)).bind fun c' h' =>
        .isNext_other (fun s hs => ?_) (.pure h')
      rw [h'] at hs
      obtain ⟨ts, rfl⟩ := List.head?_eq_some_iff.1 hs
      exact hstops.token rfl le_rfl
  | power =>
      obtain ⟨mid, hleft, hmore⟩ := hinner.split
      obtain ⟨s, ts, rfl, hs, hright⟩ := hmore.token_inv
      have hlength := length_lt_of_expr hleft
      rw [List.length_cons] at hlength
      refine (ih.expression hleft (stops_of_joins? ?_)
        (by simp only [Level.rank]; omega)).bind fun c₁ h₁ =>
        .isNext_found h₁ hs (.advance h₁ fun c₂ h₂ _ =>
          (ih.expression (h₂ ▸ hright) hstops
            (by simp only [Level.rank, h₂]; omega)).bind fun c₃ h₃ => .pure h₃)
      rw [hs]
      simp [Token.joins?, Level.rank]
  | chain hoperator => cases hoperator

theorem operands_found {budget : Nat} (ih : ExpressionsFound budget) {level : Level}
    {left e : Expr} {rest : List Spanned} {c : Cursor} (h : Chain level left c.rest e rest)
    (hstops : Stops level rest) (hbudget : 10 * c.rest.length + 1 ≤ budget + 1) :
    Finds (operands (budget + 1) level left) c e rest := by
  refine .peek ?_
  generalize hts : c.rest = ts at h hbudget
  cases h with
  | done =>
      rw [Stops.operator? (hts ▸ hstops)]
      exact .pure hts
  | @more l r e op t ts mid rest operator operand next =>
      rw [List.length_cons] at hbudget
      have hlength := length_lt_of_expr operand
      have hrank := level.operand.rank_le
      rw [show c.peek.bind level.operator? = some op by simp [Cursor.peek, hts, operator]]
      refine .advance hts fun c₁ h₁ _ => (ih.expression (h₁ ▸ operand)
        (stops_of_chain next hstops) (by rw [h₁]; omega)).bind fun c₂ h₂ => ?_
      exact ih.operands (h₂ ▸ next) hstops (by rw [h₂]; omega)

theorem arguments_found {budget : Nat} (ih : ExpressionsFound budget) {es : List Expr}
    {rest : List Spanned} {c : Cursor} (h : Derives [.phrase (.args es)] c.rest rest)
    (hafter : ∀ s ∈ rest.head?, s.token = .rightParen)
    (hbudget : 10 * c.rest.length + 10 ≤ budget + 1) :
    Finds (arguments (budget + 1)) c es rest := by
  obtain ⟨inner, production, hinner⟩ := h.phrase_inv
  cases production with
  | lastArg =>
      refine (ih.expression hinner ?_ (by simp only [Level.rank]; omega)).bind fun c' h' =>
        .isNext_other (fun s hs => ?_) (.pure h')
      · intro s hs joined hjoined
        rw [hafter s hs] at hjoined
        cases hjoined
      · rw [h'] at hs
        rw [hafter s hs]
        simp
  | moreArgs =>
      obtain ⟨mid, hfirst, hmore⟩ := hinner.split
      obtain ⟨s, ts, rfl, hs, hmore⟩ := hmore.token_inv
      have hlength := length_lt_of_expr hfirst
      rw [List.length_cons] at hlength
      refine (ih.expression hfirst (stops_of_token (by rw [hs]; rfl) _)
        (by simp only [Level.rank]; omega)).bind fun c₁ h₁ =>
        .isNext_found h₁ hs (.advance h₁ fun c₂ h₂ _ =>
          (ih.arguments (h₂ ▸ hmore) hafter (by rw [h₂]; omega)).bind fun c₃ h₃ => .pure h₃)

theorem expressionsFound (budget : Nat) : ExpressionsFound budget := by
  induction budget with
  | zero =>
      refine ⟨fun {level e rest c} h _ hbudget => ?_, fun _ _ hbudget => ?_,
        fun _ _ hbudget => ?_⟩
      · have hlength := length_lt_of_expr h
        have hrank := level.rank_le
        omega
      · omega
      · omega
  | succ budget ih =>
      refine ⟨fun {level e rest c} h hstops hbudget => ?_, operands_found ih, arguments_found ih⟩
      cases level with
      | disjunction => exact chain_found ih (by simp) h hstops hbudget
      | conjunction => exact chain_found ih (by simp) h hstops hbudget
      | sum => exact chain_found ih (by simp) h hstops hbudget
      | product => exact chain_found ih (by simp) h hstops hbudget
      | comparison => exact comparison_found ih h hstops hbudget
      | power => exact power_found ih h hstops hbudget
      | primary => exact primary_found ih h hstops hbudget
      | negation =>
          refine prefixed_found ih (by simp) (fun production => ?_) rfl h hstops hbudget
          cases production with
          | descend => exact .inl rfl
          | not => exact .inr ⟨_, rfl, rfl⟩
          | chain hoperator => cases hoperator
      | signed =>
          refine prefixed_found ih (by simp) (fun production => ?_) rfl h hstops hbudget
          cases production with
          | descend => exact .inl rfl
          | neg => exact .inr ⟨_, rfl, rfl⟩
          | chain hoperator => cases hoperator

end Reading
end LittleMan
