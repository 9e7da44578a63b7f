import LittleMan.Proofs.Grammar.Finding

/-!
# What is derived is read

Statements follow each other with nothing in between, so each of them has to stop before the
next one.  A block ends at the first token that closes one, and no statement starts with such
a token.

The readers come to an end on everything that is derived, hence the language of the grammar
is what they accept, and no list of tokens has two derivations with different meanings.
-/

namespace LittleMan
namespace Reading

/-! ## Statements -/

/-- The next token is one of these. -/
def Heads (tokens : List Token) (ts : List Spanned) : Prop :=
  ∃ s ts', ts = s :: ts' ∧ s.token ∈ tokens

theorem Heads.stops {closers : List Token} {ts : List Spanned} (h : Heads closers ts)
    (hclosers : ∀ t ∈ closers, t.closes = true) : Stops .disjunction ts := by
  obtain ⟨s, ts', rfl, hs⟩ := h
  exact stops_of_token (joins?_of_closes (hclosers _ hs)) _

/-- Statements, arms and functions stop what stands before them. -/
theorem stops_of_empty {p : Phrase} {ts rest : List Spanned} (h : Derives [.phrase p] ts rest)
    (hp : (Piece.phrase p).starts? = none) (hrest : Stops .disjunction rest) :
    Stops .disjunction ts := by
  have hfirst : ∀ {piece more starts}, Derives (piece :: more) ts rest →
      piece.starts? = some starts → (∀ t, starts t = true → t.joins? = none) →
      Stops .disjunction ts := by
    intro piece more starts hpieces hstarts hjoins
    obtain ⟨t, ts', rfl, ht, -⟩ := hpieces.starts rfl hstarts
    exact stops_of_token (hjoins _ ht) _
  obtain ⟨inner, production, hinner⟩ := h.phrase_inv
  cases production <;> cases hp
  case blockEnd => exact hinner.nil_inv ▸ hrest
  case elseIfsEnd => exact hinner.nil_inv ▸ hrest
  case casesEnd => exact hinner.nil_inv ▸ hrest
  case programEnd => exact hinner.nil_inv ▸ hrest
  case blockMore => exact hfirst hinner rfl fun _ => joins?_of_startsStatement
  case programStmt => exact hfirst hinner rfl fun _ => joins?_of_startsStatement
  all_goals
    refine hfirst hinner rfl fun t ht => ?_
    obtain rfl := eq_of_beq ht
    rfl

theorem heads_of_elseIfs {arms : List (Expr × List Stmt)} {closers : List Token}
    {ts rest : List Spanned} (h : Derives [.phrase (.elseIfs arms)] ts rest)
    (hrest : Heads closers rest) : Heads (.elseIfKw :: closers) ts := by
  obtain ⟨inner, production, hinner⟩ := h.phrase_inv
  cases production with
  | elseIfsEnd =>
      obtain ⟨s, ts', rfl, hs⟩ := hrest
      exact ⟨s, ts', hinner.nil_inv, .tail _ hs⟩
  | elseIfsMore =>
      obtain ⟨s, ts', rfl, hs, -⟩ := hinner.token_inv
      exact ⟨s, ts', rfl, hs ▸ .head _⟩

theorem heads_of_cases {arms : List (Expr × List Stmt)} {closers : List Token}
    {ts rest : List Spanned} (h : Derives [.phrase (.cases arms)] ts rest)
    (hrest : Heads closers rest) : Heads (.caseKw :: closers) ts := by
  obtain ⟨inner, production, hinner⟩ := h.phrase_inv
  cases production with
  | casesEnd =>
      obtain ⟨s, ts', rfl, hs⟩ := hrest
      exact ⟨s, ts', hinner.nil_inv, .tail _ hs⟩
  | casesMore =>
      obtain ⟨s, ts', rfl, hs, -⟩ := hinner.token_inv
      exact ⟨s, ts', rfl, hs ▸ .head _⟩

theorem whole_found {budget : Nat} {e : Expr} {rest : List Spanned} {c : Cursor}
    (h : Derives [.whole e] c.rest rest) (hstops : Stops .disjunction rest)
    (hbudget : 10 * c.rest.length + 9 ≤ budget) :
    Finds (expression budget .disjunction) c e rest :=
  (expressionsFound budget).expression h hstops hbudget

/-- What the readers of statements find with a budget. -/
structure StatementsFound (budget : Nat) : Prop where
  statement : ∀ {s rest c}, Derives [.phrase (.stmt s)] c.rest rest → Stops .disjunction rest →
    10 * c.rest.length + 2 ≤ budget → Finds (statement budget) c s rest
  block : ∀ {b rest c closers construct}, Derives [.body b] c.rest rest → Heads closers rest →
    (∀ t ∈ closers, t.closes = true) → 10 * c.rest.length + 3 ≤ budget →
    Finds (block budget closers construct) c b rest
  elseIfs : ∀ {arms rest c}, Derives [.phrase (.elseIfs arms)] c.rest rest →
    Heads [.elseKw, .endIfKw] rest → 10 * c.rest.length + 1 ≤ budget →
    Finds (elseIfs budget) c arms rest
  cases : ∀ {arms rest c}, Derives [.phrase (.cases arms)] c.rest rest →
    Heads [.defaultKw, .endSwitchKw] rest → 10 * c.rest.length + 1 ≤ budget →
    Finds (cases budget) c arms rest

/-- A block whose one closer is taken after it. -/
theorem closed_found {budget : Nat} (ih : StatementsFound budget) {closer : Token}
    {construct : String} {b : List Stmt} {more : List Piece} {rest : List Spanned} {c : Cursor}
    {β : Type} {f : List Stmt → Reading β} {a : β}
    (h : Derives (.body b :: .token closer :: more) c.rest rest) (hcloser : closer.closes = true)
    (hbudget : 10 * c.rest.length + 3 ≤ budget)
    (hf : ∀ s ts c', s.token = closer → c'.rest = s :: ts → Derives more ts rest →
      ts.length < c.rest.length → Finds (f b) c' a rest) :
    Finds (block budget [closer] construct >>= f) c a rest := by
  obtain ⟨mid, hb, hmore⟩ := h.split
  obtain ⟨s, ts, rfl, hs, hmore⟩ := hmore.token_inv
  have hlength := hb.length_le
  rw [List.length_cons] at hlength
  refine (ih.block hb ⟨s, ts, rfl, by simp [hs]⟩ (by simpa using hcloser) hbudget).bind
    fun c' h' => hf s ts c' hs h' hmore hlength

/-- A condition or value, a token and a block. -/
theorem arm_found {budget : Nat} (ih : StatementsFound budget) {separator : Token}
    {after construct : String} {closers : List Token} {e : Expr} {b : List Stmt}
    {more : List Piece} {rest : List Spanned} {c : Cursor} {β : Type}
    {f : Expr → List Stmt → Reading β} {a : β}
    (h : Derives (.whole e :: .token separator :: .body b :: more) c.rest rest)
    (hseparator : separator.joins? = none) (hclosers : ∀ t ∈ closers, t.closes = true)
    (hheads : ∀ ts, Derives more ts rest → Heads closers ts)
    (hbudget : 10 * c.rest.length + 9 ≤ budget)
    (hf : ∀ c', Derives more c'.rest rest → c'.rest.length < c.rest.length →
      Finds (f e b) c' a rest) :
    Finds (do
      let test ← expression budget .disjunction
      expect separator after
      let body ← block budget closers construct
      f test body) c a rest := by
  obtain ⟨mid, he, hmore⟩ := h.split
  obtain ⟨s, ts, rfl, hs, hmore⟩ := hmore.token_inv
  obtain ⟨mid, hb, hmore⟩ := hmore.split
  have hlength := length_lt_of_expr he
  have hlength' := hb.length_le
  rw [List.length_cons] at hlength
  refine (whole_found he (stops_of_token (hs ▸ hseparator) _) hbudget).bind fun c₁ h₁ =>
    .expect h₁ hs fun c₂ h₂ => (ih.block (h₂ ▸ hb) (hheads mid hmore) hclosers ?_).bind
    fun c₃ h₃ => hf c₃ (h₃ ▸ hmore) ?_
  · rw [h₂]
    omega
  · rw [h₃]
    omega

theorem returnStatement_found {budget : Nat} {value : Option Expr} {rest : List Spanned}
    {c : Cursor} (h : Derives [.phrase (.stmt (.giveBack value))] c.rest rest)
    (hstops : Stops .disjunction rest) (hbudget : 10 * c.rest.length ≤ budget) :
    Finds (returnStatement budget) c (.giveBack value) rest := by
  obtain ⟨inner, production, hinner⟩ := h.phrase_inv
  cases production with
  | giveBack =>
      obtain ⟨s, ts, hrest, -, hvalued, hmore⟩ := hinner.returning_inv
      rw [hrest, List.length_cons] at hbudget
      refine .advance hrest fun c' h' hlast => .get ?_
      rw [takesValue_eq h' hlast, hvalued]
      exact (whole_found (h' ▸ hmore) hstops (by rw [h']; omega)).bind fun c'' h'' => .pure h''
  | giveBackNothing =>
      obtain ⟨s, ts, hrest, -, hvalued, hmore⟩ := hinner.returning_inv
      refine .advance hrest fun c' h' hlast => .get ?_
      rw [takesValue_eq h' hlast, hvalued]
      exact .pure (h'.trans hmore.nil_inv)

theorem nameStatement_found {budget : Nat} {stmt : Stmt} {word : String} {s t : Spanned}
    {ts rest : List Spanned} {c : Cursor} (hrest : c.rest = s :: t :: ts)
    (hs : s.token = .name word) {inner : List Piece}
    (production : Production (.stmt stmt) (.token (.name word) :: inner))
    (hinner : Derives inner (t :: ts) rest) (hstops : Stops .disjunction rest)
    (hbudget : 10 * c.rest.length + 1 ≤ budget) :
    Finds (nameStatement budget word) c stmt rest := by
  refine .get ?_
  have hcall : ∀ {e inner}, Production (.expr .primary e) (.token (.name word) :: inner) →
      Derives inner (t :: ts) rest →
      Finds (expression budget .primary) c e rest := by
    intro e inner production hinner
    refine (expressionsFound budget).expression ?_ (hstops.loosest _)
      (by simp only [Level.rank]; omega)
    rw [hrest]
    exact .of_production production (.token hs hinner)
  have hsecond : ∀ {token : Token}, t.token = token → c.peekSecond = some token := by
    intro token htoken
    simp [Cursor.peekSecond, hrest, htoken]
  cases production with
  | assign =>
      obtain ⟨u, us, heq, hu, hmore⟩ := hinner.token_inv
      obtain ⟨rfl, rfl⟩ := List.cons.inj heq
      rw [hsecond hu]
      rw [hrest, List.length_cons, List.length_cons] at hbudget
      exact .advance hrest fun c₁ h₁ _ => .advance h₁ fun c₂ h₂ _ =>
        (whole_found (h₂ ▸ hmore) hstops (by rw [h₂]; omega)).bind fun c₃ h₃ => .pure h₃
  | evaluateBare =>
      obtain ⟨u, us, heq, hu, -⟩ := hinner.token_inv
      obtain ⟨rfl, rfl⟩ := List.cons.inj heq
      rw [hsecond hu]
      exact (hcall (.callBare word) hinner).bind fun c' h' => .pure h'
  | evaluate =>
      obtain ⟨u, us, heq, hu, -⟩ := hinner.token_inv
      obtain ⟨rfl, rfl⟩ := List.cons.inj heq
      rw [hsecond hu]
      exact (hcall .call hinner).bind fun c' h' => .pure h'

/-- A block and its closer stop what stands before them. -/
theorem stops_of_closed {closer : Token} {b : List Stmt} {more : List Piece}
    {ts rest : List Spanned} (h : Derives (.body b :: .token closer :: more) ts rest)
    (hcloser : closer.closes = true) : Stops .disjunction ts := by
  obtain ⟨mid, hb, hmore⟩ := h.split
  obtain ⟨s, ts', rfl, hs, -⟩ := hmore.token_inv
  exact stops_of_empty hb rfl (stops_of_token (joins?_of_closes (hs ▸ hcloser)) _)

theorem choose_found {budget : Nat} (ih : StatementsFound budget)
    {arms : List (Expr × List Stmt)} {otherwise : Option (List Stmt)} {rest : List Spanned}
    {c : Cursor} (h : Derives [.phrase (.stmt (.choose arms otherwise))] c.rest rest)
    (hbudget : 10 * c.rest.length + 2 ≤ budget + 1) :
    Finds (statement (budget + 1)) c (.choose arms otherwise) rest := by
  obtain ⟨inner, production, hinner⟩ := h.phrase_inv
  refine .peek ?_
  cases production with
  | choose =>
      obtain ⟨s, ts, hrest, hs, hmore⟩ := hinner.token_inv
      rw [hrest, List.length_cons] at hbudget
      rw [peek_of_rest hrest hs]
      refine .advance hrest fun c₁ h₁ _ => arm_found ih (h₁ ▸ hmore) rfl (by simp [Token.closes])
        (fun ts hts => ?_) (by rw [h₁]; omega) fun c₂ hmore hlength => ?_
      · obtain ⟨mid, harms, hmore⟩ := hts.split
        obtain ⟨t, ts', rfl, ht, -⟩ := hmore.token_inv
        exact heads_of_elseIfs harms ⟨t, ts', rfl, by simp [ht]⟩
      · rw [h₁] at hlength
        obtain ⟨mid, harms, hmore⟩ := hmore.split
        obtain ⟨t, ts', rfl, ht, hmore⟩ := hmore.token_inv
        refine (ih.elseIfs harms ⟨t, ts', rfl, by simp [ht]⟩ (by omega)).bind fun c₃ h₃ =>
          .isNext_other (by simp [h₃, ht]) (.known (.expect h₃ ht fun c₄ h₄ => .pure ?_))
        exact h₄.trans hmore.nil_inv
  | chooseElse =>
      obtain ⟨s, ts, hrest, hs, hmore⟩ := hinner.token_inv
      rw [hrest, List.length_cons] at hbudget
      rw [peek_of_rest hrest hs]
      refine .advance hrest fun c₁ h₁ _ => arm_found ih (h₁ ▸ hmore) rfl (by simp [Token.closes])
        (fun ts hts => ?_) (by rw [h₁]; omega) fun c₂ hmore hlength => ?_
      · obtain ⟨mid, harms, hmore⟩ := hts.split
        obtain ⟨t, ts', rfl, ht, -⟩ := hmore.token_inv
        exact heads_of_elseIfs harms ⟨t, ts', rfl, by simp [ht]⟩
      · rw [h₁] at hlength
        obtain ⟨mid, harms, hmore⟩ := hmore.split
        obtain ⟨t, ts', rfl, ht, hmore⟩ := hmore.token_inv
        have hlength' := harms.length_le
        rw [List.length_cons] at hlength'
        refine (ih.elseIfs harms ⟨t, ts', rfl, by simp [ht]⟩ (by omega)).bind fun c₃ h₃ =>
          .isNext_found h₃ ht (.advance h₃ fun c₄ h₄ _ => closed_found ih (h₄ ▸ hmore) rfl
            (by rw [h₄]; omega) fun u us c₅ hu h₅ hmore _ => .known (.expect h₅ hu
              fun c₆ h₆ => .pure (h₆.trans hmore.nil_inv)))

theorem switch_found {budget : Nat} (ih : StatementsFound budget) {subject : Expr}
    {arms : List (Expr × List Stmt)} {otherwise : Option (List Stmt)} {rest : List Spanned}
    {c : Cursor} (h : Derives [.phrase (.stmt (.switch subject arms otherwise))] c.rest rest)
    (hbudget : 10 * c.rest.length + 2 ≤ budget + 1) :
    Finds (statement (budget + 1)) c (.switch subject arms otherwise) rest := by
  obtain ⟨inner, production, hinner⟩ := h.phrase_inv
  refine .peek ?_
  cases production with
  | switch =>
      obtain ⟨s, ts, hrest, hs, hmore⟩ := hinner.token_inv
      obtain ⟨mid, he, hmore⟩ := hmore.split
      obtain ⟨t, ts', rfl, ht, hmore⟩ := hmore.token_inv
      obtain ⟨mid, harms, hmore⟩ := hmore.split
      obtain ⟨u, us, rfl, hu, hmore⟩ := hmore.token_inv
      have hlength := length_lt_of_expr he
      rw [List.length_cons] at hlength
      rw [hrest, List.length_cons] at hbudget
      rw [peek_of_rest hrest hs]
      refine .advance hrest fun c₁ h₁ _ => (whole_found (h₁ ▸ he)
        (stops_of_token (by rw [ht]; rfl) _) (by rw [h₁]; omega)).bind fun c₂ h₂ =>
        .expect h₂ ht fun c₃ h₃ => (ih.cases (h₃ ▸ harms) ⟨u, us, rfl, by simp [hu]⟩
          (by rw [h₃]; omega)).bind fun c₄ h₄ => .isNext_other (by simp [h₄, hu])
            (.known (.expect h₄ hu fun c₅ h₅ => .pure (h₅.trans hmore.nil_inv)))
  | switchDefault =>
      obtain ⟨s, ts, hrest, hs, hmore⟩ := hinner.token_inv
      obtain ⟨mid, he, hmore⟩ := hmore.split
      obtain ⟨t, ts', rfl, ht, hmore⟩ := hmore.token_inv
      obtain ⟨mid, harms, hmore⟩ := hmore.split
      obtain ⟨u, us, rfl, hu, hmore⟩ := hmore.token_inv
      obtain ⟨v, vs, rfl, hv, hmore⟩ := hmore.token_inv
      have hlength := length_lt_of_expr he
      have hlength' := harms.length_le
      rw [List.length_cons] at hlength
      rw [List.length_cons, List.length_cons] at hlength'
      rw [hrest, List.length_cons] at hbudget
      rw [peek_of_rest hrest hs]
      refine .advance hrest fun c₁ h₁ _ => (whole_found (h₁ ▸ he)
        (stops_of_token (by rw [ht]; rfl) _) (by rw [h₁]; omega)).bind fun c₂ h₂ =>
        .expect h₂ ht fun c₃ h₃ => (ih.cases (h₃ ▸ harms) ⟨u, _, rfl, by simp [hu]⟩
          (by rw [h₃]; omega)).bind fun c₄ h₄ => .isNext_found h₄ hu (.advance h₄
            fun c₅ h₅ _ => .expect h₅ hv fun c₆ h₆ => closed_found ih (h₆ ▸ hmore) rfl
              (by rw [h₆]; omega) fun w ws c₇ hw h₇ hmore _ => .known (.expect h₇ hw
                fun c₈ h₈ => .pure (h₈.trans hmore.nil_inv)))

theorem forLoop_found {budget : Nat} (ih : StatementsFound budget) {var closing : String}
    {first last : Expr} {b : List Stmt} {rest : List Spanned} {c : Cursor}
    (h : Derives [.phrase (.stmt (.forLoop var first last b closing))] c.rest rest)
    (hbudget : 10 * c.rest.length + 2 ≤ budget + 1) :
    Finds (statement (budget + 1)) c (.forLoop var first last b closing) rest := by
  obtain ⟨inner, production, hinner⟩ := h.phrase_inv
  refine .peek ?_
  cases production with
  | forLoop =>
      obtain ⟨s, ts, hrest, hs, hmore⟩ := hinner.token_inv
      obtain ⟨t, ts, rfl, ht, hmore⟩ := hmore.token_inv
      obtain ⟨u, us, rfl, hu, hmore⟩ := hmore.token_inv
      obtain ⟨mid, hfirst, hmore⟩ := hmore.split
      obtain ⟨v, vs, rfl, hv, hmore⟩ := hmore.token_inv
      obtain ⟨mid, hlast, hmore⟩ := hmore.split
      have hlength := length_lt_of_expr hfirst
      have hlength' := length_lt_of_expr hlast
      rw [List.length_cons] at hlength
      rw [hrest, List.length_cons, List.length_cons, List.length_cons] at hbudget
      rw [peek_of_rest hrest hs]
      refine .advance hrest fun c₁ h₁ _ => .expectName h₁ ht fun c₂ h₂ => .expect h₂ hu
        fun c₃ h₃ => (whole_found (h₃ ▸ hfirst) (stops_of_token (by rw [hv]; rfl) _)
          (by rw [h₃]; omega)).bind fun c₄ h₄ => .expect h₄ hv fun c₅ h₅ => ?_
      refine (whole_found (h₅ ▸ hlast) (stops_of_closed hmore rfl) (by rw [h₅]; omega)).bind
        fun c₆ h₆ => closed_found ih (h₆ ▸ hmore) rfl (by rw [h₆]; omega)
          fun w ws c₇ hw h₇ hmore _ => .advance h₇ fun c₈ h₈ _ => ?_
      obtain ⟨x, xs, rfl, hx, hmore⟩ := hmore.token_inv
      exact .expectName h₈ hx fun c₉ h₉ => .pure (h₉.trans hmore.nil_inv)

theorem statement_found {budget : Nat} (ih : StatementsFound budget) {stmt : Stmt}
    {rest : List Spanned} {c : Cursor} (h : Derives [.phrase (.stmt stmt)] c.rest rest)
    (hstops : Stops .disjunction rest) (hbudget : 10 * c.rest.length + 2 ≤ budget + 1) :
    Finds (statement (budget + 1)) c stmt rest := by
  obtain ⟨inner, production, hinner⟩ := h.phrase_inv
  have hname : ∀ {word tok inner}, Production (.stmt stmt) (.token (.name word) :: .token tok :: inner) →
      Derives (.token (.name word) :: .token tok :: inner) c.rest rest →
      Finds (statement (budget + 1)) c stmt rest := by
    intro word tok inner production hinner
    obtain ⟨s, ts, hrest, hs, hmore⟩ := hinner.token_inv
    obtain ⟨t, ts, rfl, -, -⟩ := hmore.token_inv
    refine .peek ?_
    rw [peek_of_rest hrest hs]
    exact nameStatement_found hrest hs production hmore hstops (by omega)
  have hreturn : ∀ {valued inner}, Derives (.returning valued :: inner) c.rest rest →
      c.peek = some .returnKw := by
    intro valued inner hinner
    obtain ⟨s, ts, hrest, hs, -⟩ := hinner.returning_inv
    exact peek_of_rest hrest hs
  cases production with
  | assign => exact hname .assign hinner
  | evaluateBare callee => exact hname (.evaluateBare callee) hinner
  | evaluate => exact hname .evaluate hinner
  | choose => exact choose_found ih h hbudget
  | chooseElse => exact choose_found ih h hbudget
  | switch => exact switch_found ih h hbudget
  | switchDefault => exact switch_found ih h hbudget
  | forLoop => exact forLoop_found ih h hbudget
  | whileLoop =>
      obtain ⟨s, ts, hrest, hs, hmore⟩ := hinner.token_inv
      obtain ⟨mid, he, hmore⟩ := hmore.split
      have hlength := length_lt_of_expr he
      rw [hrest, List.length_cons] at hbudget
      refine .peek ?_
      rw [peek_of_rest hrest hs]
      refine .advance hrest fun c₁ h₁ _ => (whole_found (h₁ ▸ he) (stops_of_closed hmore rfl)
        (by rw [h₁]; omega)).bind fun c₂ h₂ => closed_found ih (h₂ ▸ hmore) rfl
          (by rw [h₂]; omega) fun t ts c₃ _ h₃ hmore _ => .advance h₃ fun c₄ h₄ _ =>
            .pure (h₄.trans hmore.nil_inv)
  | untilLoop =>
      obtain ⟨s, ts, hrest, hs, hmore⟩ := hinner.token_inv
      rw [hrest, List.length_cons] at hbudget
      refine .peek ?_
      rw [peek_of_rest hrest hs]
      refine .advance hrest fun c₁ h₁ _ => closed_found ih (h₁ ▸ hmore) rfl
        (by rw [h₁]; omega) fun t ts c₂ _ h₂ hmore hlength => .advance h₂ fun c₃ h₃ _ =>
          (whole_found (h₃ ▸ hmore) hstops ?_).bind fun c₄ h₄ => .pure h₄
      rw [h₁] at hlength
      rw [h₃]
      omega
  | giveBack =>
      refine .peek ?_
      rw [hreturn hinner]
      exact returnStatement_found h hstops (by omega)
  | giveBackNothing =>
      refine .peek ?_
      rw [hreturn hinner]
      exact returnStatement_found h hstops (by omega)
  | leaveLoop =>
      obtain ⟨s, ts, hrest, hs, hmore⟩ := hinner.token_inv
      refine .peek ?_
      rw [peek_of_rest hrest hs]
      exact .advance hrest fun c' h' _ => .pure (h'.trans hmore.nil_inv)
  | nextPass =>
      obtain ⟨s, ts, hrest, hs, hmore⟩ := hinner.token_inv
      refine .peek ?_
      rw [peek_of_rest hrest hs]
      exact .advance hrest fun c' h' _ => .pure (h'.trans hmore.nil_inv)

theorem closes_of_startsStatement {t : Token} (h : t.startsStatement = true) :
    t.closes = false := by
  cases t <;> first | rfl | cases h

/-- A statement is neither a closer nor the end. -/
theorem goes_on_of_stmt {s : Stmt} {more : List Piece} {rest : List Spanned} {c : Cursor}
    {closers : List Token} (h : Derives (.phrase (.stmt s) :: more) c.rest rest)
    (hclosers : ∀ t ∈ closers, t.closes = true) :
    c.peek.any closers.contains = false ∧ c.atEnd = false := by
  obtain ⟨t, ts, hrest, ht, -⟩ := h.starts rfl rfl
  have hpeek := peek_of_rest hrest rfl
  constructor
  · rw [hpeek, Option.any_some, ← Bool.not_eq_true, List.contains_iff_mem]
    intro hmem
    have hcloses := hclosers _ hmem
    rw [closes_of_startsStatement ht] at hcloses
    cases hcloses
  · rw [Cursor.atEnd, hpeek]
    generalize t.token = token at ht
    cases token <;> first | rfl | cases ht

theorem statementsFound (budget : Nat) : StatementsFound budget := by
  induction budget with
  | zero =>
      exact ⟨fun _ _ hbudget => by omega, fun _ _ _ hbudget => by omega,
        fun _ _ hbudget => by omega, fun _ _ hbudget => by omega⟩
  | succ budget ih =>
      refine ⟨fun h hstops hbudget => statement_found ih h hstops hbudget,
        fun {b rest c closers construct} h hheads hclosers hbudget => ?_,
        fun {arms rest c} h hheads hbudget => ?_, fun {arms rest c} h hheads hbudget => ?_⟩
      · obtain ⟨inner, production, hinner⟩ := h.phrase_inv
        refine .get ?_
        cases production with
        | blockEnd =>
            have hrest := hinner.nil_inv
            obtain ⟨s, ts, rfl, hs⟩ := hheads
            have hcloser : c.peek.any closers.contains = true := by
              rw [peek_of_rest hrest rfl, Option.any_some, List.contains_iff_mem]
              exact hs
            rw [hcloser]
            exact .pure hrest
        | blockMore =>
            obtain ⟨hcloser, hend⟩ := goes_on_of_stmt hinner hclosers
            obtain ⟨mid, hs, hb⟩ := hinner.split
            obtain ⟨t, ts, hrest, -, hlength⟩ := hs.starts rfl rfl
            have hstops : Stops .disjunction mid := stops_of_empty hb rfl (hheads.stops hclosers)
            rw [hcloser, hend]
            refine (ih.statement hs hstops (by omega)).bind fun c' h' =>
              (ih.block (h' ▸ hb) hheads hclosers ?_).bind fun c'' h'' => .pure h''
            rw [h']
            rw [hrest, List.length_cons] at hbudget
            omega
      · obtain ⟨inner, production, hinner⟩ := h.phrase_inv
        cases production with
        | elseIfsEnd =>
            have hrest := hinner.nil_inv
            obtain ⟨s, ts, rfl, hs⟩ := hheads
            refine .isNext_other ?_ (.pure hrest)
            rw [hrest]
            rintro s ⟨⟩ helse
            simp [helse] at hs
        | elseIfsMore =>
            obtain ⟨s, ts, hrest, hs, hmore⟩ := hinner.token_inv
            rw [hrest, List.length_cons] at hbudget
            refine .isNext_found hrest hs (.advance hrest fun c₁ h₁ _ => arm_found ih
              (h₁ ▸ hmore) rfl (by simp [Token.closes])
              (fun ts hts => heads_of_elseIfs hts hheads) (by rw [h₁]; omega)
              fun c₂ hmore hlength => ?_)
            rw [h₁] at hlength
            exact (ih.elseIfs hmore hheads (by omega)).bind fun c₃ h₃ => .pure h₃
      · obtain ⟨inner, production, hinner⟩ := h.phrase_inv
        cases production with
        | casesEnd =>
            have hrest := hinner.nil_inv
            obtain ⟨s, ts, rfl, hs⟩ := hheads
            refine .isNext_other ?_ (.pure hrest)
            rw [hrest]
            rintro s ⟨⟩ hcase
            simp [hcase] at hs
        | casesMore =>
            obtain ⟨s, ts, hrest, hs, hmore⟩ := hinner.token_inv
            rw [hrest, List.length_cons] at hbudget
            refine .isNext_found hrest hs (.advance hrest fun c₁ h₁ _ => arm_found ih
              (h₁ ▸ hmore) rfl (by simp [Token.closes])
              (fun ts hts => heads_of_cases hts hheads) (by rw [h₁]; omega)
              fun c₂ hmore hlength => ?_)
            rw [h₁] at hlength
            exact (ih.cases hmore hheads (by omega)).bind fun c₃ h₃ => .pure h₃

/-! ## Programs -/

theorem parameters_found {budget : Nat} {names : List String} {rest : List Spanned} {c : Cursor}
    (h : Derives [.phrase (.params names)] c.rest rest) (hafter : Heads [.rightParen] rest)
    (hbudget : c.rest.length ≤ budget) : Finds (parameters budget) c names rest := by
  induction budget generalizing names c with
  | zero =>
      obtain ⟨t, ts, hrest, -, -⟩ := h.starts rfl rfl
      rw [hrest, List.length_cons] at hbudget
      omega
  | succ budget ih =>
      obtain ⟨inner, production, hinner⟩ := h.phrase_inv
      cases production with
      | lastParam =>
          obtain ⟨s, ts, hrest, hs, hmore⟩ := hinner.token_inv
          obtain rfl := hmore.nil_inv
          obtain ⟨t, ts', rfl, ht⟩ := hafter
          refine .expectName hrest hs fun c' h' => .isNext_other ?_ (.pure h')
          simp_all
      | moreParams =>
          obtain ⟨s, ts, hrest, hs, hmore⟩ := hinner.token_inv
          obtain ⟨t, ts, rfl, ht, hmore⟩ := hmore.token_inv
          rw [hrest, List.length_cons, List.length_cons] at hbudget
          exact .expectName hrest hs fun c₁ h₁ => .isNext_found h₁ ht (.advance h₁
            fun c₂ h₂ _ => (ih (h₂ ▸ hmore) (by rw [h₂]; omega)).bind fun c₃ h₃ => .pure h₃)

theorem declaration_found {budget : Nat} {stmt : Stmt} {rest : List Spanned} {c : Cursor}
    (h : Derives [.phrase (.declaration stmt)] c.rest rest)
    (hbudget : 10 * c.rest.length + 2 ≤ budget) :
    Finds (declaration budget) c stmt rest := by
  obtain ⟨inner, production, hinner⟩ := h.phrase_inv
  cases production with
  | functionBare =>
      obtain ⟨s, ts, hrest, hs, hmore⟩ := hinner.token_inv
      obtain ⟨t, ts, rfl, ht, hmore⟩ := hmore.token_inv
      obtain ⟨u, us, rfl, hu, hmore⟩ := hmore.token_inv
      obtain ⟨v, vs, rfl, hv, hmore⟩ := hmore.token_inv
      rw [hrest, List.length_cons, List.length_cons, List.length_cons, List.length_cons]
        at hbudget
      exact .advance hrest fun c₁ h₁ _ => .expectName h₁ ht fun c₂ h₂ => .expect h₂ hu
        fun c₃ h₃ => .isNext_found h₃ hv (.known (.expect h₃ hv fun c₄ h₄ =>
          closed_found (statementsFound budget) (h₄ ▸ hmore) rfl (by rw [h₄]; omega)
            fun w ws c₅ _ h₅ hmore _ => .advance h₅ fun c₆ h₆ _ =>
              .pure (h₆.trans hmore.nil_inv)))
  | function =>
      obtain ⟨s, ts, hrest, hs, hmore⟩ := hinner.token_inv
      obtain ⟨t, ts, rfl, ht, hmore⟩ := hmore.token_inv
      obtain ⟨u, us, rfl, hu, hmore⟩ := hmore.token_inv
      obtain ⟨mid, hparams, hmore⟩ := hmore.split
      obtain ⟨v, vs, rfl, hv, hmore⟩ := hmore.token_inv
      have hlength := hparams.length_le
      rw [List.length_cons] at hlength
      rw [hrest, List.length_cons, List.length_cons, List.length_cons] at hbudget
      refine .advance hrest fun c₁ h₁ _ => .expectName h₁ ht fun c₂ h₂ => .expect h₂ hu
        fun c₃ h₃ => .isNext_other ?_ ((parameters_found (h₃ ▸ hparams)
          ⟨v, vs, rfl, by simp [hv]⟩ (by rw [h₃]; omega)).bind fun c₄ h₄ => .expect h₄ hv
            fun c₅ h₅ => closed_found (statementsFound budget) (h₅ ▸ hmore) rfl
              (by rw [h₅]; omega) fun w ws c₆ _ h₆ hmore _ => .advance h₆ fun c₇ h₇ _ =>
                .pure (h₇.trans hmore.nil_inv))
      obtain ⟨x, xs, rfl, hx, -⟩ := hparams.starts rfl rfl
      rw [h₃]
      rintro y ⟨⟩ hparen
      rw [hparen] at hx
      cases hx

theorem topLevel_found {budget : Nat} {b : List Stmt} {rest : List Spanned} {c : Cursor}
    (h : Derives [.phrase (.program b)] c.rest rest) (hend : ∀ s ∈ rest.head?, s.token = .eof)
    (hbudget : 10 * c.rest.length + 3 ≤ budget) : Finds (topLevel budget) c b rest := by
  have hstops : Stops .disjunction rest := by
    intro s hs joined hjoined
    rw [hend s hs] at hjoined
    cases hjoined
  induction budget generalizing b c with
  | zero => omega
  | succ budget ih =>
      obtain ⟨inner, production, hinner⟩ := h.phrase_inv
      refine .get ?_
      cases production with
      | programEnd =>
          have hrest := hinner.nil_inv
          have hatEnd : c.atEnd = true := by
            rw [Cursor.atEnd, Cursor.peek, hrest]
            cases rest with
            | nil => rfl
            | cons s ts => simp [hend s rfl]
          rw [hatEnd]
          exact .pure hrest
      | programStmt =>
          obtain ⟨-, hatEnd⟩ := @goes_on_of_stmt _ _ _ _ [] hinner (by simp)
          obtain ⟨mid, hs, hb⟩ := hinner.split
          obtain ⟨t, ts, hrest, ht, hlength⟩ := hs.starts rfl rfl
          rw [hatEnd]
          refine .isNext_other ?_ ((((statementsFound budget).statement hs
            (stops_of_empty hb rfl hstops) (by omega)).bind fun c' h' =>
              (ih (h' ▸ hb) ?_).bind fun c'' h'' => .pure h''))
          · rw [hrest]
            rintro s ⟨⟩ hfunction
            rw [hfunction] at ht
            cases ht
          · rw [h']
            rw [hrest, List.length_cons] at hbudget
            omega
      | programFunction =>
          obtain ⟨mid, hs, hb⟩ := hinner.split
          obtain ⟨t, ts, hrest, ht, hlength⟩ := hs.starts rfl rfl
          have htoken : t.token = .functionKw := eq_of_beq ht
          have hatEnd : c.atEnd = false := by
            rw [Cursor.atEnd, peek_of_rest hrest htoken]
          rw [hatEnd]
          refine .isNext_found hrest htoken ((declaration_found hs (by omega)).bind fun c' h' =>
            (ih (h' ▸ hb) ?_).bind fun c'' h'' => .pure h'')
          rw [h']
          rw [hrest, List.length_cons] at hbudget
          omega

end Reading

/-! ## The language -/

/-- The tokens that a program is read from. -/
def Token.significant (tokens : List Spanned) : List Spanned :=
  withoutTrivia (tokens.takeWhile fun s => s.token != .eof)

theorem Token.significant_eq (tokens : List Spanned) :
    significant tokens = (withoutTrivia tokens).takeWhile fun s => s.token != .eof := by
  rw [significant, withoutTrivia, withoutTrivia, List.takeWhile_filter]
  congr 2
  funext s
  cases s.token <;> rfl

/-- At the end of the tokens there is nothing to be returned, and at an `eof` neither. -/
theorem takesValue_eof {rest : List Spanned} (h : ∀ s ∈ rest.head?, s.token = .eof)
    (t : Spanned) : t.takesValue rest.head? = false := by
  cases rest with
  | nil => rfl
  | cons s ts =>
      rw [List.head?_cons, Spanned.takesValue, Option.any_some, h s rfl]
      exact Bool.and_false _

namespace Program

theorem ofTokens_of_derives {tokens : List Spanned} {p : Program}
    (h : Derives [.phrase (.program p.statements)] (Token.significant tokens) []) :
    ofTokens tokens = .ok p := by
  obtain ⟨used, hused, -, hchange⟩ := h.change (by simp)
  rw [List.append_nil] at hused
  have hrest : ∀ s ∈ ((Token.withoutTrivia tokens).dropWhile fun s => s.token != .eof).head?,
      s.token = .eof := by
    intro s hs
    have hdrop := List.head?_dropWhile_not (fun s : Spanned => s.token != .eof)
      (Token.withoutTrivia tokens)
    rw [hs] at hdrop
    simpa using hdrop
  have hderives := hchange _ fun t => (takesValue_eof hrest t).trans
    (takesValue_eof (by simp) t).symm
  rw [← hused, Token.significant_eq, List.takeWhile_append_dropWhile] at hderives
  obtain ⟨c', hok, -⟩ := @Reading.topLevel_found (Cursor.start tokens).budget _ _
    (Cursor.start tokens) hderives hrest (by simp [Cursor.budget, Cursor.start])
  rw [ofTokens, read, hok]
  rfl

theorem derives_of_ofTokens {tokens : List Spanned} {p : Program} (h : ofTokens tokens = .ok p) :
    Derives [.phrase (.program p.statements)] (Token.significant tokens) [] := by
  rw [ofTokens, read] at h
  cases hread : Reading.topLevel (Cursor.start tokens).budget (Cursor.start tokens) with
  | error stop =>
      rw [hread] at h
      cases h
  | ok result =>
      obtain ⟨statements, c'⟩ := result
      rw [hread] at h
      cases h
      obtain ⟨hderives, hend⟩ := Reading.topLevel_derived _ _ hread
      have hrest : ∀ s ∈ c'.rest.head?, s.token = .eof := by
        intro s hs
        rw [Cursor.atEnd, Cursor.peek, hs, Option.map_some] at hend
        generalize s.token = token at hend
        cases token <;> first | rfl | cases hend
      obtain ⟨used, hused, hproper, hchange⟩ := hderives.change (by simp)
      have hsignificant : Token.significant tokens = used ++ [] := by
        have hstart : Token.withoutTrivia tokens = used ++ c'.rest := hused
        rw [Token.significant_eq, hstart,
          List.takeWhile_append_of_pos (fun t ht => by simpa using hproper t ht)]
        congr 1
        cases hc' : c'.rest with
        | nil => rfl
        | cons s ts => simp [hrest s (by simp [hc'])]
      rw [hsignificant]
      exact hchange [] fun t => (takesValue_eof (by simp) t).trans (takesValue_eof hrest t).symm

/-- A list of tokens has at most one reading. -/
theorem eq_of_derives {ts : List Spanned} {p q : Program}
    (hp : Derives [.phrase (.program p.statements)] ts [])
    (hq : Derives [.phrase (.program q.statements)] ts []) : p = q := by
  let c : Cursor := { rest := ts }
  obtain ⟨cp, hokp, -⟩ := Reading.topLevel_found (c := c) hp (by simp) le_rfl
  obtain ⟨cq, hokq, -⟩ := Reading.topLevel_found (c := c) hq (by simp) le_rfl
  rw [hokp] at hokq
  cases p
  cases q
  cases hokq
  rfl

/-- The reader accepts the grammar, and the grammar is unambiguous. -/
theorem ofTokens_iff_derives (tokens : List Spanned) :
    (∀ p, ofTokens tokens = .ok p ↔
      Derives [.phrase (.program p.statements)] (Token.significant tokens) []) ∧
    ∀ ts (p q : Program), Derives [.phrase (.program p.statements)] ts [] →
      Derives [.phrase (.program q.statements)] ts [] → p = q :=
  ⟨fun _ => ⟨derives_of_ofTokens, ofTokens_of_derives⟩, fun _ _ _ => eq_of_derives⟩

end Program
end LittleMan
