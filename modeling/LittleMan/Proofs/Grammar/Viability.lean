import LittleMan.Proofs.Grammar.Completeness

/-!
# Beginnings of phrases

Tokens begin a phrase if with further tokens they make up a whole one.  `Viable` says so of
the tokens between `ts` and `rest` and of the pieces that they begin.  What is missing is
filled in with what is shortest, a number for an expression and nothing at all for a block.

A filled in token must not become the value of a `return` that stands before it.  Only an
expression could start with such a token, and no expression comes right after a statement.
-/

namespace LittleMan

/-! ## Other tokens after a phrase -/

/-- Nothing that a `return` could take for its value. -/
def Quiet (ts : List Spanned) : Prop :=
  ∀ s ∈ ts.head?, s.token.startsExpression = false

theorem quiet_nil : Quiet [] := by
  rintro s ⟨⟩

theorem Quiet.append {ts other : List Spanned} (h : Quiet ts) (hother : Quiet other) :
    Quiet (ts ++ other) := by
  cases ts with
  | nil => exact hother
  | cons s ts => exact h

theorem Quiet.takesValue {ts : List Spanned} (h : Quiet ts) (t : Spanned) :
    t.takesValue ts.head? = false := by
  cases ts with
  | nil => rfl
  | cons s ts =>
      rw [List.head?_cons, Spanned.takesValue, Option.any_some, h s rfl]
      exact Bool.and_false _

def Token.isWritten : Token → Bool
  | .eof | .comment _ | .newline => false
  | _ => true

/-- Pieces with tokens of a phrase only, where each value of a `return` is an expression. -/
def Piece.proper : List Piece → Bool
  | [] => true
  | .token t :: more => t.isWritten && proper more
  | .returning true :: .phrase (.expr _ _) :: more => proper more
  | .returning true :: _ => false
  | .returning false :: more => proper more
  | .phrase _ :: more => proper more

theorem Production.proper {p : Phrase} {inner : List Piece} (h : Production p inner) :
    Piece.proper inner = true := by
  cases h
  case chain level t op l r h => cases level <;> cases t <;> first | rfl | cases h
  case compare t op l r h => cases t <;> first | rfl | cases h
  all_goals rfl

/-- The tokens of a phrase, which is the same before anything that is no value of a `return`. -/
theorem Derives.prolong {pieces : List Piece} {ts rest : List Spanned}
    (h : Derives pieces ts rest) (hproper : Piece.proper pieces = true) :
    ∃ used, ts = used ++ rest ∧ (∀ t ∈ used, t.token.isWritten = true) ∧
      ∀ rest' : List Spanned, rest'.head? = rest.head? ∨ Quiet rest' →
        Derives pieces (used ++ rest') rest' := by
  induction h with
  | nil => exact ⟨[], rfl, by simp, fun _ _ => .nil⟩
  | @token tok pieces t ts rest htoken _ ih =>
      obtain ⟨hwritten, hmore⟩ := Bool.and_eq_true_iff.1 hproper
      obtain ⟨used, rfl, hused, hchange⟩ := ih hmore
      refine ⟨t :: used, rfl, List.forall_mem_cons.2 ⟨htoken ▸ hwritten, hused⟩, ?_⟩
      exact fun rest' hrest' => .token htoken (hchange rest' hrest')
  | @returning valued pieces t ts rest htoken hvalued hderives ih =>
      have hmore : Piece.proper pieces = true := by
        cases valued with
        | false => exact hproper
        | true =>
            rcases pieces with _ | ⟨_ | _ | ⟨_ | _⟩, more⟩ <;> first | exact hproper | cases hproper
      obtain ⟨used, hts, hused, hchange⟩ := ih hmore
      refine ⟨t :: used, by rw [hts]; rfl, List.forall_mem_cons.2 ⟨by rw [htoken]; rfl, hused⟩,
        fun rest' hrest' => .returning htoken ?_ (hchange rest' hrest')⟩
      cases used with
      | cons u used =>
          rw [← hvalued, hts]
          rfl
      | nil =>
          rw [List.nil_append] at hts
          subst hts
          change t.takesValue rest'.head? = valued
          rcases hrest' with hsame | hquiet
          · rw [hsame, hvalued]
          · rw [hquiet.takesValue t]
            cases valued with
            | false => rfl
            | true =>
                -- The value of a `return` takes up a token.
                rcases pieces with _ | ⟨_ | _ | ⟨_ | _⟩, more⟩ <;> try cases hproper
                obtain ⟨v, vs, rfl, -, hlength⟩ := hderives.starts rfl rfl
                exact absurd hlength (Nat.not_succ_le_self _)
  | phrase production _ _ ihere imore =>
      obtain ⟨first, rfl, hfirst, hchangeHere⟩ := ihere production.proper
      obtain ⟨second, rfl, hsecond, hchangeMore⟩ := imore hproper
      refine ⟨first ++ second, by simp, List.forall_mem_append.2 ⟨hfirst, hsecond⟩,
        fun rest' hrest' => ?_⟩
      rw [List.append_assoc]
      refine .phrase production (hchangeHere _ ?_) (hchangeMore rest' hrest')
      cases second with
      | nil => exact hrest'
      | cons s second => exact .inl rfl

/-! ## Filling in -/

namespace Piece

def fill? : Piece → Option (List Token)
  | .token t => some [t]
  | .phrase (.expr _ (.integer value)) => some [.integer value]
  | .phrase (.args [.integer value]) => some [.integer value]
  | .phrase (.stmt .leaveLoop) => some [.breakKw]
  | .phrase (.params [name]) => some [.name name]
  | .phrase (.block []) | .phrase (.elseIfs []) | .phrase (.cases []) | .phrase (.program []) =>
      some []
  | _ => none

def fillAll? : List Piece → Option (List Token)
  | [] => some []
  | piece :: more => piece.fill?.bind fun word => (fillAll? more).map (word ++ ·)

def closing (pieces : List Piece) : Bool :=
  (fillAll? pieces).any fun word => word.head?.all fun t => !t.startsExpression

end Piece

def Token.placed (word : List Token) : List Spanned :=
  word.map fun token => { token, pos := Pos.start }

theorem Token.placed_append (word word' : List Token) :
    placed (word ++ word') = placed word ++ placed word' :=
  List.map_append

/-- A number is an expression of every level. -/
theorem derives_integer (level : Level) {value : Word} {t : Spanned} {rest : List Spanned}
    (ht : t.token = .integer value) :
    Derives [.phrase (.expr level (.integer value))] (t :: rest) rest := by
  have hprimary : Derives [.phrase (.expr .primary (.integer value))] (t :: rest) rest :=
    .of_production (.integer value) (.token ht .nil)
  have hdescend : ∀ level : Level, level ≠ .primary →
      Derives [.phrase (.expr level.operand (.integer value))] (t :: rest) rest →
      Derives [.phrase (.expr level (.integer value))] (t :: rest) rest :=
    fun _ hlevel h => .of_production (.descend hlevel) h
  have hsigned := hdescend .signed (by simp) hprimary
  have hpower := hdescend .power (by simp) hsigned
  have hproduct := hdescend .product (by simp) hpower
  have hsum := hdescend .sum (by simp) hproduct
  have hcomparison := hdescend .comparison (by simp) hsum
  have hnegation := hdescend .negation (by simp) hcomparison
  have hconjunction := hdescend .conjunction (by simp) hnegation
  cases level with
  | disjunction => exact hdescend .disjunction (by simp) hconjunction
  | conjunction => exact hconjunction
  | negation => exact hnegation
  | comparison => exact hcomparison
  | sum => exact hsum
  | product => exact hproduct
  | power => exact hpower
  | signed => exact hsigned
  | primary => exact hprimary

theorem derives_of_fill? {piece : Piece} {word : List Token} (h : piece.fill? = some word)
    (rest : List Spanned) : Derives [piece] (Token.placed word ++ rest) rest := by
  unfold Piece.fill? at h
  split at h <;> cases h
  · exact .token rfl .nil
  · exact derives_integer _ rfl
  · exact .of_production .lastArg (derives_integer _ rfl)
  · exact .of_production .leaveLoop (.token rfl .nil)
  · exact .of_production (.lastParam _) (.token rfl .nil)
  · exact .of_production .blockEnd .nil
  · exact .of_production .elseIfsEnd .nil
  · exact .of_production .casesEnd .nil
  · exact .of_production .programEnd .nil

theorem derives_of_fillAll? {pieces : List Piece} {word : List Token}
    (h : Piece.fillAll? pieces = some word) (rest : List Spanned) :
    Derives pieces (Token.placed word ++ rest) rest := by
  induction pieces generalizing word with
  | nil =>
      cases h
      exact .nil
  | cons piece pieces ih =>
      obtain ⟨first, hfirst, hmap⟩ := Option.bind_eq_some_iff.1 h
      obtain ⟨others, hothers, rfl⟩ := Option.map_eq_some_iff.1 hmap
      rw [Token.placed_append, List.append_assoc]
      exact (derives_of_fill? hfirst _).cons (ih hothers)

theorem exists_of_closing {pieces : List Piece} (h : Piece.closing pieces = true) :
    ∃ word, Quiet word ∧ ∀ rest, Derives pieces (word ++ rest) rest := by
  rw [Piece.closing] at h
  cases hword : Piece.fillAll? pieces with
  | none =>
      rw [hword] at h
      cases h
  | some word =>
      rw [hword] at h
      refine ⟨Token.placed word, ?_, derives_of_fillAll? hword⟩
      cases word with
      | nil => exact quiet_nil
      | cons t word =>
          rintro s ⟨⟩
          simpa using h

/-! ## Beginnings -/

/-- The tokens from `ts` to `rest` begin the pieces.  They are `apart` if what is to be filled in
next cannot be the value of a `return` before them. -/
def Viable (apart : Bool) (pieces : List Piece) (ts rest : List Spanned) : Prop :=
  ∃ used word, ts = used ++ rest ∧ (apart = true → used = [] → Quiet word) ∧
    ∀ other, Quiet other → Derives pieces (used ++ (word ++ other)) other

namespace Viable

variable {apart : Bool} {pieces more inner : List Piece} {ts mid rest : List Spanned}

/-- Nothing has been taken, and a number, a name or a parenthesis may be missing. -/
theorem bare (h : (Piece.fillAll? pieces).isSome = true) : Viable false pieces ts ts := by
  obtain ⟨word, hword⟩ := Option.isSome_iff_exists.1 h
  exact ⟨[], Token.placed word, rfl, by simp, fun other _ => derives_of_fillAll? hword other⟩

theorem here (h : Piece.closing pieces = true) : Viable apart pieces ts ts := by
  obtain ⟨word, hquiet, hderives⟩ := exists_of_closing h
  exact ⟨[], word, rfl, fun _ _ => hquiet, fun other _ => hderives other⟩

theorem weak (h : Viable apart pieces ts rest) : Viable false pieces ts rest := by
  obtain ⟨used, word, hts, -, hderives⟩ := h
  exact ⟨used, word, hts, by simp, hderives⟩

/-- After a token, all is apart. -/
theorem token {tok : Token} {t : Spanned} (ht : t.token = tok)
    (h : Viable false pieces ts rest) : Viable apart (.token tok :: pieces) (t :: ts) rest := by
  obtain ⟨used, word, rfl, -, hderives⟩ := h
  exact ⟨t :: used, word, rfl, by simp, fun other hother => .token ht (hderives other hother)⟩

theorem of_production {p : Phrase} (production : Production p inner)
    (h : Viable apart inner ts rest) : Viable apart [.phrase p] ts rest := by
  obtain ⟨used, word, hts, hapart, hderives⟩ := h
  exact ⟨used, word, hts, hapart, fun other hother =>
    .of_production production (hderives other hother)⟩

theorem append (h : Viable apart pieces ts rest) (more : List Piece)
    (hmore : Piece.closing more = true) : Viable apart (pieces ++ more) ts rest := by
  obtain ⟨used, word, hts, hapart, hderives⟩ := h
  obtain ⟨word', hquiet, hderives'⟩ := exists_of_closing hmore
  refine ⟨used, word ++ word', hts, fun ha hused => (hapart ha hused).append hquiet,
    fun other hother => ?_⟩
  rw [List.append_assoc]
  exact (hderives _ (hquiet.append hother)).append (hderives' other)

theorem after (hbefore : Derives pieces ts mid) (hproper : Piece.proper pieces = true)
    (h : Viable true more mid rest) : Viable apart (pieces ++ more) ts rest := by
  obtain ⟨used, word, rfl, hapart, hderives⟩ := h
  obtain ⟨first, rfl, -, hchange⟩ := hbefore.prolong hproper
  refine ⟨first ++ used, word, by simp,
    fun _ hused => hapart rfl (List.append_eq_nil_iff.1 hused).2, fun other hother => ?_⟩
  rw [List.append_assoc]
  refine (hchange _ ?_).append (hderives other hother)
  cases used with
  | nil => exact .inr ((hapart rfl rfl).append hother)
  | cons u used => exact .inl rfl

theorem cons {piece : Piece} (h : Viable apart [piece] ts rest)
    (hmore : Piece.closing more = true) : Viable apart (piece :: more) ts rest :=
  h.append more hmore

theorem next {p : Phrase} (hbefore : Derives [.phrase p] ts mid) (h : Viable true more mid rest) :
    Viable apart (.phrase p :: more) ts rest :=
  after hbefore rfl h

end Viable

end LittleMan
