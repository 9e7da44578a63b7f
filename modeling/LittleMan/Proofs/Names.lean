import LittleMan.Report
import Mathlib

/-!
# The names of a program

Every name in a program that was read from a text is a run of letters, numbers and
underscores.  None of these is blank, and none is a slash, so that the labels made
from names stay in one piece when the assembler takes a line apart.

`Reading.Gives` says what a reader gives back as long as the tokens before it hold
proper names; the readers are followed budget by budget.
-/

namespace LittleMan

namespace Text

/-- A run of characters that a name can go on with. -/
def IsName (word : String) : Prop :=
  ∀ c ∈ word.toList, continuesName c = true

instance (word : String) : Decidable (IsName word) :=
  decidable_of_iff (word.toList.all continuesName = true) List.all_eq_true

/-- The code points that are blank. -/
def blanks : List Nat :=
  [0x09, 0x0a, 0x0b, 0x0c, 0x0d, 0x20, 0x85, 0xa0, 0x1680, 0x2000, 0x2001, 0x2002, 0x2003,
    0x2004, 0x2005, 0x2006, 0x2007, 0x2008, 0x2009, 0x200a, 0x2028, 0x2029, 0x202f, 0x205f,
    0x3000]

theorem mem_blanks_of_isBlank {c : Char} (h : isBlank c = true) : c.toNat ∈ blanks := by
  simp only [isBlank, Bool.or_eq_true, Bool.and_eq_true, decide_eq_true_eq, beq_iff_eq] at h
  simp only [blanks, List.mem_cons, List.not_mem_nil, or_false]
  omega

theorem continuesName_eq_false {c : Char} (h : c.toNat ∈ 0x2f :: blanks) :
    continuesName c = false := by
  have hall : ∀ n ∈ 0x2f :: blanks, continuesName (Char.ofNat n) = false := by
    decide +kernel
  simpa using hall c.toNat h

theorem isBlank_eq_false {c : Char} (h : continuesName c = true) : isBlank c = false := by
  by_contra hblank
  have hmem := mem_blanks_of_isBlank (Bool.eq_true_of_not_eq_false hblank)
  simp [continuesName_eq_false (List.mem_cons_of_mem _ hmem)] at h

theorem ne_slash {c : Char} (h : continuesName c = true) : c ≠ '/' := by
  rintro rfl
  simp [continuesName_eq_false (c := '/') (by decide)] at h

theorem IsName.not_newline {word : String} (h : IsName word) : '\n' ∉ word.toList := by
  intro hmem
  have hblank := isBlank_eq_false (h '\n' hmem)
  exact absurd hblank (by decide)

end Text

open Text (IsName)

/-! ## Names in the syntax tree -/

mutual

def Expr.Named : Expr → Prop
  | .integer _ | .bool _ | .text _ => True
  | .name word => IsName word
  | .group inner => inner.Named
  | .unary _ operand => operand.Named
  | .binary left _ right => left.Named ∧ right.Named
  | .call callee args => IsName callee ∧ Expr.AllNamed args

def Expr.AllNamed : List Expr → Prop
  | [] => True
  | e :: rest => e.Named ∧ Expr.AllNamed rest

end

mutual

def Stmt.Named : Stmt → Prop
  | .assign target value => IsName target ∧ value.Named
  | .choose arms otherwise =>
      Stmt.ArmsNamed arms ∧
        match otherwise with
        | some body => Stmt.AllNamed body
        | none => True
  | .whileLoop condition body => condition.Named ∧ Stmt.AllNamed body
  | .untilLoop body condition => Stmt.AllNamed body ∧ condition.Named
  | .forLoop var first last body _ =>
      IsName var ∧ first.Named ∧ last.Named ∧ Stmt.AllNamed body
  | .function name params body =>
      IsName name ∧ (∀ param ∈ params, IsName param) ∧ Stmt.AllNamed body
  | .giveBack (some value) => value.Named
  | .evaluate value => value.Named
  | .switch .. | .giveBack none | .leaveLoop | .nextPass => True

def Stmt.AllNamed : List Stmt → Prop
  | [] => True
  | stmt :: rest => stmt.Named ∧ Stmt.AllNamed rest

def Stmt.ArmsNamed : List (Expr × List Stmt) → Prop
  | [] => True
  | (condition, body) :: rest =>
      condition.Named ∧ Stmt.AllNamed body ∧ Stmt.ArmsNamed rest

end

theorem Stmt.allNamed_iff {block : List Stmt} :
    Stmt.AllNamed block ↔ ∀ stmt ∈ block, stmt.Named := by
  induction block with
  | nil => simp [Stmt.AllNamed]
  | cons stmt rest ih => simp [Stmt.AllNamed, ih]

/-! ## Tokens -/

def Token.Named : Token → Prop
  | .name word => IsName word
  | _ => True

def Cursor.Named (cursor : Cursor) : Prop :=
  ∀ spanned ∈ cursor.rest, spanned.token.Named

namespace Token

theorem keyword_named {word : String} {token : Token} (h : keyword? word = some token) :
    token.Named := by
  have hall : ∀ entry ∈ keywords, entry.2.Named := by
    intro entry hentry
    fin_cases hentry <;> trivial
  obtain ⟨before, after, heq, -⟩ := List.lookup_eq_some_iff.1 h
  have hmem : (String.ofList (Text.foldCase word.toList), token) ∈ keywords := by simp [heq]
  exact hall _ hmem

theorem nameLexeme_named (chars : List Char) : (nameLexeme chars).token.Named := by
  unfold nameLexeme
  cases hkeyword : keyword? (String.ofList (chars.takeWhile Text.continuesName)) with
  | some token => simpa [hkeyword] using keyword_named hkeyword
  | none =>
      simp only [hkeyword, Option.getD_none]
      intro c hc
      rw [String.toList_ofList] at hc
      exact List.mem_takeWhile_imp hc

theorem operator_named {c : Char} {next : Option Char} {lexeme : Lexeme}
    (h : operator? c next = some lexeme) : lexeme.token.Named := by
  unfold operator? at h
  split at h <;> grind [Named]

theorem numberLexeme_named {chars : List Char} {found : Lexeme}
    (h : numberLexeme chars = .ok found) : found.token.Named := by
  unfold numberLexeme at h
  cases hvalue : Word.ofInt? (Numeral.value (chars.takeWhile Numeral.isDigit)) with
  | none =>
      simp only [hvalue] at h
      split at h
      · simp at h
      · split_ifs at h
  | some value =>
      suffices hfound : ∃ length, found = { token := .integer value, length } by
        obtain ⟨length, rfl⟩ := hfound
        trivial
      simp only [hvalue] at h
      split at h
      · exact ⟨_, (Except.ok.inj h).symm⟩
      · split_ifs at h
        exact ⟨_, (Except.ok.inj h).symm⟩

theorem stringLexeme_named {rest : List Char} {found : Lexeme}
    (h : stringLexeme rest = .ok found) : found.token.Named := by
  unfold stringLexeme at h
  cases hbody : stringBody 1 rest with
  | error e => simp [hbody, Except.map] at h
  | ok body =>
      rw [hbody] at h
      obtain rfl := Except.ok.inj h
      trivial

theorem lexeme_named {c : Char} {rest : List Char} {found : Lexeme}
    (h : lexeme c rest = .ok found) : found.token.Named := by
  unfold lexeme at h
  split_ifs at h
  · obtain rfl := Except.ok.inj h
    trivial
  · obtain rfl := Except.ok.inj h
    trivial
  · exact stringLexeme_named h
  · exact numberLexeme_named h
  · obtain rfl := Except.ok.inj h
    exact nameLexeme_named (c :: rest)
  · split at h
    · rename_i hoperator
      obtain rfl := Except.ok.inj h
      exact operator_named hoperator
    · simp at h

theorem scanFrom_named {inside : Nat} {pos : Pos} {chars : List Char} {tokens : List Spanned}
    (h : scanFrom inside pos chars = .ok tokens) :
    ∀ spanned ∈ tokens, spanned.token.Named := by
  induction chars generalizing inside pos tokens with
  | nil =>
      cases h
      simp [Named]
  | cons c rest ih =>
      unfold scanFrom at h
      split at h
      · exact ih h
      · split at h
        · exact ih h
        · split at h
          · cases h
          · rename_i found hlexeme
            cases hrest : scanFrom (found.length - 1) (pos.after c) rest with
            | error e => simp [hrest, Except.map] at h
            | ok more =>
                simp only [hrest, Except.map, Except.ok.injEq] at h
                subst h
                intro spanned hmem
                rcases List.mem_cons.1 hmem with rfl | hmem
                · exact lexeme_named hlexeme
                · exact ih hrest spanned hmem

end Token

/-! ## Readers -/

namespace Reading

/-- A reader leaves the names among the tokens as they are, and what it gives back has
the property `Q`. -/
def Gives {α : Type} (x : Reading α) (Q : α → Prop) : Prop :=
  ∀ ⦃cursor : Cursor⦄ ⦃a : α⦄ ⦃cursor' : Cursor⦄, cursor.Named → x cursor = .ok (a, cursor') →
    cursor'.Named ∧ Q a

namespace Gives

variable {α β : Type} {P : α → Prop} {Q : β → Prop}

theorem bind {x : Reading α} {f : α → Reading β} (hx : Gives x P)
    (hf : ∀ a, P a → Gives (f a) Q) : Gives (x >>= f) Q := by
  intro cursor b cursor'' hnamed hok
  change (StateT.bind x f) cursor = _ at hok
  unfold StateT.bind at hok
  cases hx' : x cursor with
  | error e => simp [hx', Bind.bind, Except.bind] at hok
  | ok pair =>
      obtain ⟨a, cursor'⟩ := pair
      rw [hx'] at hok
      obtain ⟨hnamed', hP⟩ := hx hnamed hx'
      exact hf a hP hnamed' hok

theorem pure {b : β} (h : Q b) : Gives (Pure.pure b : Reading β) Q := by
  intro cursor b' cursor' hnamed hok
  obtain ⟨rfl, rfl⟩ : b = b' ∧ cursor = cursor' := by
    simpa [Pure.pure, StateT.pure, Except.pure] using hok
  exact ⟨hnamed, h⟩

theorem known {a : α} {f : α → Reading β} (hf : Gives (f a) Q) : Gives (Pure.pure a >>= f) Q :=
  fun _ _ _ hnamed hok => hf hnamed hok

theorem stop (fault : ParseFault) : Gives (stop fault : Reading β) Q := by
  intro cursor b cursor' hnamed hok
  simp [Reading.stop] at hok

theorem refuse (fault : Option Token → ParseFault) : Gives (refuse fault : Reading β) Q := by
  intro cursor b cursor' hnamed hok
  simp [Reading.refuse] at hok

theorem get {f : Cursor → Reading β} (hf : ∀ cursor, Gives (f cursor) Q) :
    Gives (MonadState.get >>= f) Q := by
  intro cursor b cursor' hnamed hok
  exact hf cursor hnamed hok

/-- A choice that depends on the next token. -/
theorem isNext {token : Token} {f : Bool → Reading β} (hf : ∀ found, Gives (f found) Q) :
    Gives (isNext token >>= f) Q := by
  intro cursor b cursor' hnamed hok
  exact hf _ hnamed hok

theorem peek {f : Option Token → Reading β}
    (hf : ∀ next : Option Token, (∀ token, next = some token → token.Named) → Gives (f next) Q) :
    Gives (peek >>= f) Q := by
  intro cursor b cursor' hnamed hok
  refine hf cursor.peek ?_ hnamed hok
  intro token htoken
  unfold Cursor.peek at htoken
  cases hrest : cursor.rest with
  | nil => simp [hrest] at htoken
  | cons spanned rest =>
      obtain rfl : spanned.token = token := by simpa [hrest] using htoken
      exact hnamed spanned (by simp [hrest])

theorem advance {f : Unit → Reading β} (hf : Gives (f ()) Q) : Gives (advance >>= f) Q := by
  intro cursor b cursor' hnamed hok
  have hadvanced : cursor.advance.Named → cursor'.Named ∧ Q b := fun h => hf h hok
  apply hadvanced
  intro spanned hspanned
  apply hnamed
  unfold Cursor.advance at hspanned
  split at hspanned
  · exact hspanned
  · rename_i heq
    rw [heq]
    exact List.mem_cons_of_mem _ hspanned

theorem expect {wanted : Token} {after : String} {f : Unit → Reading β} (hf : Gives (f ()) Q) :
    Gives (expect wanted after >>= f) Q := by
  have hexpect : Gives (Reading.expect wanted after) fun _ => True := by
    refine isNext fun found => ?_
    cases found with
    | true => exact advance (f := Pure.pure) (pure trivial)
    | false => exact refuse _
  exact hexpect.bind fun _ _ => hf

theorem expectName (after : String) : Gives (expectName after) IsName := by
  refine peek fun next hnext => ?_
  split
  · rename_i word
    exact advance (pure (hnext _ rfl))
  · exact refuse _

end Gives

/-- What the readers of expressions give back with a budget. -/
structure ExpressionsNamed (budget : Nat) : Prop where
  expression : ∀ level, Gives (expression budget level) Expr.Named
  operands : ∀ level left, left.Named → Gives (operands budget level left) Expr.Named
  arguments : Gives (arguments budget) Expr.AllNamed

theorem expressionsNamed (budget : Nat) : ExpressionsNamed budget := by
  induction budget with
  | zero => exact ⟨fun level => by cases level <;> exact .stop _, fun _ _ _ => .stop _, .stop _⟩
  | succ budget ih =>
      have hchain : ∀ level : Level, Gives (do
          let first ← expression budget level.operand
          operands budget level first) Expr.Named := fun level =>
        (ih.expression _).bind fun first hfirst => ih.operands level first hfirst
      refine ⟨fun level => ?_, fun level left hleft => ?_, ?_⟩
      · cases level with
        | disjunction => exact hchain .disjunction
        | conjunction => exact hchain .conjunction
        | sum => exact hchain .sum
        | product => exact hchain .product
        | negation =>
            refine .isNext fun found => ?_
            cases found with
            | true => exact .advance ((ih.expression _).bind fun _ h => .pure h)
            | false => exact ih.expression _
        | signed =>
            refine .isNext fun found => ?_
            cases found with
            | true => exact .advance ((ih.expression _).bind fun _ h => .pure h)
            | false => exact ih.expression _
        | comparison =>
            refine (ih.expression _).bind fun left hleft => .peek fun next _ => ?_
            split
            · exact .pure hleft
            · refine .advance ((ih.expression _).bind fun right hright => .peek fun next _ => ?_)
              split
              · exact .stop _
              · exact .pure ⟨hleft, hright⟩
        | power =>
            refine (ih.expression _).bind fun base hbase => .isNext fun found => ?_
            cases found with
            | true => exact .advance ((ih.expression _).bind fun _ h => .pure ⟨hbase, h⟩)
            | false => exact .pure hbase
        | primary =>
            refine .peek fun next hnext => ?_
            cases next with
            | none => exact .stop _
            | some token =>
                cases token with
                | integer value => exact .advance (.pure trivial)
                | bool value => exact .advance (.pure trivial)
                | text content => exact .advance (.pure trivial)
                | name word =>
                    have hword : IsName word := hnext _ rfl
                    refine .advance (.isNext fun found => ?_)
                    cases found with
                    | false => exact .pure hword
                    | true =>
                        refine .advance (.isNext fun found => ?_)
                        cases found with
                        | true => exact .known (.expect (.pure ⟨hword, trivial⟩))
                        | false =>
                            exact ih.arguments.bind fun _ hargs => .expect (.pure ⟨hword, hargs⟩)
                | leftParen =>
                    exact .advance ((ih.expression _).bind fun inner h => .expect (.pure h))
                | _ => exact .refuse _
      · refine .peek fun next _ => ?_
        split
        · exact .pure hleft
        · exact .advance ((ih.expression _).bind fun right hright =>
            ih.operands level _ ⟨hleft, hright⟩)
      · refine (ih.expression _).bind fun first hfirst => .isNext fun found => ?_
        cases found with
        | true => exact .advance (ih.arguments.bind fun rest hrest => .pure ⟨hfirst, hrest⟩)
        | false => exact .pure ⟨hfirst, trivial⟩

theorem nameStatement_gives (budget : Nat) {word : String} (hword : IsName word) :
    Gives (nameStatement budget word) Stmt.Named := by
  have hexpression := (expressionsNamed budget).expression
  refine .get fun cursor => ?_
  split
  · exact .advance (.advance ((hexpression _).bind fun _ h => .pure ⟨hword, h⟩))
  · exact (hexpression _).bind fun _ h => .pure h
  · exact .advance (.stop _)
  · exact .advance (.refuse _)

theorem returnStatement_gives (budget : Nat) : Gives (returnStatement budget) Stmt.Named := by
  refine .advance (.get fun cursor => ?_)
  split
  · exact ((expressionsNamed budget).expression _).bind fun _ h => .pure h
  · exact .pure trivial

/-- What the readers of statements give back with a budget. -/
structure StatementsNamed (budget : Nat) : Prop where
  statement : Gives (statement budget) Stmt.Named
  block : ∀ closers construct, Gives (block budget closers construct) Stmt.AllNamed
  elseIfs : Gives (elseIfs budget) Stmt.ArmsNamed
  cases : Gives (cases budget) fun _ => True

theorem statement_gives {budget : Nat} (ih : StatementsNamed budget) :
    Gives (statement (budget + 1)) Stmt.Named := by
  have hexpression := (expressionsNamed budget).expression
  refine .peek fun next hnext => ?_
  split
  · exact .stop _
  · exact nameStatement_gives budget (hnext _ rfl)
  · refine .advance ((hexpression _).bind fun test htest => .expect ?_)
    refine (ih.block _ _).bind fun body hbody => ih.elseIfs.bind fun others hothers => ?_
    refine .isNext fun found => ?_
    cases found with
    | true =>
        exact .advance ((ih.block _ _).bind fun _ hother =>
          .known (.expect (.pure ⟨⟨htest, hbody, hothers⟩, hother⟩)))
    | false => exact .known (.expect (.pure ⟨⟨htest, hbody, hothers⟩, trivial⟩))
  · exact .advance ((hexpression _).bind fun _ hcondition => (ih.block _ _).bind fun _ hbody =>
      .advance (.pure ⟨hcondition, hbody⟩))
  · exact .advance ((ih.block _ _).bind fun _ hbody => .advance ((hexpression _).bind
      fun _ hcondition => .pure ⟨hbody, hcondition⟩))
  · refine .advance ((Gives.expectName _).bind fun var hvar => .expect ?_)
    refine (hexpression _).bind fun first hfirst => .expect ?_
    refine (hexpression _).bind fun last hlast => (ih.block _ _).bind fun body hbody => ?_
    exact .advance ((Gives.expectName _).bind fun _ _ => .pure ⟨hvar, hfirst, hlast, hbody⟩)
  · refine .advance ((hexpression _).bind fun _ _ => .expect (ih.cases.bind fun _ _ => ?_))
    refine .isNext fun found => ?_
    cases found with
    | true =>
        exact .advance (.expect ((ih.block _ _).bind fun _ _ => .known (.expect (.pure trivial))))
    | false => exact .known (.expect (.pure trivial))
  · exact returnStatement_gives budget
  · exact .advance (.pure trivial)
  · exact .advance (.pure trivial)
  · exact .stop _
  · exact .refuse _

theorem statementsNamed (budget : Nat) : StatementsNamed budget := by
  induction budget with
  | zero => exact ⟨.stop _, fun _ _ => .stop _, .stop _, .stop _⟩
  | succ budget ih =>
      have hexpression := (expressionsNamed budget).expression
      refine ⟨statement_gives ih, fun closers construct => ?_, ?_, ?_⟩
      · refine .get fun cursor => ?_
        split
        · exact .pure trivial
        split
        · exact .stop _
        · exact ih.statement.bind fun _ hfirst => (ih.block _ _).bind fun _ hrest =>
            .pure ⟨hfirst, hrest⟩
      · refine .isNext fun found => ?_
        cases found with
        | false => exact .pure trivial
        | true =>
            exact .advance ((hexpression _).bind fun _ htest => .expect
              ((ih.block _ _).bind fun _ hbody => ih.elseIfs.bind fun _ hrest =>
                .pure ⟨htest, hbody, hrest⟩))
      · refine .isNext fun found => ?_
        cases found with
        | false => exact .pure trivial
        | true =>
            exact .advance ((hexpression _).bind fun _ _ => .expect
              ((ih.block _ _).bind fun _ _ => ih.cases.bind fun _ _ => .pure trivial))

theorem parameters_gives (budget : Nat) :
    Gives (parameters budget) fun params => ∀ param ∈ params, IsName param := by
  induction budget with
  | zero => exact .stop _
  | succ budget ih =>
      refine (Gives.expectName _).bind fun first hfirst => .isNext fun found => ?_
      cases found with
      | true => exact .advance (ih.bind fun rest hrest => .pure (by simpa using ⟨hfirst, hrest⟩))
      | false => exact .pure (by simpa using hfirst)

theorem declaration_gives (budget : Nat) : Gives (declaration budget) Stmt.Named := by
  refine .advance ((Gives.expectName _).bind fun name hname => .expect ?_)
  have hblock := (statementsNamed budget).block
  refine .isNext fun found => ?_
  cases found with
  | true =>
      exact .known (.expect ((hblock _ _).bind fun _ hbody =>
        .advance (.pure ⟨hname, by simp, hbody⟩)))
  | false =>
      exact (parameters_gives budget).bind fun _ hparams => .expect ((hblock _ _).bind
        fun _ hbody => .advance (.pure ⟨hname, hparams, hbody⟩))

theorem topLevel_gives (budget : Nat) : Gives (topLevel budget) Stmt.AllNamed := by
  induction budget with
  | zero => exact .stop _
  | succ budget ih =>
      refine .get fun cursor => ?_
      split
      · exact .pure trivial
      · refine .isNext fun found => ?_
        cases found with
        | true =>
            exact (declaration_gives budget).bind fun _ hfirst =>
              ih.bind fun _ hrest => .pure ⟨hfirst, hrest⟩
        | false =>
            exact (statementsNamed budget).statement.bind fun _ hfirst =>
              ih.bind fun _ hrest => .pure ⟨hfirst, hrest⟩

end Reading

/-- The names of a program that was read from a text. -/
theorem Program.parse_named {source : String} {program : Program}
    (h : Program.parse source = .ok program) : ∀ stmt ∈ program.statements, stmt.Named := by
  unfold Program.parse at h
  cases hscan : Token.scan source with
  | error e => simp [hscan] at h
  | ok tokens =>
      simp only [hscan, Program.ofTokens, Program.read] at h
      have hstart : (Cursor.start tokens).Named := by
        intro spanned hspanned
        exact Token.scanFrom_named hscan spanned (List.mem_filter.1 hspanned).1
      cases hread : Reading.topLevel (Cursor.start tokens).budget (Cursor.start tokens) with
      | error stop => simp [hread, Except.map, Except.mapError] at h
      | ok pair =>
          obtain ⟨statements, cursor⟩ := pair
          obtain rfl : { statements } = program := by
            simpa [hread, Except.map, Except.mapError] using h
          exact Stmt.allNamed_iff.1 (Reading.topLevel_gives _ hstart hread).2

end LittleMan
