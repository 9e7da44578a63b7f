import LittleMan.Proofs.Word
import LittleMan.Token.Lexer

/-!
# The lexemes of the tokens

`Spelled t word` says that the token `t` can be written as `word`.  A numeral may have zeros in
front, a keyword may be written in any mixture of capitals and small letters, a comment may have
blanks around it, and a tab in a string may stand for itself or be escaped, so that most tokens
have more than one spelling.

The reader of lexemes finds exactly the spellings.  What it takes for a token is a spelling of it
(`lexeme_ok`).  A spelling is taken for its token if what comes after it cannot belong to it
(`Spelled.lexeme_eq`), and a gap or the end of the line never can, but for a gap after a comment.
-/

namespace LittleMan
namespace Token

/-- Tokens that are written with signs, and not with letters or digits. -/
def isSymbol : Token → Bool
  | .plus | .minus | .star | .slash | .caret | .equal | .notEqual | .less | .greater
  | .lessEqual | .greaterEqual | .assign | .leftParen | .rightParen | .comma | .colon => true
  | _ => false

/-- The content of a string, and what stands for it between the quotes. -/
inductive Quotes : List Char → List Char → Prop
  | nil : Quotes [] []
  | escape {e c : Char} {content body : List Char} (known : escape? e = some c)
      (more : Quotes content body) : Quotes (c :: content) ('\\' :: e :: body)
  | plain {c : Char} {content body : List Char} (quote : c ≠ '"') (backslash : c ≠ '\\')
      (break_ : c ≠ '\n') (more : Quotes content body) : Quotes (c :: content) (c :: body)

/-- The words that a token can be written as.  The end of the text is written as nothing. -/
inductive Spelled : Token → List Char → Prop
  | integer {n : Word} {digits : List Char} (nonempty : digits ≠ [])
      (all : ∀ c ∈ digits, Numeral.isDigit c = true) (value : n.toInt = Numeral.value digits) :
      Spelled (.integer n) digits
  | text {content body : List Char} (quotes : Quotes content body) :
      Spelled (.text (String.ofList content)) ('"' :: (body ++ ['"']))
  | keyword {k : String} {t : Token} {word : List Char} (mem : (k, t) ∈ keywords)
      (folded : Text.foldCase word = k.toList) : Spelled t word
  | name {c : Char} {rest : List Char} (starts : Text.startsName c = true)
      (continues : ∀ d ∈ rest, Text.continuesName d = true)
      (free : ∀ entry ∈ keywords, Text.foldCase (c :: rest) ≠ entry.1.toList) :
      Spelled (.name (String.ofList (c :: rest))) (c :: rest)
  | symbol {t : Token} (symbol : t.isSymbol = true) : Spelled t t.spelling.toList
  | comment {content : List Char} (unbroken : '\n' ∉ content) :
      Spelled (.comment (String.ofList (Text.trim content))) ('/' :: '/' :: content)
  | newline : Spelled .newline ['\n']
  | eof : Spelled .eof []

theorem Spelled.eq_nil_of_eof {word : List Char} (h : Spelled .eof word) : word = [] := by
  cases h with
  | keyword hmem _ =>
      have hall : ∀ entry ∈ keywords, entry.2 ≠ .eof := by decide
      exact absurd rfl (hall _ hmem)
  | symbol hsymbol => cases hsymbol
  | eof => rfl

/-! ## What is read is a spelling -/

theorem stringBody_ok {offset : Nat} {chars content : List Char} {length : Nat}
    (h : stringBody offset chars = .ok (content, length)) :
    ∃ body more, chars = body ++ '"' :: more ∧ length = offset + body.length + 1 ∧
      Quotes content body := by
  fun_induction stringBody offset chars generalizing content length with
  | case1 | case3 | case4 | case5 => cases h
  | case2 offset more =>
      obtain ⟨rfl, rfl⟩ := Prod.mk.inj (Except.ok.inj h)
      exact ⟨[], more, rfl, rfl, .nil⟩
  | case6 offset e rest c hknown ih =>
      cases hmore : stringBody (offset + 2) rest with
      | error fault => simp [hmore, Except.map] at h
      | ok result =>
          simp only [hmore, Except.map, Except.ok.injEq, Prod.mk.injEq] at h
          obtain ⟨rfl, rfl⟩ := h
          obtain ⟨body, more, rfl, hlength, hquotes⟩ := ih hmore
          refine ⟨'\\' :: e :: body, more, rfl, ?_, .escape hknown hquotes⟩
          rw [hlength, List.length_cons, List.length_cons]
          omega
  | case7 offset c rest hquote hbreak hlone hescape ih =>
      have hbackslash : c ≠ '\\' := by
        rintro rfl
        cases rest with
        | nil => exact hlone rfl rfl
        | cons e rest => exact hescape e rest rfl rfl
      cases hmore : stringBody (offset + 1) rest with
      | error fault => simp [hmore, Except.map] at h
      | ok result =>
          simp only [hmore, Except.map, Except.ok.injEq, Prod.mk.injEq] at h
          obtain ⟨rfl, rfl⟩ := h
          obtain ⟨body, more, rfl, hlength, hquotes⟩ := ih hmore
          refine ⟨c :: body, more, rfl, ?_, .plain hquote hbackslash hbreak hquotes⟩
          rw [hlength, List.length_cons]
          omega

theorem numberLexeme_ok {chars : List Char} {found : Lexeme} (h : numberLexeme chars = .ok found) :
    ∃ n : Word, found = ⟨.integer n, (chars.takeWhile Numeral.isDigit).length⟩ ∧
      n.toInt = Numeral.value (chars.takeWhile Numeral.isDigit) := by
  unfold numberLexeme at h
  cases hvalue : Word.ofInt? (Numeral.value (chars.takeWhile Numeral.isDigit)) with
  | none =>
      simp only [hvalue] at h
      split at h
      · cases h
      · split_ifs at h
  | some n =>
      refine ⟨n, ?_, Word.ofInt?_eq_some_iff.1 hvalue⟩
      simp only [hvalue] at h
      split at h
      · exact (Except.ok.inj h).symm
      · split_ifs at h
        exact (Except.ok.inj h).symm

/-- A word is a keyword if its small letters are in the table. -/
theorem keyword?_eq_some {word : List Char} {t : Token}
    (h : keyword? (String.ofList word) = some t) :
    ∃ k, (k, t) ∈ keywords ∧ Text.foldCase word = k.toList := by
  rw [keyword?, String.toList_ofList] at h
  obtain ⟨before, after, heq, -⟩ := List.lookup_eq_some_iff.1 h
  exact ⟨String.ofList (Text.foldCase word), by simp [heq], by simp⟩

theorem keyword?_eq_none {word : List Char} (h : keyword? (String.ofList word) = none)
    (entry : String × Token) (hentry : entry ∈ keywords) :
    Text.foldCase word ≠ entry.1.toList := by
  rw [keyword?, String.toList_ofList] at h
  intro hsame
  have hne := List.lookup_eq_none_iff.1 h entry hentry
  rw [hsame, String.ofList_toList] at hne
  simp at hne

theorem continuesName_of_startsName {c : Char} (h : Text.startsName c = true) :
    Text.continuesName c = true := by
  rw [Text.startsName, Bool.or_eq_true] at h
  rw [Text.continuesName, Bool.or_eq_true, Bool.or_eq_true]
  exact h.imp_left .inl

theorem nameLexeme_spelled {c : Char} {rest : List Char} (hstarts : Text.startsName c = true) :
    ∃ word more, c :: rest = c :: word ++ more ∧
      (nameLexeme (c :: rest)).length = (c :: word).length ∧
      Spelled (nameLexeme (c :: rest)).token (c :: word) := by
  have htake : (c :: rest).takeWhile Text.continuesName =
      c :: rest.takeWhile Text.continuesName :=
    List.takeWhile_cons_of_pos (continuesName_of_startsName hstarts)
  refine ⟨rest.takeWhile Text.continuesName, rest.dropWhile Text.continuesName, ?_, ?_, ?_⟩
  · rw [List.cons_append, List.takeWhile_append_dropWhile]
  · rw [nameLexeme, htake]
  · simp only [nameLexeme, htake]
    cases hkeyword : keyword? (String.ofList (c :: rest.takeWhile Text.continuesName)) with
    | some t =>
        obtain ⟨k, hmem, hfolded⟩ := keyword?_eq_some hkeyword
        exact .keyword hmem hfolded
    | none =>
        exact .name hstarts (fun d hd => List.mem_takeWhile_imp hd) (keyword?_eq_none hkeyword)

/-- An operator is the sign at hand, or that and the next one. -/
theorem operator?_spelling {c : Char} {next : Option Char} {found : Lexeme}
    (h : operator? c next = some found) :
    found.token.isSymbol = true ∧ found.length = found.token.spelling.toList.length ∧
      found.token.spelling.toList <+: c :: next.toList := by
  unfold operator? at h
  by_cases hequal : next = some '='
  · simp only [hequal, if_true] at h ⊢
    split at h <;> cases h <;> decide
  · simp only [hequal, if_false] at h
    split at h <;> cases h <;> exact ⟨rfl, rfl, next.toList, rfl⟩

theorem spelling_ne_nil {t : Token} (h : t.isSymbol = true) : t.spelling.toList ≠ [] := by
  cases t <;> simp only [isSymbol, Bool.false_eq_true] at h <;> decide

theorem operator?_spelled {c : Char} {rest : List Char} {found : Lexeme}
    (h : operator? c rest.head? = some found) :
    ∃ word more, c :: rest = word ++ more ∧ found.length = word.length ∧ word ≠ [] ∧
      Spelled found.token word := by
  obtain ⟨hsymbol, hlength, hprefix⟩ := operator?_spelling h
  have hhead : c :: rest.head?.toList <+: c :: rest := by
    cases rest <;> simp
  obtain ⟨more, hmore⟩ := hprefix.trans hhead
  exact ⟨_, more, hmore.symm, hlength, spelling_ne_nil hsymbol, .symbol hsymbol⟩

/-- What is read as a lexeme is a spelling of its token. -/
theorem lexeme_ok {c : Char} {rest : List Char} {found : Lexeme}
    (h : lexeme c rest = .ok found) :
    ∃ word more, c :: rest = word ++ more ∧ found.length = word.length ∧ word ≠ [] ∧
      Spelled found.token word := by
  unfold lexeme at h
  split_ifs at h with hbreak hcomment hquote hdigit hname
  · obtain rfl := Except.ok.inj h
    exact ⟨['\n'], rest, by rw [hbreak]; rfl, rfl, by simp, .newline⟩
  · obtain rfl := Except.ok.inj h
    obtain ⟨rfl, hslash⟩ := hcomment
    obtain ⟨rest, rfl⟩ : ∃ after, rest = '/' :: after := by
      cases rest with
      | nil => cases hslash
      | cons d after =>
          obtain rfl : d = '/' := Option.some.inj hslash
          exact ⟨after, rfl⟩
    refine ⟨'/' :: '/' :: rest.takeWhile (· != '\n'), rest.dropWhile (· != '\n'), ?_, rfl,
      by simp, .comment fun hmem => ?_⟩
    · simp [List.takeWhile_append_dropWhile]
    · simpa using List.mem_takeWhile_imp hmem
  · unfold stringLexeme at h
    cases hbody : stringBody 1 rest with
    | error fault => simp [hbody, Except.map] at h
    | ok result =>
        rw [hbody] at h
        obtain ⟨content, length⟩ := result
        obtain rfl := Except.ok.inj h
        obtain ⟨body, more, rfl, rfl, hquotes⟩ := stringBody_ok hbody
        refine ⟨'"' :: (body ++ ['"']), more, by simp [hquote], ?_, by simp, .text hquotes⟩
        simp only [List.length_cons, List.length_append, List.length_nil]
        omega
  · obtain ⟨n, rfl, hvalue⟩ := numberLexeme_ok h
    have hne : (c :: rest).takeWhile Numeral.isDigit ≠ [] := by
      rw [List.takeWhile_cons_of_pos hdigit]
      simp
    exact ⟨_, (c :: rest).dropWhile Numeral.isDigit, List.takeWhile_append_dropWhile.symm, rfl,
      hne, .integer hne (fun d hd => List.mem_takeWhile_imp hd) hvalue⟩
  · obtain rfl := Except.ok.inj h
    obtain ⟨word, more, hsplit, hlength, hspelled⟩ := nameLexeme_spelled hname
    exact ⟨c :: word, more, hsplit, hlength, by simp, hspelled⟩
  · split at h
    · rename_i hoperator
      obtain rfl := Except.ok.inj h
      exact operator?_spelled hoperator
    · cases h

/-! ## A spelling is read as its token -/

/-- What can come after a lexeme so that none of it belongs to the lexeme. -/
def Closes (t : Token) (more : List Char) : Prop :=
  match t with
  | .comment _ => ∀ c ∈ more.head?, c = '\n'
  | _ => ∀ c ∈ more.head?, c = '\n' ∨ isGap c = true

theorem Closes.parts {t : Token} {more : List Char} (h : Closes t more) :
    ∀ c ∈ more.head?, c = '\n' ∨ isGap c = true := by
  cases t with
  | comment content => exact fun c hc => .inl (h c hc)
  | _ => exact h

/-- Gaps and line ends go on with nothing. -/
theorem closer_cases {c : Char} (h : c = '\n' ∨ isGap c = true) :
    Text.continuesName c = false ∧ Text.startsName c = false ∧ Numeral.isDigit c = false ∧
      c ≠ '.' ∧ c ≠ '=' ∧ c ≠ '/' := by
  have hc : c = '\n' ∨ c = ' ' ∨ c = '\t' ∨ c = '\r' := by simpa [isGap, or_assoc] using h
  rcases hc with rfl | rfl | rfl | rfl <;>
    exact ⟨by decide +kernel, by decide +kernel, by decide +kernel, by decide, by decide, by decide⟩

theorem takeWhile_closed {p : Char → Bool} {word more : List Char} (hword : ∀ c ∈ word, p c = true)
    (hmore : ∀ c ∈ more.head?, p c = false) :
    (word ++ more).takeWhile p = word ∧ (word ++ more).dropWhile p = more := by
  rw [List.takeWhile_append_of_pos hword, List.dropWhile_append_of_pos hword]
  cases more with
  | nil => simp
  | cons c rest =>
      have hc : p c = false := hmore c rfl
      simp [hc]

theorem Quotes.stringBody_eq {content body : List Char} (h : Quotes content body) (offset : Nat)
    (more : List Char) :
    stringBody offset (body ++ '"' :: more) = .ok (content, offset + body.length + 1) := by
  induction h generalizing offset with
  | nil => rfl
  | @escape e c content body hknown _ ih =>
      rw [List.cons_append, List.cons_append, stringBody, hknown]
      simp only [ih, Except.map, List.length_cons]
      grind
  | @plain c content body hquote hbackslash hbreak _ ih =>
      rw [List.cons_append, stringBody]
      · simp only [ih, Except.map, List.length_cons]
        grind
      · exact hquote
      · exact hbreak
      · exact fun hlone _ => hbackslash hlone
      · exact fun _ _ hescape _ => hbackslash hescape

theorem numberLexeme_eq {n : Word} {digits more : List Char}
    (hdigits : ∀ c ∈ digits, Numeral.isDigit c = true) (hvalue : n.toInt = Numeral.value digits)
    (hmore : ∀ c ∈ more.head?, c = '\n' ∨ isGap c = true) :
    numberLexeme (digits ++ more) = .ok ⟨.integer n, digits.length⟩ := by
  obtain ⟨htake, hdrop⟩ := takeWhile_closed hdigits fun c hc => (closer_cases (hmore c hc)).2.2.1
  have hword : Word.ofInt? (Numeral.value digits) = some n := Word.ofInt?_eq_some_iff.2 hvalue
  simp only [numberLexeme, htake, hdrop, hword]
  cases more with
  | nil => rfl
  | cons c rest =>
      obtain ⟨-, hstarts, -, hpoint, -⟩ := closer_cases (hmore c rfl)
      simp [hstarts, hpoint]

theorem isLetter_of_isAlpha {c : Char} (h : c.isAlpha = true) : Text.isLetter c = true := by
  have hascii : Text.isAscii c = true := by
    simp only [Char.isAlpha, Char.isUpper, Char.isLower, Bool.or_eq_true, Bool.and_eq_true,
      decide_eq_true_eq, ge_iff_le, UInt32.le_iff_toNat_le] at h
    simp only [Text.isAscii, Char.toNat, decide_eq_true_eq]
    have hz : 'z'.val.toNat = 122 := rfl
    have hZ : 'Z'.val.toNat = 90 := rfl
    omega
  rw [Text.isLetter, if_pos hascii, h]

/-- A letter of ASCII is told by its small form. -/
theorem isLetter_of_toLower {c : Char} (h : c.toLower.isLower = true) : Text.isLetter c = true := by
  apply isLetter_of_isAlpha
  rw [Char.isAlpha, Bool.or_eq_true]
  unfold Char.toLower at h
  split at h
  · rename_i hupper
    exact .inl (decide_eq_true hupper)
  · exact .inr h

theorem startsName_eq_false_of_isDigit {c : Char} (h : Numeral.isDigit c = true) :
    Text.startsName c = false := by
  have hall : ∀ n ∈ List.range' 48 10, Text.startsName (Char.ofNat n) = false := by
    decide +kernel
  have hrange : 48 ≤ c.toNat ∧ c.toNat ≤ 57 := by
    rw [Numeral.isDigit, Bool.and_eq_true] at h
    exact ⟨of_decide_eq_true h.1, of_decide_eq_true h.2⟩
  have hmem : c.toNat ∈ List.range' 48 10 := List.mem_range'_1.2 ⟨hrange.1, by omega⟩
  simpa using hall c.toNat hmem

theorem keyword_lookup {k : String} {t : Token} (h : (k, t) ∈ keywords) :
    keywords.lookup k = some t := by
  have hall : ∀ entry ∈ keywords, keywords.lookup entry.1 = some entry.2 := by decide
  exact hall _ h

/-- A keyword is a word of letters. -/
theorem keyword_isLetter {k : String} {t : Token} {word : List Char} (hmem : (k, t) ∈ keywords)
    (hfolded : Text.foldCase word = k.toList) : ∀ c ∈ word, Text.isLetter c = true := by
  have hall : (keywords.all fun entry => entry.1.toList.all Char.isLower) = true := by
    decide +kernel
  intro c hc
  apply isLetter_of_toLower
  apply List.all_eq_true.1 (List.all_eq_true.1 hall _ hmem)
  rw [← hfolded]
  exact List.mem_map_of_mem hc

theorem keyword_ne_nil {k : String} {t : Token} {word : List Char} (hmem : (k, t) ∈ keywords)
    (hfolded : Text.foldCase word = k.toList) : word ≠ [] := by
  have hall : ∀ entry ∈ keywords, entry.1.toList ≠ [] := by decide
  rintro rfl
  exact hall _ hmem hfolded.symm

theorem keyword?_of_mem {k : String} {t : Token} {word : List Char} (hmem : (k, t) ∈ keywords)
    (hfolded : Text.foldCase word = k.toList) : keyword? (String.ofList word) = some t := by
  rw [keyword?, String.toList_ofList, hfolded, String.ofList_toList, keyword_lookup hmem]

theorem keyword?_of_free {word : List Char}
    (h : ∀ entry ∈ keywords, Text.foldCase word ≠ entry.1.toList) :
    keyword? (String.ofList word) = none := by
  cases hfound : keyword? (String.ofList word) with
  | none => rfl
  | some t =>
      obtain ⟨k, hmem, hfolded⟩ := keyword?_eq_some hfound
      exact absurd hfolded (h _ hmem)

/-- The first character decides how a lexeme is read. -/
theorem lexeme_of_startsName {c : Char} (h : Text.startsName c = true) (rest : List Char) :
    isGap c = false ∧ lexeme c rest = .ok (nameLexeme (c :: rest)) := by
  have hne : ∀ d, Text.startsName d = false → c ≠ d := by
    rintro d hd rfl
    rw [h] at hd
    cases hd
  have hbreak : c ≠ '\n' := hne _ (by decide +kernel)
  have hslash : c ≠ '/' := hne _ (by decide +kernel)
  have hquote : c ≠ '"' := hne _ (by decide +kernel)
  have hdigit : Numeral.isDigit c = false := by
    by_contra hdigit
    rw [startsName_eq_false_of_isDigit (Bool.eq_true_of_not_eq_false hdigit)] at h
    cases h
  refine ⟨?_, by simp [lexeme, hbreak, hslash, hquote, hdigit, h]⟩
  by_contra hgap
  rw [(closer_cases (.inr (Bool.eq_true_of_not_eq_false hgap))).2.1] at h
  cases h

theorem nameLexeme_eq {word more : List Char} (hword : ∀ c ∈ word, Text.continuesName c = true)
    (hmore : ∀ c ∈ more.head?, c = '\n' ∨ isGap c = true) :
    nameLexeme (word ++ more) =
      ⟨(keyword? (String.ofList word)).getD (.name (String.ofList word)), word.length⟩ := by
  obtain ⟨htake, -⟩ := takeWhile_closed hword fun c hc => (closer_cases (hmore c hc)).1
  simp only [nameLexeme, htake]

theorem symbol_lexeme_eq {t : Token} {more : List Char} (hsymbol : t.isSymbol = true)
    (hmore : ∀ c ∈ more.head?, c = '\n' ∨ isGap c = true) :
    ∃ c rest, t.spelling.toList = c :: rest ∧ isGap c = false ∧
      lexeme c (rest ++ more) = .ok ⟨t, t.spelling.toList.length⟩ := by
  have hequal : more.head? ≠ some '=' := fun h => (closer_cases (hmore _ h)).2.2.2.2.1 rfl
  have hslash : more.head? ≠ some '/' := fun h => (closer_cases (hmore _ h)).2.2.2.2.2 rfl
  cases t <;> simp only [isSymbol, Bool.false_eq_true] at hsymbol
  all_goals
    refine ⟨_, _, rfl, rfl, ?_⟩
    simp +decide [lexeme, operator?, hequal, hslash]

/-- A spelling is read as its token, if what comes after it closes it. -/
theorem Spelled.lexeme_eq {t : Token} {word more : List Char} (h : Spelled t word)
    (hclosed : Closes t more) (hend : t ≠ .eof) :
    ∃ c rest, word = c :: rest ∧ isGap c = false ∧
      lexeme c (rest ++ more) = .ok ⟨t, word.length⟩ := by
  have hmore := hclosed.parts
  cases h with
  | @integer n digits hne hdigits hvalue =>
      obtain ⟨c, rest, rfl⟩ := List.exists_cons_of_ne_nil hne
      have hdigit : Numeral.isDigit c = true := hdigits c (.head _)
      have hplain : ∀ d, Numeral.isDigit d = false → c ≠ d := by
        rintro d hd rfl
        rw [hdigit] at hd
        cases hd
      have hbreak : c ≠ '\n' := hplain _ rfl
      have hslash : c ≠ '/' := hplain _ rfl
      have hquote : c ≠ '"' := hplain _ rfl
      refine ⟨c, rest, rfl, ?_, ?_⟩
      · by_contra hgap
        rw [(closer_cases (.inr (Bool.eq_true_of_not_eq_false hgap))).2.2.1] at hdigit
        cases hdigit
      · rw [← numberLexeme_eq hdigits hvalue hmore]
        simp [lexeme, hbreak, hslash, hquote, hdigit]
  | @text content body hquotes =>
      have hlexeme : ∀ rest, lexeme '"' rest = stringLexeme rest := by simp +decide [lexeme]
      have hlength : ('"' :: (body ++ ['"'])).length = 1 + body.length + 1 := by
        rw [List.length_cons, List.length_append, List.length_singleton]
        omega
      refine ⟨'"', body ++ ['"'], rfl, rfl, ?_⟩
      rw [hlexeme, List.append_assoc, stringLexeme, hlength]
      exact congrArg (Except.map _) (hquotes.stringBody_eq 1 more)
  | @keyword k _ _ hmem hfolded =>
      have hletters := keyword_isLetter hmem hfolded
      obtain ⟨c, rest, rfl⟩ := List.exists_cons_of_ne_nil (keyword_ne_nil hmem hfolded)
      have hstarts : Text.startsName c = true := by
        rw [Text.startsName, hletters c (.head _), Bool.true_or]
      have hcontinues : ∀ d ∈ c :: rest, Text.continuesName d = true := by
        intro d hd
        rw [Text.continuesName, hletters d hd, Bool.true_or, Bool.true_or]
      obtain ⟨hgap, hlexeme⟩ := lexeme_of_startsName hstarts (rest ++ more)
      refine ⟨c, rest, rfl, hgap, ?_⟩
      rw [hlexeme, ← List.cons_append, nameLexeme_eq hcontinues hmore,
        keyword?_of_mem hmem hfolded, Option.getD_some]
  | @name c rest hstarts hcontinues hfree =>
      obtain ⟨hgap, hlexeme⟩ := lexeme_of_startsName hstarts (rest ++ more)
      refine ⟨c, rest, rfl, hgap, ?_⟩
      have hall : ∀ d ∈ c :: rest, Text.continuesName d = true :=
        List.forall_mem_cons.2 ⟨continuesName_of_startsName hstarts, hcontinues⟩
      rw [hlexeme, ← List.cons_append, nameLexeme_eq hall hmore, keyword?_of_free hfree,
        Option.getD_none]
  | symbol hsymbol => exact symbol_lexeme_eq hsymbol hmore
  | @comment content hunbroken =>
      have hcontent : ∀ c ∈ content, (c != '\n') = true := by
        intro c hc
        rw [bne_iff_ne]
        rintro rfl
        exact hunbroken hc
      have hbreak : ∀ c ∈ more.head?, (c != '\n') = false := by
        intro c hc
        simp [hclosed c hc]
      obtain ⟨htake, -⟩ := takeWhile_closed hcontent hbreak
      refine ⟨'/', '/' :: content, rfl, rfl, ?_⟩
      simp +decide [lexeme, commentLexeme, htake]
  | newline => exact ⟨'\n', [], rfl, rfl, rfl⟩
  | eof => exact absurd rfl hend

/-! ## Where faults are -/

theorem stringBody_error {offset : Nat} {chars : List Char} {cause : LexFault} {distance : Nat}
    (h : stringBody offset chars = .error (cause, distance)) :
    distance ≤ offset + chars.length := by
  fun_induction stringBody offset chars with
  | case1 | case3 =>
      obtain ⟨-, rfl⟩ := Prod.mk.inj (Except.error.inj h)
      exact Nat.zero_le _
  | case2 => cases h
  | case4 offset =>
      obtain ⟨-, rfl⟩ := Prod.mk.inj (Except.error.inj h)
      exact le_rfl
  | case5 offset e rest hunknown =>
      obtain ⟨-, rfl⟩ := Prod.mk.inj (Except.error.inj h)
      rw [List.length_cons]
      omega
  | case6 offset e rest c hknown ih =>
      cases hmore : stringBody (offset + 2) rest with
      | ok result => simp [hmore, Except.map] at h
      | error fault =>
          rw [hmore] at h
          have hle := ih (hmore.trans h)
          rw [List.length_cons, List.length_cons]
          omega
  | case7 offset c rest hquote hbreak hlone hescape ih =>
      cases hmore : stringBody (offset + 1) rest with
      | ok result => simp [hmore, Except.map] at h
      | error fault =>
          rw [hmore] at h
          have hle := ih (hmore.trans h)
          rw [List.length_cons]
          omega

theorem numberLexeme_error {chars : List Char} {cause : LexFault} {distance : Nat}
    (h : numberLexeme chars = .error (cause, distance)) : distance = 0 := by
  have hzero : ∀ {fault : LexFault},
      (.error (fault, 0) : Lexing Lexeme) = .error (cause, distance) → distance = 0 :=
    fun h => (Prod.mk.inj (Except.error.inj h)).2.symm
  unfold numberLexeme at h
  cases hvalue : Word.ofInt? (Numeral.value (chars.takeWhile Numeral.isDigit)) with
  | none =>
      simp only [hvalue] at h
      split at h
      · exact hzero h
      · split_ifs at h <;> exact hzero h
  | some n =>
      simp only [hvalue] at h
      split at h
      · cases h
      · split_ifs at h <;> exact hzero h

/-- A fault is found before the end of the text, or at its end. -/
theorem lexeme_error {c : Char} {rest : List Char} {cause : LexFault} {distance : Nat}
    (h : lexeme c rest = .error (cause, distance)) : distance ≤ (c :: rest).length := by
  unfold lexeme at h
  split_ifs at h
  · unfold stringLexeme at h
    cases hbody : stringBody 1 rest with
    | ok result => simp [hbody, Except.map] at h
    | error fault =>
        rw [hbody] at h
        obtain rfl : fault = (cause, distance) := Except.error.inj h
        have hle := stringBody_error hbody
        rw [List.length_cons]
        omega
  · rw [numberLexeme_error h]
    exact Nat.zero_le _
  · split at h
    · cases h
    · obtain ⟨-, rfl⟩ := Prod.mk.inj (Except.error.inj h)
      exact Nat.zero_le _

/-! ## Walking over a text -/

/-- The characters of a lexeme are passed over. -/
theorem scanFrom_inside (word more : List Char) (pos : Pos) :
    scanFrom word.length pos (word ++ more) = scanFrom 0 (pos.afterAll word) more := by
  induction word generalizing pos with
  | nil => rfl
  | cons c rest ih =>
      rw [List.cons_append, List.length_cons, scanFrom]
      exact ih (pos.after c)

theorem scanFrom_gap {gap : List Char} (h : ∀ c ∈ gap, isGap c = true) (more : List Char)
    (pos : Pos) : scanFrom 0 pos (gap ++ more) = scanFrom 0 (pos.afterAll gap) more := by
  induction gap generalizing pos with
  | nil => rfl
  | cons c rest ih =>
      obtain ⟨hc, hrest⟩ := List.forall_mem_cons.1 h
      rw [List.cons_append, scanFrom]
      simp only [hc, if_true]
      exact ih hrest (pos.after c)

theorem scanFrom_lexeme {c : Char} {rest more : List Char} {t : Token} (hgap : isGap c = false)
    (h : lexeme c (rest ++ more) = .ok ⟨t, (c :: rest).length⟩) (pos : Pos) :
    scanFrom 0 pos (c :: rest ++ more) =
      (scanFrom 0 (pos.afterAll (c :: rest)) more).map ({ token := t, pos } :: ·) := by
  rw [List.cons_append, scanFrom]
  simp only [hgap, h, Bool.false_eq_true, if_false, List.length_cons, Nat.add_sub_cancel]
  rw [scanFrom_inside]
  rfl

/-- What comes of a text: gaps in front, and then the end, a fault or a lexeme. -/
inductive Scanning (pos : Pos) : List Char → Except LexError (List Spanned) → Prop
  | done {gap : List Char} (gaps : ∀ c ∈ gap, isGap c = true) :
      Scanning pos gap (.ok [{ token := .eof, pos := pos.afterAll gap }])
  | fault {gap rest : List Char} {c : Char} {cause : LexFault} {distance : Nat}
      (gaps : ∀ c ∈ gap, isGap c = true) (unread : lexeme c rest = .error (cause, distance)) :
      Scanning pos (gap ++ c :: rest)
        (.error { cause, pos := (pos.afterAll gap).afterAll ((c :: rest).take distance) })
  | lexeme {gap word more : List Char} {t : Token} (gaps : ∀ c ∈ gap, isGap c = true)
      (nonempty : word ≠ []) (spelled : Spelled t word) :
      Scanning pos (gap ++ (word ++ more))
        ((scanFrom 0 ((pos.afterAll gap).afterAll word) more).map
          ({ token := t, pos := pos.afterAll gap } :: ·))

theorem scanFrom_scanning (pos : Pos) (text : List Char) :
    Scanning pos text (scanFrom 0 pos text) := by
  have hgaps : ∀ c ∈ text.takeWhile isGap, isGap c = true := fun c hc => List.mem_takeWhile_imp hc
  have htext : text.takeWhile isGap ++ text.dropWhile isGap = text :=
    List.takeWhile_append_dropWhile
  rw [← htext, scanFrom_gap hgaps]
  cases hrest : text.dropWhile isGap with
  | nil =>
      rw [List.append_nil]
      exact .done hgaps
  | cons c rest =>
      have hc : isGap c = false := by
        have hhead := List.head?_dropWhile_not isGap text
        rwa [hrest] at hhead
      cases hlexeme : Token.lexeme c rest with
      | error fault =>
          obtain ⟨cause, distance⟩ := fault
          rw [scanFrom]
          simp only [hc, hlexeme, Bool.false_eq_true, if_false]
          exact .fault hgaps hlexeme
      | ok found =>
          obtain ⟨t, length⟩ := found
          obtain ⟨word, more, hsplit, hlength, hne, hspelled⟩ := lexeme_ok hlexeme
          obtain ⟨d, after, rfl⟩ := List.exists_cons_of_ne_nil hne
          obtain ⟨rfl, rfl⟩ := List.cons.inj hsplit
          obtain rfl : length = (c :: after).length := hlength
          rw [hsplit, scanFrom_lexeme hc hlexeme]
          exact .lexeme hgaps hne hspelled

end Token
end LittleMan
