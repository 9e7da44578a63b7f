import LittleMan.Proofs.Lexemes

/-!
# Tokens that are written and read again

Every token but the end can be written down, and a list of tokens that are written down with
single spaces between them is read as the same list.  `Writes` gives the spellings: numbers in
decimal, keywords in any mixture of capitals and small letters, strings in quotes with four
characters escaped, comments after two slashes.

What is written for a token is one of its spellings, and a space closes every lexeme but that
of a comment.  A comment goes on to the end of its line and takes the space with it, which is
then trimmed off; hence it needs a line end after it.
-/

namespace LittleMan
namespace Token

/-- Tokens that can be written: numbers without a sign, names that are no keywords, and comments
of one line that do not start or end with a blank. -/
def Valid : Token → Prop
  | .integer n => 0 ≤ n.toInt
  | .name word => ∃ c rest, word.toList = c :: rest ∧ Text.startsName c = true ∧
      (∀ d ∈ rest, Text.continuesName d = true) ∧
      ∀ entry ∈ keywords, Text.foldCase word.toList ≠ entry.1.toList
  | .comment content => Text.trimmed content = content ∧ '\n' ∉ content.toList
  | .eof => False
  | _ => True

theorem Valid.ne_eof {t : Token} (h : t.Valid) : t ≠ .eof := by
  rintro rfl
  exact h

/-- What stands for a character in a string. -/
def escaped : Char → List Char
  | '\n' => ['\\', 'n']
  | '\t' => ['\\', 't']
  | '\\' => ['\\', '\\']
  | '"' => ['\\', '"']
  | c => [c]

def quoted (content : String) : String :=
  "\"" ++ String.ofList (content.toList.flatMap escaped) ++ "\""

/-- How a token is written. -/
inductive Writes : Token → String → Prop
  | integer (n : Word) : Writes (.integer n) n.text
  | text (content : String) : Writes (.text content) (quoted content)
  | name (word : String) : Writes (.name word) word
  | keyword {k word : String} {t : Token} (mem : (k, t) ∈ keywords)
      (folded : Text.foldCase word.toList = k.toList) : Writes t word
  | symbol {t : Token} (symbol : t.isSymbol = true) : Writes t t.spelling
  | comment (content : String) : Writes (.comment content) ("//" ++ content)
  | newline : Writes .newline "\n"

/-! ## What is written is a spelling -/

theorem quotes_escaped (content : List Char) : Quotes content (content.flatMap escaped) := by
  induction content with
  | nil => exact .nil
  | cons c rest ih =>
      rw [List.flatMap_cons]
      unfold escaped
      split
      · exact .escape rfl ih
      · exact .escape rfl ih
      · exact .escape rfl ih
      · exact .escape rfl ih
      · rename_i hbreak _ hbackslash hquote
        exact .plain hquote hbackslash hbreak ih

theorem spelled_integer {n : Word} (h : 0 ≤ n.toInt) : Spelled (.integer n) n.text.toList := by
  have hdigits : n.text.toList = Nat.toDigits 10 n.toInt.natAbs := by
    rw [Word.text_toList, if_neg (by omega), List.nil_append]
  rw [hdigits]
  refine .integer Nat.toDigits_ne_nil (fun c hc => ?_) ?_
  · rw [Numeral.isDigit_eq]
    exact Nat.isDigit_of_mem_toDigits (by decide) (by decide) hc
  · rw [Numeral.value_toDigits]
    omega

theorem Writes.spelled {t : Token} {word : String} (h : Writes t word) (hvalid : t.Valid) :
    Spelled t word.toList := by
  cases h with
  | integer n => exact spelled_integer hvalid
  | text content =>
      have hspelled := Spelled.text (quotes_escaped content.toList)
      rw [String.ofList_toList] at hspelled
      simpa [quoted] using hspelled
  | name =>
      obtain ⟨c, rest, hword, hstarts, hcontinues, hfree⟩ := hvalid
      have hspelled := Spelled.name hstarts hcontinues (hword ▸ hfree)
      rwa [← hword, String.ofList_toList] at hspelled
  | keyword hmem hfolded => exact .keyword hmem hfolded
  | symbol hsymbol => exact .symbol hsymbol
  | comment content =>
      have hspelled := Spelled.comment hvalid.2
      rw [String.toList_append]
      change Spelled (.comment (Text.trimmed content)) _ at hspelled
      rwa [hvalid.1] at hspelled
  | newline => exact .newline

theorem writes_spelling {t : Token} (h : t.isSymbol = true ∨
    (String.ofList (Text.foldCase t.spelling.toList), t) ∈ keywords) : Writes t t.spelling := by
  rcases h with hsymbol | hkeyword
  · exact .symbol hsymbol
  · exact .keyword hkeyword String.toList_ofList.symm

theorem Valid.exists_writes {t : Token} (h : t.Valid) : ∃ word, Writes t word := by
  cases t with
  | integer n => exact ⟨_, .integer n⟩
  | text content => exact ⟨_, .text content⟩
  | name word => exact ⟨_, .name word⟩
  | comment content => exact ⟨_, .comment content⟩
  | newline => exact ⟨_, .newline⟩
  | eof => exact h.elim
  | bool value =>
      cases value
      · exact ⟨"false", .keyword (k := "false") (by decide +kernel) rfl⟩
      · exact ⟨"true", .keyword (k := "true") (by decide +kernel) rfl⟩
  | _ => exact ⟨_, writes_spelling (by decide +kernel)⟩

theorem keyword_isTrivia : ∀ entry ∈ keywords, entry.2.isTrivia = false := by
  decide

theorem Writes.eq_of_newline {word : String} (h : Writes .newline word) : word = "\n" := by
  cases h with
  | keyword hmem _ => cases keyword_isTrivia _ hmem
  | symbol hsymbol => cases hsymbol
  | newline => rfl

theorem Writes.eq_of_comment {content word : String} (h : Writes (.comment content) word) :
    word = "//" ++ content := by
  cases h with
  | keyword hmem _ => cases keyword_isTrivia _ hmem
  | symbol hsymbol => cases hsymbol
  | comment => rfl

/-! ## What is written is read again -/

theorem trim_append_space (content : List Char) :
    Text.trim (content ++ [' ']) = Text.trim content := by
  have hblank : Text.isBlank ' ' = true := rfl
  unfold Text.trim Text.trimLeft
  rw [List.dropWhile_append]
  split
  · rename_i hempty
    rw [List.isEmpty_iff.1 hempty]
    simp [hblank]
  · simp [Text.trimRight, hblank]

/-- A comment may have a space behind it. -/
theorem spelled_comment_space {content : String} (h : (comment content).Valid) :
    Spelled (.comment content) (("//" ++ content).toList ++ [' ']) := by
  have hunbroken : '\n' ∉ content.toList ++ [' '] := by simpa using h.2
  have hspelled := Spelled.comment hunbroken
  rw [trim_append_space] at hspelled
  change Spelled (.comment (Text.trimmed content)) _ at hspelled
  rw [h.1] at hspelled
  simpa using hspelled

theorem Spelled.scanFrom_eq {t : Token} {word more : List Char} (h : Spelled t word)
    (hclosed : Closes t more) (hend : t ≠ .eof) (pos : Pos) :
    scanFrom 0 pos (word ++ more) =
      (scanFrom 0 (pos.afterAll word) more).map ({ token := t, pos } :: ·) := by
  obtain ⟨c, rest, rfl, hgap, hlexeme⟩ := h.lexeme_eq hclosed hend
  exact scanFrom_lexeme hgap hlexeme pos

/-- A token that is written with a space after it is read, and what comes then is read next.
The space goes with the comment or is a gap. -/
theorem Writes.scanFrom_eq {t : Token} {word : String} {more : List Char} (h : Writes t word)
    (hvalid : t.Valid) (hcomment : ∀ content, t = .comment content → more.head? = some '\n')
    (pos : Pos) :
    ∃ next, scanFrom 0 pos (word.toList ++ ' ' :: more) =
      (scanFrom 0 next more).map ({ token := t, pos } :: ·) := by
  by_cases hc : ∃ content, t = .comment content
  · obtain ⟨content, rfl⟩ := hc
    have hclosed : Closes (.comment content) more := by
      intro c hmem
      rw [hcomment content rfl] at hmem
      exact (Option.some.inj hmem).symm
    obtain rfl := h.eq_of_comment
    have hread := (spelled_comment_space hvalid).scanFrom_eq hclosed hvalid.ne_eof pos
    rw [List.append_assoc] at hread
    exact ⟨_, hread⟩
  · have hclosed : Closes t (' ' :: more) := by
      unfold Closes
      split
      · exact absurd ⟨_, rfl⟩ hc
      · rintro c ⟨⟩
        exact .inr rfl
    have hgap : ∀ c ∈ [' '], isGap c = true := by simp [isGap]
    refine ⟨(pos.afterAll word.toList).afterAll [' '], ?_⟩
    rw [(h.spelled hvalid).scanFrom_eq hclosed hvalid.ne_eof pos,
      ← List.singleton_append, scanFrom_gap hgap]

theorem head?_intercalate (word : List Char) (words : List (List Char)) (hword : word ≠ []) :
    ([' '].intercalate (word :: words)).head? = word.head? := by
  cases words with
  | nil => rw [List.intercalate_singleton]
  | cons next words => rw [List.intercalate_cons_cons, List.append_assoc,
      List.head?_append_of_ne_nil _ hword]

/-- Comments are followed by line ends. -/
def CommentsEnd (tokens : List Token) : Prop :=
  ∀ i content, tokens[i]? = some (.comment content) → tokens[i + 1]? = some .newline

theorem scanFrom_writes {tokens : List Token} {words : List String}
    (h : List.Forall₂ Writes tokens words) (hvalid : ∀ t ∈ tokens, t.Valid)
    (hcomments : CommentsEnd tokens) (pos : Pos) :
    ∃ spanned, scanFrom 0 pos ([' '].intercalate (words.map String.toList)) = .ok spanned ∧
      spanned.map Spanned.token = tokens ++ [.eof] := by
  induction h generalizing pos with
  | nil => exact ⟨_, rfl, rfl⟩
  | @cons t word tokens words hword hwords ih =>
      obtain ⟨ht, hrest⟩ := List.forall_mem_cons.1 hvalid
      have hafter : CommentsEnd tokens := fun i content => hcomments (i + 1) content
      cases hwords with
      | nil =>
          have hclosed : Closes t [] := by
            unfold Closes
            split <;> rintro c ⟨⟩
          have hread := (hword.spelled ht).scanFrom_eq hclosed ht.ne_eof pos
          rw [List.append_nil] at hread
          refine ⟨[{ token := t, pos }, { token := .eof, pos := pos.afterAll word.toList }], ?_,
            rfl⟩
          rw [List.map_singleton, List.intercalate_singleton, hread]
          rfl
      | @cons next nextWord tokens words hnext hwords =>
          have hcomment : ∀ content, t = .comment content →
              ([' '].intercalate ((nextWord :: words).map String.toList)).head? = some '\n' := by
            rintro content rfl
            obtain rfl := Option.some.inj (hcomments 0 content rfl)
            obtain rfl := hnext.eq_of_newline
            exact head?_intercalate ['\n'] _ (List.cons_ne_nil _ _)
          obtain ⟨after, hread⟩ := hword.scanFrom_eq ht hcomment pos
          obtain ⟨spanned, hspanned, htokens⟩ := ih hrest hafter after
          refine ⟨{ token := t, pos } :: spanned, ?_, ?_⟩
          · rw [hspanned] at hread
            exact hread
          · rw [List.map_cons, htokens]
            rfl

/-- Tokens can be written, and however they are written, with single spaces between them they
are read again. -/
theorem scan_writes {tokens : List Token} (hvalid : ∀ t ∈ tokens, t.Valid)
    (hcomments : CommentsEnd tokens) :
    (∃ words, List.Forall₂ Writes tokens words) ∧
      ∀ words, List.Forall₂ Writes tokens words →
        ∃ spanned, scan (" ".intercalate words) = .ok spanned ∧
          spanned.map Spanned.token = tokens ++ [.eof] := by
  refine ⟨?_, fun words hwords => ?_⟩
  · choose! write hwrite using fun t (ht : t ∈ tokens) => (hvalid t ht).exists_writes
    exact ⟨tokens.map write, List.forall₂_map_right_iff.2 (List.forall₂_same.2 hwrite)⟩
  · rw [scan, String.toList_intercalate]
    exact scanFrom_writes hwords hvalid hcomments Pos.start

/-- A division, a comment with a slash in it, a keyword in mixed case and a string with all the
escapes. -/
def shareOut : List Token :=
  [.name "été", .assign, .integer 42, .slash, .name "iff", .comment "a / b", .newline, .ifKw,
    .text "\"\\\t\né", .notEqual, .integer 9223372036854775807]

def shareOutWords : List String :=
  ["été", "=", "42", "/", "iff", "//a / b", "\n", "iF", "\"\\\"\\\\\\t\\né\"", "!=",
    "9223372036854775807"]

theorem scan_writes_shareOut :
    List.Forall₂ Writes shareOut shareOutWords ∧
      ∃ spanned, scan (" ".intercalate shareOutWords) = .ok spanned ∧
        spanned.map Spanned.token = shareOut ++ [.eof] := by
  have hwrites : List.Forall₂ Writes shareOut shareOutWords := by
    have hquoted : quoted "\"\\\t\né" = "\"\\\"\\\\\\t\\né\"" := by decide +kernel
    refine .cons (.name _) (.cons (.symbol rfl) (.cons (.integer 42) (.cons (.symbol rfl) ?_)))
    refine .cons (.name _) (.cons (.comment _) (.cons .newline ?_))
    refine .cons (.keyword (k := "if") (by decide +kernel) (by decide +kernel)) ?_
    exact .cons (hquoted ▸ .text _) (.cons (.symbol rfl) (.cons (.integer _) .nil))
  have hvalid : ∀ t ∈ shareOut, t.Valid := by
    simp only [shareOut, List.forall_mem_cons]
    have hanswer : 0 ≤ (42 : Word).toInt := by decide
    have hgreatest : 0 ≤ (9223372036854775807 : Word).toInt := by decide
    refine ⟨?_, trivial, hanswer, trivial, ?_, ?_, trivial, trivial, trivial, trivial, hgreatest,
      nofun⟩
    · exact ⟨'é', ['t', 'é'], by decide +kernel, by decide +kernel,
        List.all_eq_true.1 (by decide +kernel), by decide +kernel⟩
    · exact ⟨'i', ['f', 'f'], by decide +kernel, by decide +kernel,
        List.all_eq_true.1 (by decide +kernel), by decide +kernel⟩
    · exact ⟨by decide +kernel, by decide +kernel⟩
  have hcomments : CommentsEnd shareOut := by
    intro i content h
    have hi : i < shareOut.length := (List.getElem?_eq_some_iff.1 h).1
    have hlength : shareOut.length = 11 := rfl
    rw [hlength] at hi
    interval_cases i <;> first | rfl | cases h
  exact ⟨hwrites, (scan_writes hvalid hcomments).2 _ hwrites⟩

end Token
end LittleMan
