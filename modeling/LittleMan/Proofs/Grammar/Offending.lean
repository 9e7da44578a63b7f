import LittleMan.Proofs.Grammar.Lookahead
import LittleMan.Proofs.Grammar.Stopping

/-!
# Errors point at the first offending token

A program that cannot be read has a first token that cannot be where it is: what stands before
it begins a program, and together with it nothing does.  The error of the reader is at that
token.

That what stands before it begins a program is the viability of what a reader has taken.  That
no program goes on with the token is the lookahead: with other tokens behind it, the reader
stops there as well.
-/

namespace LittleMan

/-! ## The tokens of a text -/

namespace Token

theorem exists_eof_of_scanFrom {chars : List Char} {inside : Nat} {pos : Pos}
    {tokens : List Spanned} (h : scanFrom inside pos chars = .ok tokens) :
    ∃ s ∈ tokens, s.token = .eof := by
  induction chars generalizing inside pos tokens with
  | nil =>
      cases h
      exact ⟨_, .head _, rfl⟩
  | cons c rest ih =>
      cases inside with
      | succ skipped => exact ih h
      | zero =>
          unfold scanFrom at h
          dsimp only at h
          split at h
          · exact ih h
          · split at h
            · cases h
            · next lexeme _ =>
                cases hmore : scanFrom (lexeme.length - 1) (pos.after c) rest with
                | error error =>
                    rw [hmore] at h
                    cases h
                | ok more =>
                    rw [hmore] at h
                    cases h
                    obtain ⟨s, hs, heof⟩ := ih hmore
                    exact ⟨s, .tail _ hs, heof⟩

theorem exists_eof_of_scan {source : String} {tokens : List Spanned}
    (h : scan source = .ok tokens) : ∃ s ∈ withoutTrivia tokens, s.token = .eof := by
  obtain ⟨s, hs, heof⟩ := exists_eof_of_scanFrom h
  exact ⟨s, List.mem_filter.2 ⟨hs, by rw [heof]; rfl⟩, heof⟩

theorem withoutTrivia_beginning {tokens before after : List Spanned} {s : Spanned}
    (h : withoutTrivia tokens = before ++ s :: after) (more : List Spanned) :
    withoutTrivia (before ++ s :: more) = before ++ s :: withoutTrivia more := by
  have hkept : ∀ t ∈ before ++ s :: after, (!t.token.isTrivia) = true := by
    rw [← h]
    exact fun t ht => (List.mem_filter.1 ht).2
  have hbefore : before.filter (fun t => !t.token.isTrivia) = before :=
    List.filter_eq_self.2 fun t ht => hkept t (List.mem_append_left _ ht)
  have hs : (!s.token.isTrivia) = true := hkept s (by simp)
  rw [withoutTrivia, List.filter_append, hbefore, List.filter_cons, if_pos hs, withoutTrivia]

theorem significant_of_isWritten {tokens : List Spanned}
    (h : ∀ s ∈ tokens, s.token.isWritten = true) : significant tokens = tokens := by
  have hkept : ∀ t : Token, t.isWritten = true → (t != .eof) = true ∧ (!t.isTrivia) = true := by
    intro t ht
    cases t <;> first | exact ⟨rfl, rfl⟩ | cases ht
  rw [significant_eq, withoutTrivia, List.filter_eq_self.2 fun s hs => (hkept _ (h s hs)).2,
    List.takeWhile_eq_self_iff.2 fun s hs => (hkept _ (h s hs)).1]

end Token

/-! ## The reader of programs -/

namespace Program

variable {tokens : List Spanned} {stop : Stop}

theorem topLevel_of_read (h : read tokens = .error stop) :
    Reading.topLevel (Cursor.start tokens).budget (Cursor.start tokens) = .error stop := by
  rw [read] at h
  cases htop : Reading.topLevel (Cursor.start tokens).budget (Cursor.start tokens) with
  | error stop' =>
      rw [htop] at h
      cases h
      rfl
  | ok result =>
      rw [htop] at h
      cases h

/-- With other tokens behind the one at the stop, nothing is read either. -/
theorem read_refused (h : read tokens = .error stop) (hfault : stop.fault ≠ .exhausted)
    {before after : List Spanned} {s : Spanned} (hstop : stop.cursor.rest = s :: after)
    (htokens : Token.withoutTrivia tokens = before ++ s :: after) (more : List Spanned)
    (program : Program) : ofTokens (before ++ s :: more) ≠ .ok program := by
  intro hok
  let c := Cursor.start tokens
  let d := Cursor.start (before ++ s :: more)
  obtain ⟨statements, d', hread⟩ : ∃ statements d',
      Reading.topLevel d.budget d = .ok (statements, d') := by
    cases htop : Reading.topLevel d.budget d with
    | ok result => exact ⟨_, _, rfl⟩
    | error stop' =>
        rw [ofTokens, read, htop] at hok
        cases hok
  -- Both runs are compared with one that has the larger budget.
  have hrepeats : Reading.Echoed (s :: after) (s :: Token.withoutTrivia more)
      (Reading.topLevel c.budget c) (Reading.topLevel (max c.budget d.budget) d) :=
    (Reading.topLevel_echoes (le_max_left _ _) _).echo c d rfl
      ⟨rfl, rfl, before, htokens, Token.withoutTrivia_beginning htokens more⟩
  have hagrees : Reading.Echoed [] [] (Reading.topLevel d.budget d)
      (Reading.topLevel (max c.budget d.budget) d) :=
    (Reading.topLevel_echoes (le_max_right _ _) _).echo d d rfl
      ⟨rfl, rfl, d.rest, (List.append_nil _).symm, (List.append_nil _).symm⟩
  rw [topLevel_of_read h] at hrepeats
  rw [hread] at hagrees
  obtain ⟨stop', hstops⟩ := hrepeats hfault (by rw [hstop])
  obtain ⟨d'', hends, -⟩ := hagrees (Nat.zero_le _)
  rw [hstops] at hends
  cases hends

theorem read_viable (h : read tokens = .error stop) :
    stop.fault ≠ .exhausted ∧ ∃ before, Token.withoutTrivia tokens = before ++ stop.cursor.rest ∧
      (∀ s ∈ before, s.token ≠ .eof) ∧
      ∃ more program, ofTokens (before ++ more) = .ok program := by
  obtain ⟨hfault, b, before, word, hbefore, -, hderives⟩ := Reading.topLevel_viable _ _
    (by simp [Cursor.budget]) (topLevel_of_read h)
  have hwhole := hderives [] quiet_nil
  rw [List.append_nil] at hwhole
  obtain ⟨used, hused, hwritten, -⟩ := hwhole.prolong rfl
  rw [List.append_nil] at hused
  rw [← hused] at hwritten
  refine ⟨hfault, before, hbefore, fun s hs heof => ?_, word, ⟨b⟩, ofTokens_of_derives ?_⟩
  · have hs := hwritten s (List.mem_append_left _ hs)
    rw [heof] at hs
    cases hs
  · rw [Token.significant_of_isWritten hwritten]
    exact hwhole

/-- The first token that cannot be where it is: no program goes on with it, and there is one
without it. -/
structure Offends (before : List Spanned) (s : Spanned) : Prop where
  refused : ∀ more program, ofTokens (before ++ s :: more) ≠ .ok program
  completed : ∃ more program, ofTokens (before ++ more) = .ok program

/-- The error of a program that cannot be read is at the token where the reader stands, and that
is the first offending one. -/
theorem parse_error_offends {source : String} {tokens : List Spanned} {error : ParseError}
    (hscan : Token.scan source = .ok tokens) (hparse : parse source = .error error) :
    ∃ stop before s after, read tokens = .error stop ∧ stop.cursor.rest = s :: after ∧
      Token.withoutTrivia tokens = before ++ s :: after ∧
      error = stop.error ∧ error.pos = s.pos ∧ Offends before s := by
  rw [parse, hscan] at hparse
  change ofTokens tokens = _ at hparse
  obtain ⟨stop, hread, rfl⟩ : ∃ stop, read tokens = .error stop ∧ error = stop.error := by
    cases hread : read tokens with
    | ok program =>
        rw [ofTokens, hread] at hparse
        cases hparse
    | error stop =>
        rw [ofTokens, hread] at hparse
        cases hparse
        exact ⟨stop, rfl, rfl⟩
  obtain ⟨hfault, before, hbefore, heof, hcompleted⟩ := read_viable hread
  cases hrest : stop.cursor.rest with
  | nil =>
      obtain ⟨t, ht, hend⟩ := Token.exists_eof_of_scan hscan
      rw [hbefore, hrest, List.append_nil] at ht
      exact absurd hend (heof t ht)
  | cons s after =>
      rw [hrest] at hbefore
      refine ⟨stop, before, s, after, hread, hrest, hbefore, rfl, ?_, ?_, hcompleted⟩
      · rw [Stop.error, Cursor.pos, hrest]
      · exact read_refused hread hfault hrest hbefore

def chainedComparison : String :=
  "x = 1 < 2 < 3"

theorem parse_error_offends_chainedComparison :
    ∃ tokens error, Token.scan chainedComparison = .ok tokens ∧
      parse chainedComparison = .error error ∧ error.pos = ⟨1, 11⟩ ∧
      ∃ before s after, Token.withoutTrivia tokens = before ++ s :: after ∧
        s.pos = ⟨1, 11⟩ ∧ Offends before s := by
  have hscanned : (Token.scan chainedComparison).isOk = true := by decide +kernel
  have hfails : (match parse chainedComparison with
      | .error error => error.pos == ⟨1, 11⟩
      | .ok _ => false) = true := by decide +kernel
  cases hscan : Token.scan chainedComparison with
  | error error =>
      rw [hscan] at hscanned
      cases hscanned
  | ok tokens =>
      cases hparse : parse chainedComparison with
      | ok program =>
          rw [hparse] at hfails
          cases hfails
      | error error =>
          rw [hparse] at hfails
          have hpos : error.pos = ⟨1, 11⟩ := eq_of_beq hfails
          obtain ⟨stop, before, s, after, -, -, htokens, -, hs, hoffends⟩ :=
            parse_error_offends hscan hparse
          exact ⟨tokens, error, rfl, rfl, hpos, before, s, after, htokens, hs ▸ hpos, hoffends⟩

end Program
end LittleMan
