import LittleMan.Proofs.Lexemes

/-!
# The positions of tokens

A text that is read falls into tiles, one for each token: a gap and after it the lexeme of the
token.  The last tile is that of the end, whose lexeme is empty.  `Tile.Covers` says that the
tiles make up the text and that every token has the position of the first character of its
lexeme.  A position is what one counts in the text in front of it, the lines and the characters
of the last line, so that no trace of how the reader keeps count is left in the statement.

The reader takes up in the middle of a text, with the position that it has come to.  The
induction is therefore about the rest of a text after some text that has been read.
-/

namespace LittleMan

namespace Pos

/-- The position of an offset: one more than the line feeds before it, and one more than the
characters since the last of them. -/
def ofOffset (text : List Char) (offset : Nat) : Pos where
  line := 1 + (text.take offset).count '\n'
  col := 1 + ((text.take offset).reverse.takeWhile (· != '\n')).length

@[simp] theorem afterAll_append (pos : Pos) (first second : List Char) :
    pos.afterAll (first ++ second) = (pos.afterAll first).afterAll second :=
  List.foldl_append

theorem afterAll_start (before more : List Char) :
    start.afterAll before = ofOffset (before ++ more) before.length := by
  rw [ofOffset, List.take_left]
  induction before using List.reverseRecOn with
  | nil => rfl
  | append_singleton before c ih =>
      rw [afterAll_append, ih, List.count_append, List.reverse_append]
      by_cases hbreak : c = '\n'
      · simp [hbreak, afterAll, after, Nat.add_assoc]
      · simp [hbreak, afterAll, after, Nat.add_assoc]

end Pos

structure Tile where
  gap : List Char
  lexeme : List Char
deriving DecidableEq, Repr

namespace Tile

open Token (Spelled Scanning isGap)

def text (tile : Tile) : List Char :=
  tile.gap ++ tile.lexeme

def starts (offset : Nat) : List Tile → List Nat
  | [] => []
  | tile :: rest => (offset + tile.gap.length) :: starts (offset + tile.text.length) rest

/-- Tiles that make up the text after `before`, with the tokens of their lexemes.  The lexemes
start at rising offsets, the last of them at the end of the text, and the tokens have the
positions of these offsets. -/
structure CoversAfter (before text : List Char) (tokens : List Spanned) (tiles : List Tile) :
    Prop where
  whole : text = tiles.flatMap Tile.text
  gaps : ∀ tile ∈ tiles, ∀ c ∈ tile.gap, isGap c = true
  lexemes : List.Forall₂ (fun s tile => Spelled s.token tile.lexeme) tokens tiles
  rising : (starts before.length tiles).Pairwise (· < ·)
  ends : (starts before.length tiles).getLast? = some (before ++ text).length
  eof : ∃ others pos, tokens = others ++ [{ token := .eof, pos }] ∧ ∀ s ∈ others, s.token ≠ .eof
  positions : tokens.map Spanned.pos =
    (starts before.length tiles).map (Pos.ofOffset (before ++ text))

abbrev Covers (text : List Char) (tokens : List Spanned) (tiles : List Tile) : Prop :=
  CoversAfter [] text tokens tiles

theorem le_of_mem_starts {offset start : Nat} {tiles : List Tile}
    (h : start ∈ starts offset tiles) : offset ≤ start := by
  induction tiles generalizing offset with
  | nil => cases h
  | cons tile rest ih =>
      rcases List.mem_cons.1 h with rfl | h
      · exact Nat.le_add_right _ _
      · exact (Nat.le_add_right _ _).trans (ih h)

theorem covers_done (before : List Char) {gap : List Char} (hgaps : ∀ c ∈ gap, isGap c = true) :
    CoversAfter before gap [{ token := .eof, pos := (Pos.start.afterAll before).afterAll gap }]
      [⟨gap, []⟩] where
  whole := by simp [text]
  gaps := by simpa using hgaps
  lexemes := .cons .eof .nil
  rising := List.pairwise_singleton _ _
  ends := by simp [starts]
  eof := ⟨[], _, rfl, by simp⟩
  positions := by
    have hpos := Pos.afterAll_start (before ++ gap) []
    rw [Pos.afterAll_append, List.append_nil, List.length_append] at hpos
    simp [starts, hpos]

theorem CoversAfter.cons {before gap word more : List Char} {t : Token} {tokens : List Spanned}
    {tiles : List Tile} (hgaps : ∀ c ∈ gap, isGap c = true) (hne : word ≠ [])
    (hspelled : Spelled t word) (h : CoversAfter (before ++ gap ++ word) more tokens tiles) :
    CoversAfter before (gap ++ (word ++ more))
      ({ token := t, pos := (Pos.start.afterAll before).afterAll gap } :: tokens)
      (⟨gap, word⟩ :: tiles) := by
  have hlength : (before ++ gap ++ word).length =
      before.length + (Tile.mk gap word).text.length := by
    simp [text]
  have htext : before ++ gap ++ word ++ more = before ++ (gap ++ (word ++ more)) := by simp
  obtain ⟨hwhole, htileGaps, hlexemes, hrising, hends, heof, hpositions⟩ := h
  rw [hlength] at hrising hends hpositions
  rw [htext] at hends hpositions
  refine ⟨?_, ?_, .cons hspelled hlexemes, ?_, ?_, ?_, ?_⟩
  · rw [List.flatMap_cons, ← hwhole]
    simp [text]
  · exact List.forall_mem_cons.2 ⟨hgaps, htileGaps⟩
  · refine List.pairwise_cons.2 ⟨fun start hstart => ?_, hrising⟩
    have hle := le_of_mem_starts hstart
    have hword := List.length_pos_iff.2 hne
    simp only [text, List.length_append] at hle ⊢
    omega
  · rw [starts, List.getLast?_cons, hends]
    rfl
  · obtain ⟨others, pos, rfl, hothers⟩ := heof
    refine ⟨_ :: others, pos, rfl, List.forall_mem_cons.2 ⟨?_, hothers⟩⟩
    rintro rfl
    exact hne hspelled.eq_nil_of_eof
  · rw [starts, List.map_cons, List.map_cons, hpositions, ← Pos.afterAll_append,
      Pos.afterAll_start _ (word ++ more), List.length_append, List.append_assoc]

end Tile

namespace Token

/-- A lexeme that cannot be read, and the offset that its fault is reported at. -/
structure FaultyAt (text : List Char) (error : LexError) (offset : Nat) : Prop where
  within : offset ≤ text.length
  pos : error.pos = Pos.ofOffset text offset
  unread : ∃ before c rest distance, text = before ++ c :: rest ∧
    lexeme c rest = .error (error.cause, distance) ∧ offset = before.length + distance

def Placed (before text : List Char) : Except LexError (List Spanned) → Prop
  | .ok tokens => ∃ tiles, Tile.CoversAfter before text tokens tiles
  | .error error => ∃ offset, FaultyAt (before ++ text) error offset

theorem faultyAt_of_unread (before : List Char) {gap rest : List Char} {c : Char}
    {cause : LexFault} {distance : Nat} (h : lexeme c rest = .error (cause, distance)) :
    FaultyAt (before ++ (gap ++ c :: rest))
      { cause
        pos := ((Pos.start.afterAll before).afterAll gap).afterAll ((c :: rest).take distance) }
      ((before ++ gap).length + distance) := by
  have hle := lexeme_error h
  have htake : ((c :: rest).take distance).length = distance := List.length_take_of_le hle
  have hsplit : before ++ (gap ++ c :: rest) =
      before ++ gap ++ (c :: rest).take distance ++ (c :: rest).drop distance := by
    simp [List.append_assoc]
  refine ⟨?_, ?_, before ++ gap, c, rest, distance, by simp, h, rfl⟩
  · calc (before ++ gap).length + distance
        ≤ (before ++ gap).length + (c :: rest).length := Nat.add_le_add_left hle _
      _ = (before ++ (gap ++ c :: rest)).length := by
          rw [← List.length_append, List.append_assoc]
  · have hpos := Pos.afterAll_start (before ++ gap ++ (c :: rest).take distance)
      ((c :: rest).drop distance)
    rw [← hsplit, List.length_append, htake] at hpos
    simpa using hpos

theorem scanFrom_placed (before text : List Char) :
    Placed before text (scanFrom 0 (Pos.start.afterAll before) text) := by
  have hscanning := scanFrom_scanning (Pos.start.afterAll before) text
  generalize scanFrom 0 (Pos.start.afterAll before) text = result at hscanning
  cases hscanning with
  | done hgaps => exact ⟨_, Tile.covers_done before hgaps⟩
  | fault _ hunread => exact ⟨_, faultyAt_of_unread before hunread⟩
  | @lexeme gap word more t hgaps hne hspelled =>
      have hmore := scanFrom_placed (before ++ gap ++ word) more
      have hassoc : before ++ gap ++ word ++ more = before ++ (gap ++ (word ++ more)) := by simp
      rw [Pos.afterAll_append, Pos.afterAll_append] at hmore
      cases hresult :
        scanFrom 0 (((Pos.start.afterAll before).afterAll gap).afterAll word) more with
      | ok tokens =>
          rw [hresult] at hmore
          obtain ⟨tiles, hcovers⟩ := hmore
          exact ⟨_, hcovers.cons hgaps hne hspelled⟩
      | error error =>
          rw [hresult] at hmore
          obtain ⟨offset, hfaulty⟩ := hmore
          exact ⟨offset, hassoc ▸ hfaulty⟩
termination_by text.length
decreasing_by
  have hword := List.length_pos_iff.2 hne
  simp only [List.length_append]
  omega

/-- The tokens of a text have the positions of their lexemes, which make up the text with the
gaps between them.  A text that cannot be read has a lexeme that cannot, and the fault is
reported at an offset in the text. -/
theorem scan_positions (source : String) :
    match scan source with
    | .ok tokens => ∃ tiles, Tile.Covers source.toList tokens tiles
    | .error error => ∃ offset, FaultyAt source.toList error offset := by
  have hplaced := scanFrom_placed [] source.toList
  change Placed [] source.toList (scan source) at hplaced
  cases hscan : scan source with
  | ok tokens =>
      rw [hscan] at hplaced
      exact hplaced
  | error error =>
      rw [hscan] at hplaced
      exact hplaced

end Token
end LittleMan
