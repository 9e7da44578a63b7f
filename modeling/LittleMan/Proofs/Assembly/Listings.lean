import LittleMan.Assembly.Listing
import LittleMan.Proofs.Assembly.Assembling
import LittleMan.Proofs.Lexemes

/-!
# Listings read back

A listing is made for the eye: a word is shown as an operation with an address, as a bare
operation or as data, the columns are padded, names stand among them, and rules stand above the
rows that some branch goes to.  `Line.read?` takes one line of it apart, without the table that
the names were taken from.  What it finds in a row is the address, the mark and the word, and
the word is packed again from the mnemonic and the number in the row.

Reading the lines of a listing gives `linesOf`, which says for every word of the memory what its
lines are, and the words of these lines are the memory.  A name may be wider than its column, it
may look like a mnemonic, and it may be empty.  All that the reader needs is that no name has a
blank in it, so that the columns after it can be found.
-/

namespace LittleMan

/-! ## Words packed again -/

namespace Opcode

theorem packing?_of_ofDigit? {digit operand : Nat} {op : Opcode}
    (h : ofDigit? digit operand = some op) :
    op = .hlt ∧ digit = 0 ∨
      op.packing? = some (digit, if op.takesAddress then none else some operand) := by
  unfold ofDigit? at h
  split at h <;> cases h <;> simp [packing?, takesAddress]

/-- A word that can be taken apart is its digit and its operand put together. -/
theorem digit_of_decode {word : Word} {op : Opcode} {operand : Nat}
    (h : decode word = some (op, operand)) :
    ∃ digit, ofDigit? digit operand = some op ∧ operand < 1000 ∧
      word = Int64.ofNat (digit * 1000 + operand) := by
  unfold decode at h
  cases haddress : word.address? with
  | none => simp [haddress] at h
  | some n =>
      simp only [haddress, Option.ite_none_right_eq_some, Option.map_eq_some_iff,
        Prod.mk.injEq] at h
      obtain ⟨-, found, hfound, rfl, rfl⟩ := h
      refine ⟨n / operandLimit, hfound, Nat.mod_lt _ (by decide), ?_⟩
      rw [show (1000 : Nat) = operandLimit from rfl, Nat.div_add_mod']
      exact Word.eq_ofAddress_of_address? haddress

theorem encode_ofAddress_of_decode {word : Word} {op : Opcode} {operand : Nat}
    (h : decode word = some (op, operand)) (htakes : op.takesAddress = true) :
    op.encode (Word.ofAddress operand) = word := by
  obtain ⟨digit, hdigit, -, rfl⟩ := digit_of_decode h
  rcases packing?_of_ofDigit? hdigit with ⟨rfl, -⟩ | hpacking
  · cases htakes
  · simp [encode, hpacking, htakes, Word.ofAddress, operandLimit, Int64.ofNat_add]

/-- A word without an address is packed again as it was, except that every halt becomes zero. -/
theorem encode_of_decode_bare {word : Word} {op : Opcode} {operand : Nat}
    (h : decode word = some (op, operand)) (htakes : op.takesAddress = false)
    (hhalt : op = .hlt → word = 0) : op.encode 0 = word := by
  obtain ⟨digit, hdigit, -, rfl⟩ := digit_of_decode h
  rcases packing?_of_ofDigit? hdigit with ⟨rfl, -⟩ | hpacking
  · rw [hhalt rfl]
    rfl
  · simp [encode, hpacking, htakes, operandLimit]

end Opcode

/-! ## Columns -/

namespace Text

def firstColumn (text : List Char) : List Char :=
  text.takeWhile (· != ' ')

def pastColumn (text : List Char) : List Char :=
  (text.dropWhile (· != ' ')).dropWhile (· == ' ')

def OnlySpaces (text : List Char) : Prop :=
  ∀ c ∈ text, c = ' ' ∨ isBlank c = false

theorem OnlySpaces.unbroken {text : List Char} (h : OnlySpaces text) :
    '\n' ∉ text ∧ '\r' ∉ text := by
  constructor <;> intro hmem <;> exact absurd (h _ hmem) (by decide)

theorem onlySpaces_append {first second : List Char} :
    OnlySpaces (first ++ second) ↔ OnlySpaces first ∧ OnlySpaces second :=
  List.forall_mem_append

theorem onlySpaces_cons {c : Char} {text : List Char} :
    OnlySpaces (c :: text) ↔ (c = ' ' ∨ isBlank c = false) ∧ OnlySpaces text :=
  List.forall_mem_cons

theorem onlySpaces_spaces (n : Nat) : OnlySpaces (List.replicate n ' ') :=
  fun _ hc => .inl (List.eq_of_mem_replicate hc)

theorem onlySpaces_of_unblank {word : List Char} (h : ∀ c ∈ word, isBlank c = false) :
    OnlySpaces word :=
  fun c hc => .inr (h c hc)

theorem ne_space_of_unblank {c : Char} (h : isBlank c = false) : c ≠ ' ' := by
  rintro rfl
  exact absurd h (by decide)

theorem columns_closed {word more : List Char} (hword : ∀ c ∈ word, isBlank c = false)
    (hmore : ∀ c ∈ more.head?, c = ' ') :
    firstColumn (word ++ more) = word ∧ (word ++ more).dropWhile (· != ' ') = more := by
  refine Token.takeWhile_closed (fun c hc => ?_) (fun c hc => ?_)
  · simpa using ne_space_of_unblank (hword c hc)
  · simp [hmore c hc]

theorem columns_last {word : List Char} (hword : ∀ c ∈ word, isBlank c = false) :
    firstColumn word = word ∧ pastColumn word = [] := by
  have hend : ∀ c ∈ ([] : List Char).head?, c = ' ' := by simp
  obtain ⟨hfirst, hdrop⟩ := columns_closed hword hend
  rw [List.append_nil] at hfirst hdrop
  rw [pastColumn, hdrop]
  exact ⟨hfirst, rfl⟩

theorem padRight_toList (width : Nat) (text : String) :
    (padRight width text).toList = text.toList ++ List.replicate (width - text.length) ' ' := by
  simp [padRight]

/-- A column that is padded, however wide its text is, and what comes after it. -/
theorem columns_padded {word rest : List Char} (hword : ∀ c ∈ word, isBlank c = false)
    (hrest : ∀ c ∈ rest.head?, c ≠ ' ') (n : Nat) :
    firstColumn (word ++ List.replicate n ' ' ++ ' ' :: rest) = word ∧
      pastColumn (word ++ List.replicate n ' ' ++ ' ' :: rest) = rest := by
  have hpad : List.replicate n ' ' ++ ' ' :: rest = List.replicate (n + 1) ' ' ++ rest := by
    rw [List.append_cons, ← List.replicate_succ']
  have hspace : ∀ c ∈ (List.replicate (n + 1) ' ' ++ rest).head?, c = ' ' := by
    simp [List.replicate_succ]
  obtain ⟨hfirst, hdrop⟩ := columns_closed hword hspace
  rw [List.append_assoc, hpad, pastColumn, hdrop]
  refine ⟨hfirst, (Token.takeWhile_closed (fun c hc => ?_) (fun c hc => ?_)).2⟩
  · simpa using List.eq_of_mem_replicate hc
  · simpa using hrest c hc

/-! ## Addresses -/

theorem address_toList (n : Nat) : (address n).toList =
    List.replicate (3 - (toString n).length) '0' ++ Nat.toDigits 10 n := by
  simp [address, column, zeroPadded]

theorem isDigit_of_mem_address {n : Nat} {c : Char} (h : c ∈ (address n).toList) :
    c.isDigit = true := by
  rw [address_toList, List.mem_append] at h
  rcases h with h | h
  · rw [List.eq_of_mem_replicate h]
    rfl
  · exact Nat.isDigit_of_mem_toDigits (by decide) (by decide) h

theorem address_ne_nil (n : Nat) : (address n).toList ≠ [] := by
  rw [address_toList]
  simp [Nat.toDigits_ne_nil]

theorem address_unblank {n : Nat} {c : Char} (h : c ∈ (address n).toList) : isBlank c = false :=
  Word.isBlank_of_isDigit (isDigit_of_mem_address h)

end Text

theorem Numeral.value_zeros (n : Nat) (digits : List Char) :
    value (List.replicate n '0' ++ digits) = value digits := by
  induction n with
  | zero => rfl
  | succ n ih =>
      rw [← ih]
      rfl

theorem Numeral.natural?_address (n : Nat) : natural? (Text.address n).toList = some n := by
  rw [natural?_of_isDigit (Text.address_ne_nil n) fun _ => Text.isDigit_of_mem_address,
    Text.address_toList, value_zeros, value_toDigits]

theorem Word.parse?_address {n : Nat} (h : n < 0x8000000000000000) :
    parse? (Text.address n) = some (ofAddress n) := by
  have hread : Numeral.integer? (Text.address n).toList = some (n : Int) := by
    rw [Numeral.integer?_of_isDigit fun _ => Text.isDigit_of_mem_address,
      Numeral.natural?_address]
    rfl
  rw [parse?, hread, Option.bind_some, ofInt?_eq_some_iff]
  exact toInt_ofNat h

def Labels.Unblank (labels : Labels) : Prop :=
  ∀ entry ∈ labels.entries, ∀ c ∈ entry.1.toList, Text.isBlank c = false

instance (labels : Labels) : Decidable labels.Unblank :=
  decidable_of_iff
    (labels.entries.all (fun entry => entry.1.toList.all (fun c => !Text.isBlank c)) = true)
    (by simp [Labels.Unblank])

theorem Labels.Unblank.nameAt? {labels : Labels} (h : labels.Unblank) {address : Nat}
    {name : String} (hname : labels.nameAt? address = some name) :
    ∀ c ∈ name.toList, Text.isBlank c = false := by
  obtain ⟨entry, hfind, rfl⟩ := Option.map_eq_some_iff.1 hname
  exact h entry (List.mem_of_find?_eq_some hfind)

theorem Labels.Unblank.nameAt?_getD {labels : Labels} (h : labels.Unblank) (address : Nat) :
    ∀ c ∈ ((labels.nameAt? address).getD "").toList, Text.isBlank c = false := by
  cases hname : labels.nameAt? address with
  | none => simp
  | some name => exact h.nameAt? hname

namespace Listing

/-! ## The forms of a word -/

/-- A word is shown as data, as an operation with its address or as an operation alone. -/
theorem instructionText_cases (labels : Labels) (word : Word) :
    instructionText labels word = dataText word ∨
    (∃ op operand, Opcode.decode word = some (op, operand) ∧ op.takesAddress = true ∧
      instructionText labels word = Text.padRight 6 op.mnemonic ++ " " ++ Text.address operand ++
        (labels.nameAt? operand).elim "" ("  ; " ++ ·)) ∨
    ∃ op operand, Opcode.decode word = some (op, operand) ∧ op.takesAddress = false ∧
      (op = .hlt → word = 0) ∧ instructionText labels word = op.mnemonic := by
  cases hdecode : Opcode.decode word with
  | none => exact .inl (by simp only [instructionText, hdecode])
  | some pair =>
      obtain ⟨op, operand⟩ := pair
      cases htakes : op.takesAddress with
      | true =>
          exact .inr (.inl ⟨op, operand, rfl, htakes, by
            simp only [instructionText, hdecode, htakes, if_true]⟩)
      | false =>
          by_cases hhalt : op = .hlt ∧ word ≠ 0
          · exact .inl (by
              simp only [instructionText, hdecode, htakes, Bool.false_eq_true, if_false,
                if_pos hhalt])
          · refine .inr (.inr ⟨op, operand, rfl, htakes, fun hop => ?_, ?_⟩)
            · exact Decidable.not_not.1 fun hne => hhalt ⟨hop, hne⟩
            · simp only [instructionText, hdecode, htakes, Bool.false_eq_true, if_false,
                if_neg hhalt]

/-! ## Reading a line -/

inductive Line where
  | rule
  | row (address : Nat) (marked : Bool) (word : Word)
deriving DecidableEq, Repr

def ruleLine : List Char :=
  rule.toList.dropLast

namespace Line

def operand? (text : List Char) : Option Word :=
  if text.isEmpty then some 0 else Word.parse? (String.ofList text)

/-- The word that is packed from a mnemonic and an operand.  What comes after them is not read. -/
def word? (text : List Char) : Option Word := do
  let op ← Opcode.ofMnemonic? (String.ofList (Text.firstColumn text))
  let value ← operand? (Text.firstColumn (Text.pastColumn text))
  return op.encode value

def mark? (text : List Char) : Option Bool :=
  if text.take 3 = [' ', '►', ' '] then some true
  else if text.take 3 = [' ', ' ', ' '] then some false
  else none

def read? (line : List Char) : Option Line :=
  if line = ruleLine then some .rule
  else do
    let address ← Numeral.natural? (Text.firstColumn line)
    let rest := line.dropWhile (· != ' ')
    let marked ← mark? rest
    let word ← word? (Text.pastColumn (rest.drop 3))
    return .row address marked word

theorem read?_ruleLine : read? ruleLine = some .rule :=
  if_pos rfl

theorem read?_columns {columns : List Char} {word : Word}
    (hword : word? (Text.pastColumn columns) = some word) (address : Nat) (marked : Bool) :
    read? ((Text.address address).toList ++ ' ' :: (if marked then '►' else ' ') :: ' ' :: columns) =
      some (.row address marked word) := by
  have hmark : mark? (' ' :: (if marked then '►' else ' ') :: ' ' :: columns) = some marked := by
    cases marked <;> rfl
  have hspace : ∀ c ∈ (' ' :: (if marked then '►' else ' ') :: ' ' :: columns).head?, c = ' ' := by
    simp
  obtain ⟨hfirst, hrest⟩ := Text.columns_closed (fun _ => Text.address_unblank) hspace
  -- a rule begins with a space, and a row with a digit
  have hrule : Text.firstColumn ruleLine = [] := by decide
  have hrow : (Text.address address).toList ++
      ' ' :: (if marked then '►' else ' ') :: ' ' :: columns ≠ ruleLine := by
    intro heq
    rw [heq, hrule] at hfirst
    exact Text.address_ne_nil address hfirst.symm
  rw [read?, if_neg hrow, hfirst, hrest, Numeral.natural?_address]
  simp [hmark, hword]

theorem word?_bare (op : Opcode) : word? op.mnemonic.toList = some (op.encode 0) := by
  obtain ⟨hfirst, hpast⟩ := Text.columns_last op.isField_mnemonic.unblank
  have hnone : Text.firstColumn [] = [] := rfl
  simp [word?, hfirst, hpast, hnone, Opcode.ofMnemonic?_mnemonic, operand?]

theorem word?_padded (op : Opcode) {operand : String} {value : Word} (tail : List Char)
    (hunblank : ∀ c ∈ operand.toList, Text.isBlank c = false)
    (hvalue : Word.parse? operand = some value) (htail : ∀ c ∈ tail.head?, c = ' ') :
    word? ((Text.padRight 6 op.mnemonic ++ " " ++ operand).toList ++ tail) =
      some (op.encode value) := by
  have hne : operand.toList ≠ [] := by
    intro hnil
    simp [Word.parse?, hnil, Numeral.integer?, Numeral.natural?] at hvalue
  have hhead : ∀ c ∈ (operand.toList ++ tail).head?, c ≠ ' ' := by
    rw [List.head?_append_of_ne_nil _ hne]
    exact fun c hc => Text.ne_space_of_unblank (hunblank c (List.mem_of_mem_head? hc))
  obtain ⟨hfirst, -⟩ := Text.columns_closed hunblank htail
  obtain ⟨hop, hpast⟩ := Text.columns_padded op.isField_mnemonic.unblank hhead
    (6 - op.mnemonic.length)
  have htext : (Text.padRight 6 op.mnemonic ++ " " ++ operand).toList ++ tail =
      op.mnemonic.toList ++ List.replicate (6 - op.mnemonic.length) ' ' ++
        ' ' :: (operand.toList ++ tail) := by
    simp [Text.padRight_toList]
  rw [htext, word?, hop, hpast, hfirst]
  simp [Opcode.ofMnemonic?_mnemonic, operand?, hne, hvalue]

theorem word?_instructionText (labels : Labels) (word : Word) :
    word? (instructionText labels word).toList = some word := by
  rcases instructionText_cases labels word with htext | ⟨op, operand, hdecode, htakes, htext⟩ |
    ⟨op, operand, hdecode, htakes, hhalt, htext⟩
  · have hread := word?_padded .dat [] word.isField_text.unblank word.parse?_text (by simp)
    rw [List.append_nil] at hread
    rw [htext]
    exact hread
  · obtain ⟨-, -, hlt, -⟩ := Opcode.digit_of_decode hdecode
    have hvalue := Word.parse?_address (n := operand) (by omega)
    have htail : ∀ c ∈ ((labels.nameAt? operand).elim "" ("  ; " ++ ·)).toList.head?, c = ' ' := by
      cases labels.nameAt? operand <;> simp
    rw [htext, String.toList_append, word?_padded op _ (fun _ => Text.address_unblank) hvalue htail,
      Opcode.encode_ofAddress_of_decode hdecode htakes]
  · rw [htext, word?_bare, Opcode.encode_of_decode_bare hdecode htakes hhalt]

theorem head_ne_space_of_word? {text : List Char} {word : Word} (h : word? text = some word) :
    ∀ c ∈ text.head?, c ≠ ' ' := by
  rintro c hc rfl
  have hempty : Text.firstColumn text = [] := by
    cases text with
    | nil => rfl
    | cons d rest =>
        cases hc
        rfl
  have hnone : Opcode.ofMnemonic? (String.ofList []) = none := by decide
  simp [word?, hempty, hnone] at h

end Line

/-! ## Rows -/

variable {labels : Labels}

def rowLine (labels : Labels) (address : Nat) (marked : Bool) (word : Word) : List Char :=
  (Text.address address).toList ++ ' ' :: (if marked then '►' else ' ') :: ' ' ::
    ((Text.padRight 16 ((labels.nameAt? address).getD "")).toList ++
      ' ' :: (instructionText labels word).toList)

def linesAt (labels : Labels) (address : Nat) (marked : Bool) (word : Word) : List (List Char) :=
  if marked then [ruleLine, rowLine labels address true word]
  else [rowLine labels address false word]

theorem row_toList (targets : List Nat) (labels : Labels) (address : Nat) (word : Word) :
    (row targets labels address word).toList =
      (linesAt labels address (targets.contains address) word).flatMap (· ++ ['\n']) := by
  have hrule : rule.toList = ruleLine ++ ['\n'] := by decide
  unfold row linesAt
  cases targets.contains address <;> simp [rowLine, hrule]

def allLines (targets : List Nat) (labels : Labels) (entries : List (Word × Nat)) :
    List (List Char) :=
  entries.flatMap fun (word, address) => linesAt labels address (targets.contains address) word

theorem rowsFrom_toList (targets : List Nat) (labels : Labels) (address : Nat)
    (words : List Word) :
    (rowsFrom targets labels address words).flatMap String.toList =
      (allLines targets labels (words.zipIdx address)).flatMap (· ++ ['\n']) := by
  induction words generalizing address with
  | nil => rfl
  | cons word words ih =>
      rw [rowsFrom, List.flatMap_cons, ih, row_toList, List.zipIdx_cons, allLines, allLines,
        List.flatMap_cons, List.flatMap_append]

theorem onlySpaces_instructionText (h : labels.Unblank) (word : Word) :
    Text.OnlySpaces (instructionText labels word).toList := by
  have hmnemonic : ∀ op : Opcode, Text.OnlySpaces op.mnemonic.toList := fun op =>
    Text.onlySpaces_of_unblank op.isField_mnemonic.unblank
  rcases instructionText_cases labels word with htext | ⟨op, operand, -, -, htext⟩ |
    ⟨op, -, -, -, -, htext⟩
  · have hword := Text.onlySpaces_of_unblank word.isField_text.unblank
    simp [htext, dataText, Text.padRight_toList, Text.onlySpaces_append, Text.onlySpaces_cons,
      Text.onlySpaces_spaces, hmnemonic, hword]
  · have haddress : Text.OnlySpaces (Text.address operand).toList :=
      Text.onlySpaces_of_unblank fun _ => Text.address_unblank
    have hname : Text.OnlySpaces ((labels.nameAt? operand).elim "" ("  ; " ++ ·)).toList := by
      cases hfound : labels.nameAt? operand with
      | none => exact fun c hc => by simp at hc
      | some name =>
          have hname := Text.onlySpaces_of_unblank (h.nameAt? hfound)
          have hsemicolon : Text.isBlank ';' = false := by decide
          simp [Text.onlySpaces_cons, hsemicolon, hname]
    simp [htext, Text.padRight_toList, Text.onlySpaces_append, Text.onlySpaces_cons,
      Text.onlySpaces_spaces, hmnemonic, haddress, hname]
  · rw [htext]
    exact hmnemonic op

theorem onlySpaces_rowLine (h : labels.Unblank) (address : Nat) (marked : Bool) (word : Word) :
    Text.OnlySpaces (rowLine labels address marked word) := by
  have haddress : Text.OnlySpaces (Text.address address).toList :=
    Text.onlySpaces_of_unblank fun _ => Text.address_unblank
  have hname := Text.onlySpaces_of_unblank (h.nameAt?_getD address)
  have hmark : Text.isBlank '►' = false := by decide
  cases marked <;>
    simp [rowLine, Text.padRight_toList, Text.onlySpaces_append, Text.onlySpaces_cons,
      Text.onlySpaces_spaces, haddress, hname, hmark, onlySpaces_instructionText h word]

theorem unbroken_linesAt (h : labels.Unblank) (address : Nat) (marked : Bool) (word : Word) :
    ∀ line ∈ linesAt labels address marked word, '\n' ∉ line ∧ '\r' ∉ line := by
  have hrule : '\n' ∉ ruleLine ∧ '\r' ∉ ruleLine := by decide +kernel
  have hrow := fun marked => (onlySpaces_rowLine h address marked word).unbroken
  cases marked with
  | true => exact List.forall_mem_cons.2 ⟨hrule, List.forall_mem_singleton.2 (hrow true)⟩
  | false => exact List.forall_mem_singleton.2 (hrow false)

/-- A row is read as its address, its mark and its word. -/
theorem Line.read?_rowLine (h : labels.Unblank) (address : Nat) (marked : Bool) (word : Word) :
    read? (rowLine labels address marked word) = some (.row address marked word) := by
  have hword := word?_instructionText labels word
  obtain ⟨-, hpast⟩ := Text.columns_padded (h.nameAt?_getD address) (head_ne_space_of_word? hword)
    (16 - ((labels.nameAt? address).getD "").length)
  apply read?_columns
  rw [Text.padRight_toList, hpast, hword]

theorem read?_linesAt (h : labels.Unblank) (address : Nat) (marked : Bool) (word : Word) :
    (linesAt labels address marked word).map Line.read? =
      (if marked then [.rule, .row address true word] else [.row address false word]).map some := by
  cases marked with
  | true =>
      change [Line.read? ruleLine, Line.read? (rowLine labels address true word)] = _
      rw [Line.read?_ruleLine, Line.read?_rowLine h]
      rfl
  | false =>
      change [Line.read? (rowLine labels address false word)] = _
      rw [Line.read?_rowLine h]
      rfl

/-! ## Whole listings -/

def Targeted (memory : List Word) (address : Nat) : Prop :=
  ∃ word ∈ memory, ∃ op : Opcode, Opcode.decode word = some (op, address) ∧ op.isBranch = true

theorem mem_branchTargets {memory : List Word} {address : Nat} :
    address ∈ branchTargets memory ↔ Targeted memory address := by
  rw [branchTargets, List.mem_filterMap]
  refine exists_congr fun word => and_congr_right fun _ => ?_
  cases hdecode : Opcode.decode word with
  | none => simp
  | some pair =>
      obtain ⟨op, operand⟩ := pair
      cases hbranch : op.isBranch <;> simp [hbranch]

instance (memory : List Word) (address : Nat) : Decidable (Targeted memory address) :=
  decidable_of_iff (address ∈ branchTargets memory) mem_branchTargets

/-- The lines of a memory, in the order of the addresses: a row for each word, with a mark in it
and a rule above it if some branch goes to its address. -/
def linesOf (memory : List Word) : List Line :=
  memory.zipIdx.flatMap fun (word, address) =>
    if Targeted memory address then [.rule, .row address true word]
    else [.row address false word]

def Line.word : Line → Option Word
  | .rule => none
  | .row _ _ word => some word

theorem words_linesOf (memory : List Word) : (linesOf memory).filterMap Line.word = memory := by
  have hone : ∀ entry : Word × Nat, (if Targeted memory entry.2 then
      [.rule, .row entry.2 true entry.1] else [.row entry.2 false entry.1]).filterMap Line.word =
        [entry.1] := by
    intro entry
    split <;> rfl
  rw [linesOf, List.filterMap_flatMap]
  simp only [hone]
  rw [← List.map_eq_flatMap, List.zipIdx_map_fst]

theorem lines_ofMemory (h : labels.Unblank) (memory : List Word) :
    Text.lines (ofMemory memory labels).toList =
      allLines (branchTargets memory) labels memory.zipIdx := by
  have hunbroken : ∀ line ∈ allLines (branchTargets memory) labels memory.zipIdx,
      '\n' ∉ line ∧ '\r' ∉ line :=
    List.forall_mem_flatMap.2 fun _ _ => unbroken_linesAt h _ _ _
  rw [ofMemory, String.toList_join, rowsFrom_toList,
    Text.lines_flatMap fun line hline => (hunbroken line hline).1]
  refine (List.map_congr_left fun line hline => ?_).trans (List.map_id _)
  exact SheetLine.dropReturn_eq_self (hunbroken line hline).2

/-- Reading the lines of a listing gives the lines of the memory, with nothing else between
them. -/
theorem read?_lines (h : labels.Unblank) (memory : List Word) :
    (Text.lines (ofMemory memory labels).toList).map Line.read? = (linesOf memory).map some := by
  rw [lines_ofMemory h, allLines, linesOf, List.map_flatMap, List.map_flatMap]
  simp only [read?_linesAt h, List.contains_iff_mem, mem_branchTargets]

/-- A listing loses nothing.  Two memories with the same listing are the same, and a listing has
one row for each word, in the order of the addresses, which has a mark in it and a rule above it
exactly if some branch of the memory goes to its address. -/
theorem ofMemory_lossless (h : labels.Unblank) :
    (∀ first second : List Word, ofMemory first labels = ofMemory second labels → first = second) ∧
    ∀ memory : List Word, (Text.lines (ofMemory memory labels).toList).map Line.read? =
      (linesOf memory).map some := by
  refine ⟨fun first second heq => ?_, read?_lines h⟩
  have hlines : (linesOf first).map some = (linesOf second).map some := by
    rw [← read?_lines h, heq, read?_lines h]
  rw [← words_linesOf first, List.map_injective_iff.2 (Option.some_injective _) hlines,
    words_linesOf]

/-- Names that do not make it easy: an empty one, two mnemonics, one that is wider than its column
and a mark. -/
def wayward : Labels where
  entries := [("", 0), ("DAT", 7), ("LDA", 1), ("wider_than_its_column", 4), ("►", 5)]
  sorted := by decide +kernel

/-- The words are a branch to the last row, a small number, the least word, an extended operation,
a sum of a named cell, a halt, a branch out of the memory, and a word that is no instruction. -/
theorem ofMemory_lossless_wayward :
    wayward.Unblank ∧
    (∀ memory, ofMemory memory wayward =
        ofMemory [6007, 7, -0x8000000000000000, 4003, 1004, 0, 8999, 4006] wayward →
      memory = [6007, 7, -0x8000000000000000, 4003, 1004, 0, 8999, 4006]) ∧
    (Text.lines (ofMemory [6007, 7, -0x8000000000000000, 4003, 1004, 0, 8999, 4006]
        wayward).toList).map Line.read? =
      [some (.row 0 false 6007), some (.row 1 false 7), some (.row 2 false (-0x8000000000000000)),
        some (.row 3 false 4003), some (.row 4 false 1004), some (.row 5 false 0),
        some (.row 6 false 8999), some .rule, some (.row 7 true 4006)] := by
  have hnames : wayward.Unblank := by decide +kernel
  obtain ⟨hinjective, hlines⟩ := ofMemory_lossless hnames
  exact ⟨hnames, fun memory => hinjective memory _, (hlines _).trans (by decide +kernel)⟩

end Listing
end LittleMan
