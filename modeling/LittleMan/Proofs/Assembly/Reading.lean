import LittleMan.Proofs.Word
import LittleMan.Assembly.Image
import LittleMan.Assembly.Sheet

/-!
# Sheets read back

The text of a sheet is read line by line: cut at its first `//`, split at blanks, and
each field classified.  `Text.Splits` follows a line from its end to its beginning, one
field or one blank at a time.  `FieldLine.readAll_text` says that the fields of a sheet's
text are those of its lines, provided that the labels on it are words which are neither
mnemonics nor numerals.
-/

namespace LittleMan
namespace Text

/-- A word that stays in one piece when a line is cut and split. -/
structure IsField (word : List Char) : Prop where
  ne_nil : word ≠ []
  unblank : ∀ c ∈ word, isBlank c = false
  uncut : FieldLine.code word = word

theorem fieldsFrom_append {word : List Char} (h : ∀ c ∈ word, isBlank c = false)
    (field rest : List Char) :
    fieldsFrom field (word ++ rest) = fieldsFrom (word.reverse ++ field) rest := by
  induction word generalizing field with
  | nil => rfl
  | cons c word ih =>
      obtain ⟨hc, hword⟩ := List.forall_mem_cons.1 h
      simp [fieldsFrom, hc, ih hword]

theorem code_append_blank {word : List Char} (h : FieldLine.code word = word)
    (rest : List Char) :
    FieldLine.code (word ++ ' ' :: rest) = word ++ ' ' :: FieldLine.code rest := by
  induction word with
  | nil => simp [FieldLine.code]
  | cons c word ih =>
      cases word with
      | nil => simp [FieldLine.code]
      | cons d word =>
          have hslash : ¬ (c = '/' ∧ d = '/') := by
            rintro ⟨rfl, rfl⟩
            simp [FieldLine.code] at h
          have hcut : ∀ tail, FieldLine.code (c :: d :: tail) = c :: FieldLine.code (d :: tail) := by
            intro tail
            rw [FieldLine.code]
            intro tail' hc hd
            simp_all
          rw [hcut, List.cons.injEq] at h
          rw [List.cons_append, List.cons_append, hcut, ← List.cons_append, ih h.2]
          rfl

theorem code_eq_self {word : List Char} (h : '/' ∉ word) : FieldLine.code word = word := by
  induction word with
  | nil => rfl
  | cons c word ih =>
      rw [List.mem_cons, not_or] at h
      rw [FieldLine.code, ih h.2]
      rintro rest rfl
      exact absurd rfl h.1

theorem isField_of_plain {word : List Char} (hne : word ≠ [])
    (h : ∀ c ∈ word, isBlank c = false ∧ c ≠ '/') : IsField word :=
  ⟨hne, fun c hc => (h c hc).1, code_eq_self fun hmem => (h _ hmem).2 rfl⟩

/-- The line is one line without a comment, and splits into the fields. -/
structure Splits (line : List Char) (words : List (List Char)) : Prop where
  uncut : FieldLine.code line = line
  fields : fields line = words
  unbroken : '\n' ∉ line ∧ '\r' ∉ line

namespace Splits

variable {line : List Char} {words : List (List Char)} {word : List Char}

theorem blank (h : Splits line words) : Splits (' ' :: line) words where
  uncut := by simp [FieldLine.code, h.uncut]
  fields := by
    rw [← h.fields]
    rfl
  unbroken := by simpa using h.unbroken

theorem blanks (h : Splits line words) (n : Nat) :
    Splits (List.replicate n ' ' ++ line) words := by
  induction n with
  | zero => exact h
  | succ n ih => exact ih.blank

theorem not_break (hword : IsField word) : '\n' ∉ word ∧ '\r' ∉ word := by
  constructor <;> intro hmem <;> exact absurd (hword.unblank _ hmem) (by decide)

theorem last (hword : IsField word) : Splits word [word] where
  uncut := hword.uncut
  fields := by
    have happend := fieldsFrom_append hword.unblank [] []
    simp only [List.append_nil] at happend
    simp [Text.fields, happend, fieldsFrom, hword.ne_nil]
  unbroken := not_break hword

theorem field (hword : IsField word) (h : Splits line words) :
    Splits (word ++ ' ' :: line) (word :: words) where
  uncut := by rw [code_append_blank hword.uncut, h.uncut]
  fields := by
    have hblank : isBlank ' ' = true := by decide
    rw [← h.fields, Text.fields, fieldsFrom_append hword.unblank]
    simp [fieldsFrom, hblank, hword.ne_nil, Text.fields]
  unbroken := by
    have hbreak := not_break hword
    simp [hbreak, h.unbroken]

/-- A field in a column that is padded with blanks. -/
theorem padded (hword : IsField word) (h : Splits line words) (n : Nat) :
    Splits (word ++ List.replicate n ' ' ++ ' ' :: line) (word :: words) := by
  have hpad : word ++ List.replicate n ' ' ++ ' ' :: line =
      word ++ ' ' :: (List.replicate n ' ' ++ line) := by
    rw [List.append_assoc, List.append_right_inj, List.append_cons, ← List.replicate_succ']
    rfl
  rw [hpad]
  exact field hword (h.blanks n)

end Splits
end Text

/-! ## Fields -/

namespace Opcode

theorem isField_mnemonic (op : Opcode) : Text.IsField op.mnemonic.toList := by
  refine ⟨?_, ?_, ?_⟩
  · cases op <;> decide
  · have hall : op.mnemonic.toList.all (fun c => !Text.isBlank c) = true := by
      cases op <;> decide
    simpa using hall
  · cases op <;> decide

theorem ofMnemonic?_mnemonic (op : Opcode) : ofMnemonic? op.mnemonic = some op := by
  cases op <;> decide

/-- Mnemonics have letters only. -/
theorem ofMnemonic?_eq_none {word : String} {c : Char} (hmem : c ∈ word.toList)
    (hc : c.toLower.isAlpha = false) : ofMnemonic? word = none := by
  refine List.find?_eq_none.2 fun op _ hop => ?_
  have hletters : (Text.foldCase op.mnemonic.toList).all Char.isAlpha = true := by
    cases op <;> decide
  rw [beq_iff_eq.1 hop] at hletters
  have halpha := List.all_eq_true.1 hletters c.toLower (List.mem_map_of_mem hmem)
  simp [hc] at halpha

end Opcode

namespace Field

/-- A field that is read as a label. -/
structure IsLabel (word : String) : Prop where
  isField : Text.IsField word.toList
  classify : classify word = .label word

theorem classify_mnemonic (op : Opcode) : classify op.mnemonic = .opcode op := by
  simp [classify, Opcode.ofMnemonic?_mnemonic]

end Field

namespace Word

theorem mem_text {w : Word} {c : Char} (h : c ∈ w.text.toList) : c = '-' ∨ c.isDigit = true := by
  rw [text_toList, List.mem_append] at h
  rcases h with h | h
  · split at h
    · exact .inl (List.mem_singleton.1 h)
    · cases h
  · exact .inr (Nat.isDigit_of_mem_toDigits (by decide) (by decide) h)

theorem toNat_of_isDigit {c : Char} (h : c.isDigit = true) : 48 ≤ c.toNat ∧ c.toNat ≤ 57 := by
  simp only [Char.isDigit, Bool.and_eq_true, decide_eq_true_eq] at h
  exact ⟨UInt32.le_iff_toNat_le.1 h.1, UInt32.le_iff_toNat_le.1 h.2⟩

theorem text_ne_nil (w : Word) : w.text.toList ≠ [] := by
  rw [text_toList]
  simp [Nat.toDigits_ne_nil]

theorem isBlank_of_isDigit {c : Char} (h : c.isDigit = true) : Text.isBlank c = false := by
  obtain ⟨hlow, hhigh⟩ := toNat_of_isDigit h
  simp only [Text.isBlank, Bool.or_eq_false_iff, Bool.and_eq_false_iff, decide_eq_false_iff_not,
    beq_eq_false_iff_ne]
  omega

theorem isField_text (w : Word) : Text.IsField w.text.toList := by
  refine Text.isField_of_plain w.text_ne_nil fun c hc => ?_
  rcases mem_text hc with rfl | hdigit
  · decide
  · refine ⟨isBlank_of_isDigit hdigit, ?_⟩
    rintro rfl
    exact absurd hdigit (by decide)

theorem classify_text (w : Word) : Field.classify w.text = .number w := by
  obtain ⟨c, hc⟩ := List.exists_mem_of_ne_nil _ w.text_ne_nil
  have hletter : c.toLower.isAlpha = false := by
    rcases mem_text hc with rfl | hdigit
    · decide
    · obtain ⟨hlow, hhigh⟩ := toNat_of_isDigit hdigit
      have hupper : ¬ c.isUpper = true := by
        intro h
        simp only [Char.isUpper, decide_eq_true_eq] at h
        have hle : 65 ≤ c.toNat := UInt32.le_iff_toNat_le.1 h.1
        omega
      have hlower : ¬ c.isLower = true := by
        intro h
        simp only [Char.isLower, Bool.and_eq_true, decide_eq_true_eq] at h
        have hle : 97 ≤ c.toNat := UInt32.le_iff_toNat_le.1 h.1
        omega
      have hfold : c.toLower = c := dif_neg fun h => hupper (decide_eq_true h)
      simp [hfold, Char.isAlpha, hupper, hlower]
  simp [Field.classify, Opcode.ofMnemonic?_eq_none hc hletter, parse?_text]

end Word

/-! ## Lines of a sheet -/

namespace SheetLine

/-- The labels on the line are read as labels, and a note stays on its line.  Raw text is
not looked into. -/
def Readable : SheetLine → Prop
  | .code label _ operand =>
      (∀ word, label = some word → Field.IsLabel word) ∧
        ∀ word, operand = some word → Field.IsLabel word
  | .data declaration => Field.IsLabel declaration.label
  | .raw _ => False
  | .note text => '\n' ∉ text.toList

/-- The fields that a line of the sheet is read as. -/
def fields : SheetLine → List Field
  | .code label op operand =>
      label.toList.map .label ++ .opcode op :: operand.toList.map .label
  | .data declaration => [.label declaration.label, .opcode .dat, .number declaration.initial]
  | .raw _ | .note _ => []

theorem splits_operand (op : Opcode) (operand : Option String)
    (h : ∀ word, operand = some word → Field.IsLabel word) :
    Text.Splits (op.mnemonic ++ operand.elim "" (" " ++ ·)).toList
      (op.mnemonic.toList :: operand.toList.map String.toList) := by
  cases operand with
  | none => simpa using Text.Splits.last op.isField_mnemonic
  | some word =>
      simpa using Text.Splits.field op.isField_mnemonic (.last (h word rfl).isField)

theorem splits_code {label : Option String} {op : Opcode} {operand : Option String}
    (h : (SheetLine.code label op operand).Readable) :
    Text.Splits (SheetLine.code label op operand).text.toList
      (label.toList.map String.toList ++
        op.mnemonic.toList :: operand.toList.map String.toList) := by
  have hrest := splits_operand op operand h.2
  cases label with
  | none => simpa [text, Text.padRight, labelWidth] using hrest.blank.blanks 20
  | some word =>
      have hpadded := Text.Splits.padded (h.1 word rfl).isField hrest (labelWidth - word.length)
      simpa [text, Text.padRight, String.append_assoc] using hpadded

theorem splits_data {declaration : Declaration} (h : (SheetLine.data declaration).Readable) :
    Text.Splits (SheetLine.data declaration).text.toList
      [declaration.label.toList, Opcode.dat.mnemonic.toList, declaration.initial.text.toList] := by
  have hrest := Text.Splits.field Opcode.dat.isField_mnemonic (.last declaration.initial.isField_text)
  simpa [text, Declaration.text, Opcode.mnemonic] using
    Text.Splits.field h.isField hrest

/-- A line of the sheet, without the carriage return that a line feed takes away. -/
def printed (line : SheetLine) : List Char :=
  (Text.dropReturn line.text.toList.reverse).reverse

theorem dropReturn_eq_self {line : List Char} (h : '\r' ∉ line) :
    (Text.dropReturn line.reverse).reverse = line := by
  unfold Text.dropReturn
  split
  · rename_i tail hline
    have hmem : '\r' ∈ line.reverse := by simp [hline]
    exact absurd (List.mem_reverse.1 hmem) h
  · exact List.reverse_reverse line

theorem code_printed_note (text : String) : FieldLine.code (SheetLine.note text).printed = [] := by
  have hline : (SheetLine.note text).text.toList = '/' :: '/' :: ' ' :: text.toList := by
    simp [SheetLine.text]
  unfold printed Text.dropReturn
  rw [hline]
  split
  · rename_i tail htail
    have hlast : ('/' :: '/' :: ' ' :: text.toList) = tail.reverse ++ ['\r'] := by
      simpa using congrArg List.reverse htail
    generalize tail.reverse = first at hlast ⊢
    match first with
    | [] => simp at hlast
    | [c] => simp at hlast
    | c :: d :: rest =>
        simp only [List.cons_append, List.cons.injEq] at hlast
        obtain ⟨rfl, rfl, -⟩ := hlast
        rfl
  · simp [FieldLine.code]

/-- What reading a line of the sheet gives. -/
theorem read?_printed {line : SheetLine} (h : line.Readable) (n : Nat) :
    FieldLine.read? n line.printed =
      .ok (if line.isWord then some ⟨n, line.fields⟩ else none) := by
  have hsplit : ∀ {words : List (List Char)}, Text.Splits line.text.toList words → words ≠ [] →
      words.length ≤ 3 → words.map (fun word => Field.classify (String.ofList word)) = line.fields →
      FieldLine.read? n line.printed = .ok (some ⟨n, line.fields⟩) := by
    intro words hsplits hne hlength hfields
    have hprinted : line.printed = line.text.toList := dropReturn_eq_self hsplits.unbroken.2
    simp [FieldLine.read?, hprinted, hsplits.uncut, hsplits.fields, hne, hfields,
      FieldLine.maxFields, Nat.not_lt.2 hlength]
  cases line with
  | code label op operand =>
      refine hsplit (splits_code h) (by simp) ?_ ?_
      · cases label <;> cases operand <;> simp
      · obtain ⟨hlabel, hoperand⟩ := h
        cases label <;> cases operand <;>
          simp_all [fields, Field.classify_mnemonic, Field.IsLabel.classify]
  | data declaration =>
      refine hsplit (splits_data h) (by simp) (by simp) ?_
      simp [fields, h.classify, Field.classify_mnemonic, Word.classify_text]
  | raw text => exact h.elim
  | note text => simp [FieldLine.read?, code_printed_note, Text.fields, Text.fieldsFrom, isWord]

theorem readFrom_printed {lines : List SheetLine} (h : ∀ line ∈ lines, line.Readable) (n : Nat) :
    ∃ read, FieldLine.readFrom n (lines.map printed) = .ok read ∧
      read.map FieldLine.fields = (lines.filter isWord).map fields := by
  induction lines generalizing n with
  | nil => exact ⟨[], rfl, rfl⟩
  | cons line rest ih =>
      obtain ⟨hline, hrest⟩ := List.forall_mem_cons.1 h
      obtain ⟨read, hread, hfields⟩ := ih hrest (n + 1)
      rw [List.map_cons, FieldLine.readFrom, read?_printed hline, List.filter_cons]
      cases line.isWord with
      | false => exact ⟨read, by simpa using hread, hfields⟩
      | true => exact ⟨⟨n, line.fields⟩ :: read, by simp [hread, Except.map], by simp [hfields]⟩

theorem newline_not_mem_text {line : SheetLine} (h : line.Readable) : '\n' ∉ line.text.toList := by
  cases line with
  | code label op operand => exact (splits_code h).unbroken.1
  | data declaration => exact (splits_data h).unbroken.1
  | raw text => exact h.elim
  | note text => simpa [SheetLine.text, Readable] using h

end SheetLine

/-! ## Whole sheets -/

namespace Text

theorem linesFrom_append {line : List Char} (h : '\n' ∉ line) (read rest : List Char) :
    linesFrom read (line ++ '\n' :: rest) =
      (dropReturn (line.reverse ++ read)).reverse :: linesFrom [] rest := by
  induction line generalizing read with
  | nil => rfl
  | cons c line ih =>
      rw [List.mem_cons, not_or] at h
      rw [List.cons_append, linesFrom, ih h.2]
      · simp
      · exact fun hc => h.1 hc.symm

theorem lines_flatMap {texts : List (List Char)} (h : ∀ text ∈ texts, '\n' ∉ text) :
    lines (texts.flatMap fun text => text ++ ['\n']) =
      texts.map fun text => (dropReturn text.reverse).reverse := by
  induction texts with
  | nil => rfl
  | cons text rest ih =>
      obtain ⟨htext, hrest⟩ := List.forall_mem_cons.1 h
      have hnext := ih hrest
      simp only [lines] at hnext ⊢
      simp only [List.flatMap_cons, List.append_assoc, List.cons_append, List.nil_append,
        linesFrom_append htext, List.append_nil, List.map_cons, hnext]

/-- Lines set apart by line feeds, with one more after the last. -/
theorem toList_intercalate_newline {texts : List String} (h : texts ≠ []) :
    ("\n".intercalate texts ++ "\n").toList =
      (texts.map String.toList).flatMap fun text => text ++ ['\n'] := by
  induction texts with
  | nil => exact absurd rfl h
  | cons text rest ih =>
      cases rest with
      | nil => simp
      | cons next rest =>
          have hnext := ih (by simp)
          simp only [String.toList_append, String.toList_intercalate, List.map_cons] at hnext ⊢
          rw [List.intercalate_cons_cons, List.flatMap_cons, ← hnext]
          simp

end Text

theorem FieldLine.readAll_text {sheet : Sheet} (hwaiting : sheet.waiting = none)
    (h : ∀ line ∈ sheet.lines.toList, line.Readable) :
    ∃ read, FieldLine.readAll sheet.text = .ok read ∧
      read.map FieldLine.fields =
        (sheet.lines.toList.filter SheetLine.isWord).map SheetLine.fields := by
  have hsettle : sheet.settle = sheet := by simp [Sheet.settle, hwaiting]
  by_cases hempty : sheet.lines.toList = []
  · refine ⟨[], ?_, by simp [hempty]⟩
    simp [FieldLine.readAll, Sheet.text, hsettle, hempty, Text.lines, Text.linesFrom,
      Text.dropReturn, FieldLine.readFrom, FieldLine.read?, FieldLine.code, Text.fields,
      Text.fieldsFrom]
  obtain ⟨read, hread, hfields⟩ := SheetLine.readFrom_printed h 1
  refine ⟨read, ?_, hfields⟩
  have hne : sheet.lines.toList.map SheetLine.text ≠ [] := by simpa using hempty
  have hlines : Text.lines sheet.text.toList = sheet.lines.toList.map SheetLine.printed := by
    rw [Sheet.text, hsettle, Text.toList_intercalate_newline hne, Text.lines_flatMap]
    · simp [SheetLine.printed]
    · simp only [List.mem_map, forall_exists_index, and_imp, forall_apply_eq_imp_iff₂]
      exact fun line hline => SheetLine.newline_not_mem_text (h line hline)
  rw [FieldLine.readAll, hlines, hread]

end LittleMan
