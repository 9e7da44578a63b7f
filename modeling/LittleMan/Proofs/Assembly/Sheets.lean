import LittleMan.Journal
import LittleMan.Proofs.Cells

/-!
# Sheets and what is read from them

What is written on a sheet is a row of strokes: labels, orders and data.  A label belongs to
the order that comes next, and has a `NOP` of its own if another label or the end comes
first; `Stroke.instructions` says so by looking at the strokes that follow.  The sheet looks
back instead, at a label that waits.  `Sheet.reading` is what a sheet will be read as if more
strokes come, and no stroke changes it: it only moves from those to come to those written.

A compiled program ends its code with `HLT` or with the return of a function, so no label
waits when its data is written, and the words counted on the sheet are those of the image.
-/

namespace LittleMan

/-! ## Names -/

/-- A word that can stand for a label: it has characters, but no blank and no `//`, and it is
neither a mnemonic nor a numeral in range. -/
structure Field.IsName (word : String) : Prop where
  ne_empty : word ≠ ""
  unblank : ∀ c ∈ word.toList, Text.isBlank c = false
  uncut : ¬ ['/', '/'] <:+: word.toList
  noMnemonic : Opcode.ofMnemonic? word = none
  noNumeral : Word.parse? word = none

theorem Field.isName_iff {word : String} : IsName word ↔
    word ≠ "" ∧ word.toList.all (fun c => !Text.isBlank c) = true ∧
      ¬ ['/', '/'] <:+: word.toList ∧ Opcode.ofMnemonic? word = none ∧ Word.parse? word = none := by
  simp only [List.all_eq_true, Bool.not_eq_true']
  exact ⟨fun h => ⟨h.ne_empty, h.unblank, h.uncut, h.noMnemonic, h.noNumeral⟩,
    fun ⟨hne, hunblank, huncut, hmnemonic, hnumeral⟩ =>
      ⟨hne, hunblank, huncut, hmnemonic, hnumeral⟩⟩

-- Blanks are looked for along the word: the instance for `∀ c` would go through all characters.
instance (word : String) : Decidable (Field.IsName word) :=
  decidable_of_iff _ Field.isName_iff.symm

theorem Text.code_eq_self_of_not_infix {word : List Char} (h : ¬ ['/', '/'] <:+: word) :
    FieldLine.code word = word := by
  induction word with
  | nil => rfl
  | cons c word ih =>
      rw [FieldLine.code, ih fun hslashes => h (hslashes.trans (List.suffix_cons c word).isInfix)]
      rintro rest rfl rfl
      exact h ⟨[], rest, rfl⟩

theorem Field.IsName.isLabel {word : String} (h : IsName word) : IsLabel word where
  isField := ⟨by simpa using h.ne_empty, h.unblank, Text.code_eq_self_of_not_infix h.uncut⟩
  classify := by simp [Field.classify, h.noMnemonic, h.noNumeral]

/-! ## Calls and strokes -/

/-- What can be asked of a sheet.  Raw lines are the lines of data. -/
inductive SheetCall where
  | label (name : String)
  | anchor (name : String)
  | op (op : Opcode)
  | opTo (op : Opcode) (operand : String)
  | binary (a : String) (op : Opcode) (b dest : String)
  | copy (source dest : String)
  | note (text : String)
  | raw (declaration : Declaration)
deriving DecidableEq, Repr

inductive Stroke where
  | label (name : String)
  | order (op : Opcode) (operand : Option String)
  | data (declaration : Declaration)
deriving DecidableEq, Repr

namespace Stroke

/-- The instructions that strokes stand for, each with its label, operation and operand. -/
def instructions : List Stroke → List (Option String × Opcode × Operand)
  | [] => []
  | .label name :: .order op operand :: rest =>
      (some name, op, operand.elim .none .label) :: instructions rest
  | .label name :: rest => (some name, .nop, .none) :: instructions rest
  | .order op operand :: rest => (none, op, operand.elim .none .label) :: instructions rest
  | .data declaration :: rest =>
      (some declaration.label, .dat, .value declaration.initial) :: instructions rest

def label? : Stroke → Option String
  | .label name => some name
  | .order _ _ => none
  | .data declaration => some declaration.label

/-- No label is lost, and none is there twice. -/
theorem labels_instructions (strokes : List Stroke) :
    (instructions strokes).filterMap Prod.fst = strokes.filterMap label? := by
  fun_induction instructions strokes with
  | case1 => rfl
  | case2 name op operand rest ih => simp [label?, ih, List.filterMap_cons]
  | case3 name rest _ ih => simp [label?, ih]
  | case4 op operand rest ih => simp [label?, ih, List.filterMap_cons]
  | case5 declaration rest ih => simp [label?, ih]

end Stroke

namespace SheetCall

def strokes : SheetCall → List Stroke
  | .label name => [.label name]
  | .anchor name => [.label name, .order .nop none]
  | .op code => [.order code none]
  | .opTo code operand => [.order code (some operand)]
  | .binary a code b dest =>
      [.order .lda (some a), .order code (some b), .order .sta (some dest)]
  | .copy source dest => [.order .lda (some source), .order .sta (some dest)]
  | .note _ => []
  | .raw declaration => [.data declaration]

def label? : SheetCall → Option String
  | .label name | .anchor name => some name
  | .raw declaration => some declaration.label
  | _ => none

def isRaw : SheetCall → Bool
  | .raw _ => true
  | _ => false

/-- Labels and operands are names, operations have an operand if they take an address, and a
note stays on its line. -/
def Proper : SheetCall → Prop
  | .label name | .anchor name => Field.IsName name
  | .op code => code.takesAddress = false
  | .opTo code operand => code.takesAddress = true ∧ Field.IsName operand
  | .binary a code b dest =>
      code.takesAddress = true ∧ Field.IsName a ∧ Field.IsName b ∧ Field.IsName dest
  | .copy source dest => Field.IsName source ∧ Field.IsName dest
  | .note text => '\n' ∉ text.toList
  | .raw declaration => Field.IsName declaration.label

instance decidableProper : (call : SheetCall) → Decidable call.Proper
  | .label name | .anchor name => inferInstanceAs (Decidable (Field.IsName name))
  | .op code => inferInstanceAs (Decidable (code.takesAddress = false))
  | .opTo _ _ | .copy _ _ => inferInstanceAs (Decidable (_ ∧ _))
  | .binary _ _ _ _ => inferInstanceAs (Decidable (_ ∧ _ ∧ _ ∧ _))
  | .note text => inferInstanceAs (Decidable ('\n' ∉ text.toList))
  | .raw declaration => inferInstanceAs (Decidable (Field.IsName declaration.label))

theorem labels_strokes (calls : List SheetCall) :
    (calls.flatMap strokes).filterMap Stroke.label? = calls.filterMap label? := by
  induction calls with
  | nil => rfl
  | cons call calls ih =>
      rw [List.flatMap_cons, List.filterMap_append, ih, List.filterMap_cons]
      cases call <;> rfl

end SheetCall

namespace Sheet

def serve (sheet : Sheet) : SheetCall → Sheet
  | .label name => sheet.label name
  | .anchor name => sheet.anchor name
  | .op code => sheet.op code
  | .opTo code operand => sheet.opTo code operand
  | .binary a code b dest => sheet.binary a code b dest
  | .copy source dest => sheet.copy source dest
  | .note text => sheet.note text
  | .raw declaration => sheet.raw declaration.text

def serveAll (sheet : Sheet) (calls : List SheetCall) : Sheet :=
  calls.foldl serve sheet

/-- Every call is proper, and data is written only while no label waits. -/
def Admits (sheet : Sheet) : List SheetCall → Prop
  | [] => True
  | call :: rest =>
      call.Proper ∧ (call.isRaw = true → sheet.waiting = none) ∧ (sheet.serve call).Admits rest

instance decidableAdmits (sheet : Sheet) : (calls : List SheetCall) → Decidable (sheet.Admits calls)
  | [] => .isTrue trivial
  | call :: rest =>
      have := decidableAdmits (sheet.serve call) rest
      inferInstanceAs (Decidable (_ ∧ _ ∧ _))

variable {sheet : Sheet}

/-! ## What a sheet is read as -/

/-- The instructions on a sheet and those of the strokes to come, to the first of which a
label may wait to be put. -/
def reading (sheet : Sheet) (rest : List Stroke) : List (Option String × Opcode × Operand) :=
  sheet.words.map SheetLine.parts ++
    Stroke.instructions (sheet.waiting.toList.map .label ++ rest)

theorem words_push (sheet : Sheet) {line : SheetLine} (h : line.isWord = true) :
    (sheet.push line).words = sheet.words ++ [line] := by
  simp [words, push, h]

theorem size_eq_length (sheet : Sheet) : sheet.size = sheet.words.length :=
  sheet.counted.trans List.countP_eq_length_filter

theorem settle_waiting (sheet : Sheet) : sheet.settle.waiting = none := by
  unfold settle
  cases hwaiting : sheet.waiting <;> simp [hwaiting]

theorem settle_settle (sheet : Sheet) : sheet.settle.settle = sheet.settle := by
  rw [settle, settle_waiting]

theorem settle_words (sheet : Sheet) : sheet.settle.words =
    sheet.words ++ sheet.waiting.toList.map fun name => .code (some name) .nop none := by
  unfold settle
  cases sheet.waiting with
  | none => simp
  | some name => exact sheet.words_push rfl

theorem reading_nil (sheet : Sheet) :
    sheet.reading [] = sheet.settle.words.map SheetLine.parts := by
  rw [reading, settle_words, List.map_append]
  cases sheet.waiting <;> rfl

theorem reading_label (sheet : Sheet) (name : String) (rest : List Stroke) :
    (sheet.label name).reading rest = sheet.reading (.label name :: rest) := by
  have hwords : (sheet.label name).words = sheet.settle.words := rfl
  rw [reading, reading, hwords, settle_words]
  cases sheet.waiting <;> simp [label, Stroke.instructions, SheetLine.parts]

theorem reading_write (sheet : Sheet) (op : Opcode) (operand : Option String) (rest : List Stroke) :
    (sheet.write op operand).reading rest = sheet.reading (.order op operand :: rest) := by
  have hwords : (sheet.write op operand).words = sheet.words ++ [.code sheet.waiting op operand] :=
    sheet.words_push rfl
  rw [reading, reading, hwords]
  cases sheet.waiting <;> simp [write, Stroke.instructions, SheetLine.parts]

theorem reading_declare (h : sheet.waiting = none) (declaration : Declaration)
    (rest : List Stroke) :
    (sheet.declare declaration).reading rest = sheet.reading (.data declaration :: rest) := by
  have hwords : (sheet.declare declaration).words = sheet.words ++ [.data declaration] :=
    sheet.words_push rfl
  rw [reading, reading, hwords]
  simp [declare, push, h, Stroke.instructions, SheetLine.parts]

theorem reading_note (sheet : Sheet) (text : String) (rest : List Stroke) :
    (sheet.note text).reading rest = sheet.reading rest := by
  unfold note
  split
  · simp [reading, words, push, SheetLine.isWord]
  · rfl

/-! ## Data in place of raw lines -/

/-- Two sheets with the same text, line by line. -/
structure Alike (a b : Sheet) : Prop where
  lines : a.lines.toList.map (fun line => (line.text, line.isWord)) =
    b.lines.toList.map fun line => (line.text, line.isWord)
  waiting : a.waiting = b.waiting
  takesNotes : a.takesNotes = b.takesNotes

namespace Alike

variable {a b : Sheet}

theorem push (h : Alike a b) {line line' : SheetLine} (htext : line.text = line'.text)
    (hword : line.isWord = line'.isWord) : Alike (a.push line) (b.push line') :=
  ⟨by simp [Sheet.push, h.lines, htext, hword], h.waiting, h.takesNotes⟩

theorem write (h : Alike a b) (op : Opcode) (operand : Option String) :
    Alike (a.write op operand) (b.write op operand) :=
  ⟨by simp [Sheet.write, Sheet.push, h.lines, h.waiting], rfl, h.takesNotes⟩

theorem settle (h : Alike a b) : Alike a.settle b.settle := by
  unfold Sheet.settle
  rw [← h.waiting]
  cases a.waiting with
  | none => exact h
  | some name => exact ⟨by simp [Sheet.push, h.lines], rfl, h.takesNotes⟩

theorem label (h : Alike a b) (name : String) : Alike (a.label name) (b.label name) :=
  ⟨h.settle.lines, rfl, h.settle.takesNotes⟩

theorem note (h : Alike a b) (text : String) : Alike (a.note text) (b.note text) := by
  unfold Sheet.note
  rw [← h.takesNotes]
  split
  · exact h.push rfl rfl
  · exact h

theorem text_eq (h : Alike a b) : a.text = b.text := by
  have htexts := congrArg (List.map Prod.fst) h.settle.lines
  simp only [List.map_map] at htexts
  exact congrArg (fun texts => "\n".intercalate texts ++ "\n") htexts

theorem size_eq (h : Alike a b) : a.size = b.size := by
  have hwords := congrArg (List.countP Prod.snd) h.lines
  rw [List.countP_map, List.countP_map] at hwords
  rw [a.counted, b.counted]
  exact hwords

end Alike

/-- Serves a call with a line of data in place of a raw line. -/
def ink (sheet : Sheet) : SheetCall → Sheet
  | .raw declaration => sheet.declare declaration
  | call => sheet.serve call

theorem Alike.serve {a b : Sheet} (h : Alike a b) (call : SheetCall) :
    Alike (a.serve call) (b.ink call) := by
  cases call with
  | label name => exact h.label name
  | anchor name => exact (h.label name).write .nop none
  | op code => exact h.write code none
  | opTo code operand => exact h.write code (some operand)
  | binary x code y dest =>
      exact ((h.write .lda (some x)).write code (some y)).write .sta (some dest)
  | copy source dest => exact (h.write .lda (some source)).write .sta (some dest)
  | note text => exact h.note text
  | raw declaration => exact h.push rfl rfl

theorem reading_ink {call : SheetCall} (h : call.isRaw = true → sheet.waiting = none)
    (rest : List Stroke) :
    (sheet.ink call).reading rest = sheet.reading (call.strokes ++ rest) := by
  cases call with
  | label name => exact sheet.reading_label name rest
  | anchor name => exact ((sheet.label name).reading_write _ _ _).trans (sheet.reading_label _ _)
  | op code => exact sheet.reading_write code none rest
  | opTo code operand => exact sheet.reading_write code (some operand) rest
  | binary x code y dest =>
      simp only [ink, serve, binary, opTo, reading_write]
      rfl
  | copy source dest =>
      simp only [ink, serve, copy, opTo, reading_write]
      rfl
  | note text => exact sheet.reading_note text rest
  | raw declaration => exact reading_declare (h rfl) declaration rest

/-! ## Legible sheets -/

/-- What a sheet needs to be read back. -/
structure Legible (sheet : Sheet) : Prop where
  readable : ∀ line ∈ sheet.lines.toList, line.Readable
  legal : ∀ line ∈ sheet.words, line.isLegal = true
  waiting : ∀ name, sheet.waiting = some name → Field.IsLabel name

namespace Legible

theorem push (h : sheet.Legible) {line : SheetLine} (hreadable : line.Readable)
    (hlegal : line.isWord = true → line.isLegal = true) : (sheet.push line).Legible where
  readable := by
    intro other hother
    rw [Sheet.push, Array.toList_push, List.mem_append, List.mem_singleton] at hother
    rcases hother with hother | rfl
    · exact h.readable other hother
    · exact hreadable
  legal := by
    intro other hother
    obtain ⟨hmem, hword⟩ := List.mem_filter.1 hother
    rw [Sheet.push, Array.toList_push, List.mem_append, List.mem_singleton] at hmem
    rcases hmem with hmem | rfl
    · exact h.legal other (List.mem_filter.2 ⟨hmem, hword⟩)
    · exact hlegal hword
  waiting := h.waiting

/-- What waits is of no concern to the lines. -/
theorem withWaiting (h : sheet.Legible) {waiting : Option String}
    (hwaiting : ∀ name, waiting = some name → Field.IsLabel name) :
    Legible { sheet with waiting } :=
  ⟨h.readable, h.legal, hwaiting⟩

theorem write (h : sheet.Legible) {op : Opcode} {operand : Option String}
    (hop : op.takesAddress = operand.isSome)
    (hoperand : ∀ word, operand = some word → Field.IsLabel word) :
    (sheet.write op operand).Legible := by
  have hline : (SheetLine.code sheet.waiting op operand).Readable := ⟨h.waiting, hoperand⟩
  exact (h.push hline fun _ => by simp [SheetLine.isLegal, hop]).withWaiting (by simp)

theorem opTo (h : sheet.Legible) {op : Opcode} {operand : String} (hop : op.takesAddress = true)
    (hoperand : Field.IsName operand) : (sheet.opTo op operand).Legible :=
  h.write hop (by simpa using hoperand.isLabel)

theorem settle (h : sheet.Legible) : sheet.settle.Legible := by
  unfold Sheet.settle
  cases hwaiting : sheet.waiting with
  | none => exact h
  | some name =>
      have hline : (SheetLine.code (some name) .nop none).Readable :=
        ⟨fun word hword => h.waiting word (hwaiting.trans hword), by simp⟩
      exact (h.push hline fun _ => rfl).withWaiting (by simp)

theorem label (h : sheet.Legible) {name : String} (hname : Field.IsName name) :
    (sheet.label name).Legible :=
  h.settle.withWaiting (by simpa using hname.isLabel)

theorem ink (h : sheet.Legible) {call : SheetCall} (hcall : call.Proper) :
    (sheet.ink call).Legible := by
  cases call with
  | label name => exact h.label hcall
  | anchor name => exact (h.label hcall).write rfl (by simp)
  | op code => exact h.write hcall (by simp)
  | opTo code operand => exact h.opTo hcall.1 hcall.2
  | binary a code b dest =>
      obtain ⟨hcode, ha, hb, hdest⟩ := hcall
      exact ((h.opTo rfl ha).opTo hcode hb).opTo rfl hdest
  | copy source dest => exact (h.opTo rfl hcall.1).opTo rfl hcall.2
  | note text =>
      show (sheet.note text).Legible
      unfold Sheet.note
      split
      · exact h.push hcall (by simp [SheetLine.isWord])
      · exact h
  | raw declaration => exact h.push hcall.isLabel fun _ => rfl

end Legible

/-! ## Runs of calls -/

/-- The sheet has the text of a legible one, which is read as the strokes so far and those to
come. -/
structure Records (sheet inked : Sheet) (strokes : List Stroke) : Prop where
  alike : Alike sheet inked
  legible : inked.Legible
  reading : ∀ rest, inked.reading rest = Stroke.instructions (strokes ++ rest)

namespace Records

variable {inked : Sheet} {strokes : List Stroke}

theorem empty (takesNotes : Bool) : Records { takesNotes } { takesNotes } [] :=
  ⟨⟨rfl, rfl, rfl⟩, ⟨by simp, by simp [words], by simp⟩, fun _ => rfl⟩

theorem serve (h : Records sheet inked strokes) {call : SheetCall} (hcall : call.Proper)
    (hraw : call.isRaw = true → sheet.waiting = none) :
    Records (sheet.serve call) (inked.ink call) (strokes ++ call.strokes) where
  alike := h.alike.serve call
  legible := h.legible.ink hcall
  reading := by
    intro rest
    rw [reading_ink (fun hdata => h.alike.waiting ▸ hraw hdata), h.reading, List.append_assoc]

theorem serveAll (h : Records sheet inked strokes) {calls : List SheetCall}
    (hcalls : sheet.Admits calls) :
    ∃ inked',
      Records (sheet.serveAll calls) inked' (strokes ++ calls.flatMap SheetCall.strokes) := by
  induction calls generalizing sheet inked strokes with
  | nil => exact ⟨inked, by simpa [Sheet.serveAll] using h⟩
  | cons call rest ih =>
      obtain ⟨hcall, hraw, hrest⟩ := hcalls
      obtain ⟨inked', hrecords⟩ := ih (h.serve hcall hraw) hrest
      rw [List.append_assoc, ← List.flatMap_cons] at hrecords
      exact ⟨inked', hrecords⟩

theorem parts_settle (h : Records sheet inked strokes) :
    inked.settle.words.map SheetLine.parts = Stroke.instructions strokes := by
  rw [← reading_nil, h.reading, List.append_nil]

/-- The words on the sheet are one short if a label waits. -/
theorem size_eq (h : Records sheet inked strokes) :
    sheet.size + (if sheet.waiting.isSome then 1 else 0) =
      (Stroke.instructions strokes).length := by
  rw [← h.parts_settle, settle_words, h.alike.size_eq, h.alike.waiting, size_eq_length]
  cases inked.waiting <;> simp

end Records

end Sheet

/-- The text is read as the instructions, and each label is found where its instruction is. -/
def Image.ReadsAs (text : String) (written : List (Option String × Opcode × Operand)) : Prop :=
  ∃ lines instructions labels, FieldLine.readAll text = .ok lines ∧
    Image.collect lines = .ok (instructions, labels) ∧
    instructions.toList.map Instruction.parts = written ∧ labels.Indexes instructions.toList

namespace Sheet

theorem Records.readsAs {sheet inked : Sheet} {strokes : List Stroke}
    (h : Records sheet inked strokes) (hnodup : (strokes.filterMap Stroke.label?).Nodup)
    (hfits : (Stroke.instructions strokes).length ≤ Image.memoryLimit) :
    Image.ReadsAs sheet.text (Stroke.instructions strokes) := by
  obtain ⟨lines, hread, hfields⟩ :=
    FieldLine.readAll_text inked.settle_waiting h.legible.settle.readable
  have htext : inked.settle.text = sheet.text := by
    rw [h.alike.text_eq, text, text, settle_settle]
  obtain ⟨instructions, hlines, hparts⟩ :=
    Instruction.ofLine_words hfields h.legible.settle.legal
  have hwritten : instructions.map Instruction.parts = Stroke.instructions strokes :=
    hparts.trans h.parts_settle
  have hlabels : instructions.filterMap Instruction.label = strokes.filterMap Stroke.label? := by
    rw [← Stroke.labels_instructions, ← hwritten, List.filterMap_map]
    rfl
  have hlength : instructions.length = (Stroke.instructions strokes).length := by
    simpa using congrArg List.length hwritten
  have hcases := Image.collect_cases hlines
  generalize hcollect : Image.collect lines = result at hcases
  cases hcases with
  | ok collected _ =>
      exact ⟨lines, _, _, htext ▸ hread, hcollect, hwritten, collected.indexes⟩
  | tooLarge large => omega
  | duplicate _ _ _ twice => exact absurd (hlabels ▸ hnodup) twice

end Sheet

/-! ## Compiled programs -/

namespace Compilation

variable {source : String} {takesNotes : Bool} {compilation : Compilation}

/-- No label waits between the code of a program and its data. -/
theorem exists_code_of_compile (hok : compile source takesNotes = .ok compilation) :
    ∃ program draft, Program.parse source = .ok program ∧
      (Lowering.enterRoutines program.functions >>= fun _ => Lowering.code program)
        { sheet := { takesNotes } } = .ok ((), draft) ∧
      draft.sheet.waiting = none ∧
      compilation.sheet = draft.scopes.allDeclarations.foldl Sheet.declare draft.sheet := by
  obtain ⟨_, -, -, r, hspelled⟩ := Program.spelled_of_compile hok
  obtain ⟨program, final, hparse, hlower, hsheet, -⟩ := Program.lowered_of_compile hok
  rw [Lowering.program_eq] at hlower
  obtain ⟨_, entered, henter, hlower⟩ := Lowering.bind_eq_ok.1 hlower
  obtain ⟨_, draft, hcode, hdata⟩ := Lowering.bind_eq_ok.1 hlower
  obtain ⟨-, rfl⟩ := Prod.mk.inj (Except.ok.inj hdata)
  obtain ⟨-, hwaiting⟩ := Program.declare_lines draft.scopes.allDeclarations draft.sheet
  refine ⟨program, draft, hparse, Lowering.bind_eq_ok.2 ⟨_, entered, henter, hcode⟩, ?_,
    hsheet.symm⟩
  rw [← hwaiting, ← hspelled.waiting, ← hsheet]

theorem assemble_size (hok : compile source takesNotes = .ok compilation) :
    (∀ image, Image.assemble compilation.text = .ok image →
        compilation.sheet.size = image.memory.size) ∧
      ∀ words, Image.assemble compilation.text = .error (.programTooLarge words) →
        compilation.sheet.size = words := by
  obtain ⟨program, -, hnamed, r, hspelled⟩ := Program.spelled_of_compile hok
  have hsize := compilation.sheet.size_eq_length
  rcases hspelled.assemble_split hnamed with ⟨-, image, himage, hassembled⟩ | ⟨-, -, hlarge⟩ |
    ⟨-, line, label, first, htwice⟩
  · have hmemory := congrArg List.length hassembled.memory
    refine ⟨fun other hother => ?_, fun words hwords => ?_⟩
    · obtain rfl := Except.ok.inj (himage.symm.trans hother)
      simpa [hsize, hspelled.words] using hmemory.symm
    · cases himage.symm.trans hwords
  · refine ⟨fun image himage => ?_, fun words hwords => ?_⟩
    · cases hlarge.symm.trans himage
    · cases hlarge.symm.trans hwords
      exact hsize
  · refine ⟨fun image himage => ?_, fun words hwords => ?_⟩
    · cases htwice.symm.trans himage
    · cases htwice.symm.trans hwords

theorem journal_compile (hok : compile source takesNotes = .ok compilation) :
    Journal.compile source takesNotes = [compilation.record] := by
  unfold compile at hok
  unfold Journal.compile Journal.program
  cases hparse : Program.parse source with
  | error error => simp [hparse] at hok
  | ok program =>
      cases hcompile : program.compile takesNotes with
      | error error => simp [hparse, hcompile, Except.mapError] at hok
      | ok made =>
          simp only [hparse, hcompile, Except.mapError, Except.ok.injEq] at hok
          simp only [hcompile, hok]

/-- Each word on the sheet of a compiled program is read as one line. -/
theorem readAll_size (hok : compile source takesNotes = .ok compilation) :
    ∃ lines, FieldLine.readAll compilation.text = .ok lines ∧
      lines.length = compilation.sheet.size := by
  obtain ⟨program, -, hnamed, r, hspelled⟩ := Program.spelled_of_compile hok
  obtain ⟨lines, instructions, hread, hlines, hparts⟩ := hspelled.instructions hnamed
  refine ⟨lines, hread, ?_⟩
  rw [hlines.length_eq, Sheet.size_eq_length, hspelled.words]
  simpa using congrArg List.length hparts

end Compilation

/-! ## The whole way -/

/-- Calls that are admitted and name no label twice are read back as they were made: each label
is found at the instruction that came next, or at a `NOP` of its own, and the words counted are
one short if a label waits.  None waits on the sheet of a compiled program, neither before its
data nor after it, so that its record counts the words of the image. -/
theorem Sheet.read_back :
    (∀ (takesNotes : Bool) (calls : List SheetCall), ({ takesNotes } : Sheet).Admits calls →
      (calls.filterMap SheetCall.label?).Nodup →
      let sheet := ({ takesNotes } : Sheet).serveAll calls
      let written := Stroke.instructions (calls.flatMap SheetCall.strokes)
      sheet.size + (if sheet.waiting.isSome then 1 else 0) = written.length ∧
        written.filterMap Prod.fst = calls.filterMap SheetCall.label? ∧
        (written.length ≤ Image.memoryLimit → Image.ReadsAs sheet.text written)) ∧
    ∀ (source : String) (takesNotes : Bool) (compilation : Compilation),
      compile source takesNotes = .ok compilation →
      compilation.sheet.waiting = none ∧
        (∃ program draft, Program.parse source = .ok program ∧
          (Lowering.enterRoutines program.functions >>= fun _ => Lowering.code program)
            { sheet := { takesNotes } } = .ok ((), draft) ∧
          draft.sheet.waiting = none ∧
          compilation.sheet = draft.scopes.allDeclarations.foldl Sheet.declare draft.sheet) ∧
        (∃ lines, FieldLine.readAll compilation.text = .ok lines ∧
          lines.length = compilation.sheet.size) ∧
        (∀ image, Image.assemble compilation.text = .ok image →
          Journal.compile source takesNotes = [{
            level := .debug
            message := "compiled " ++ toString image.memory.size ++ " words, " ++
              toString compilation.temporaries ++ " temporaries, " ++
              toString compilation.functions ++ " function(s)" }]) ∧
        ∀ words, Image.assemble compilation.text = .error (.programTooLarge words) →
          compilation.sheet.size = words := by
  constructor
  · intro takesNotes calls hcalls hnodup
    obtain ⟨inked, hrecords⟩ := (Records.empty takesNotes).serveAll hcalls
    rw [List.nil_append] at hrecords
    refine ⟨hrecords.size_eq, ?_, hrecords.readsAs ?_⟩
    · rw [Stroke.labels_instructions, SheetCall.labels_strokes]
    · rwa [SheetCall.labels_strokes]
  · intro source takesNotes compilation hok
    obtain ⟨_, -, -, r, hspelled⟩ := Program.spelled_of_compile hok
    obtain ⟨hsize, hlarge⟩ := Compilation.assemble_size hok
    refine ⟨hspelled.waiting, Compilation.exists_code_of_compile hok,
      Compilation.readAll_size hok, fun image himage => ?_, hlarge⟩
    rw [Compilation.journal_compile hok, Compilation.record, hsize image himage]

namespace SheetCall

/-- Two labels in a row, a note between a label and its instruction, and a label at the end. -/
def doubled : List SheetCall :=
  [.label "first", .label "second", .note "read // x", .op .inp, .opTo .sta "x", .anchor "again",
    .binary "x" .sub "one" "x", .copy "x" "y", .opTo .brp "again", .op .hlt,
    .raw ⟨"x", 0⟩, .raw ⟨"y", 0⟩, .raw ⟨"one", -1⟩, .label "last"]

end SheetCall

def descent : String :=
  "function down(n)\nwhile n > 0\nn = n - 1\nendwhile\nreturn n\nendfunction\nprint(down(3))\n"

theorem Sheet.read_back_doubled :
    (({} : Sheet).Admits SheetCall.doubled ∧
      (SheetCall.doubled.filterMap SheetCall.label?).Nodup ∧
      (({} : Sheet).serveAll SheetCall.doubled).size = 14 ∧
      Image.ReadsAs (({} : Sheet).serveAll SheetCall.doubled).text
        [(some "first", .nop, .none), (some "second", .inp, .none), (none, .sta, .label "x"),
          (some "again", .nop, .none), (none, .lda, .label "x"), (none, .sub, .label "one"),
          (none, .sta, .label "x"), (none, .lda, .label "x"), (none, .sta, .label "y"),
          (none, .brp, .label "again"), (none, .hlt, .none), (some "x", .dat, .value 0),
          (some "y", .dat, .value 0), (some "one", .dat, .value (-1)),
          (some "last", .nop, .none)]) ∧
    ∃ compilation image, compile descent = .ok compilation ∧
      Image.assemble compilation.text = .ok image ∧ compilation.sheet.waiting = none ∧
      Journal.compile descent = [{
        level := .debug
        message := "compiled " ++ toString image.memory.size ++ " words, " ++
          toString compilation.temporaries ++ " temporaries, " ++
          toString compilation.functions ++ " function(s)" }] := by
  have hadmits : ({} : Sheet).Admits SheetCall.doubled := by decide +kernel
  have hnodup : (SheetCall.doubled.filterMap SheetCall.label?).Nodup := by decide +kernel
  obtain ⟨hsize, -, hreads⟩ := Sheet.read_back.1 true SheetCall.doubled hadmits hnodup
  have hwaiting : (({} : Sheet).serveAll SheetCall.doubled).waiting.isSome = true := by
    decide +kernel
  rw [if_pos hwaiting] at hsize
  refine ⟨⟨hadmits, hnodup, Nat.succ.inj hsize, hreads (by decide)⟩, ?_⟩
  obtain ⟨image, hbuild⟩ : ∃ image, build descent = .ok image :=
    exists_image_of_buildable (by decide +kernel)
  cases hcompile : compile descent with
  | error error =>
      rw [build, hcompile] at hbuild
      cases hbuild
  | ok compilation =>
      obtain ⟨hnone, -, -, hjournal, -⟩ := Sheet.read_back.2 descent true compilation hcompile
      rw [build, hcompile] at hbuild
      change (Image.assemble compilation.text).mapError _ = _ at hbuild
      cases himage : Image.assemble compilation.text with
      | error error =>
          rw [himage] at hbuild
          cases hbuild
      | ok made => exact ⟨compilation, made, rfl, himage, hnone, hjournal made himage⟩

end LittleMan
