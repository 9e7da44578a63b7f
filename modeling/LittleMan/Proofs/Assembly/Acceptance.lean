import LittleMan.Proofs.Assembly.Assembling

/-!
# Which texts are assembled

A text is taken as its rows: the lines that have fields, each with its number and what
stands before the first `//`.  `Accepted` lists what the rows of a text have to fulfil, and
`Rejected` says which fault a text that fails is refused for.

The faults come in the order of the passes.  A row with too many fields is found before
any row is looked at more closely, a row of the wrong form or with a label that was there
before is found before the size of the program, and operands are looked up last.  Each of
the lemmas below follows one pass over the rows that are in order, up to the first that is
not.
-/

namespace LittleMan

/-- The fields of a text are what lies between blanks. -/
theorem Text.fields_eq_splitOnP (text : List Char) :
    fields text = (text.splitOnP isBlank).filter fun word => !word.isEmpty := by
  have hfrom : ∀ (text field : List Char), fieldsFrom field text =
      ((text.splitOnP isBlank).modifyHead (field.reverse ++ ·)).filter
        fun word => !word.isEmpty := by
    intro text
    induction text with
    | nil =>
        intro field
        cases field <;> simp [fieldsFrom, List.splitOnP_nil]
    | cons c rest ih =>
        intro field
        rw [fieldsFrom, List.splitOnP_cons_eq_if_modifyHead, ih, ih]
        have hid : (rest.splitOnP isBlank).modifyHead (fun word => word) =
            rest.splitOnP isBlank := by
          cases rest.splitOnP isBlank <;> rfl
        cases hblank : isBlank c with
        | true => cases field <;> simp [hid]
        | false => cases hwords : rest.splitOnP isBlank <;> simp
  rw [fields, hfrom]
  cases text.splitOnP isBlank <;> simp

/-- A line of a text: its number and what stands before the first `//`. -/
structure TextRow where
  line : Nat
  code : List Char
deriving DecidableEq, Repr

namespace TextRow

def words (row : TextRow) : List (List Char) :=
  (row.code.splitOnP Text.isBlank).filter fun word => !word.isEmpty

def fields (row : TextRow) : List Field :=
  row.words.map fun word => Field.classify (String.ofList word)

def fieldLine (row : TextRow) : FieldLine where
  line := row.line
  fields := row.fields

def leading? (row : TextRow) : Option String :=
  match row.fields with
  | .label name :: _ => some name
  | _ => none

/-- The rows of a text; lines count from one, and those without fields are left out. -/
def ofText (source : String) : List TextRow :=
  (((Text.lines source.toList).zipIdx 1).map fun line =>
    { line := line.2, code := FieldLine.code line.1 }).filter fun row => !row.words.isEmpty

end TextRow

def Operand.fields : Operand → List Field
  | .none => []
  | .value n => [.number n]
  | .label name => [.label name]

def Opcode.Admits (op : Opcode) (operand : Operand) : Prop :=
  if operand = .none then op.takesAddress = false else op = .dat ∨ op.takesAddress = true

namespace FieldLine

/-- A line of the right form: an optional label, an operation, and the operand that it asks
for. -/
structure Reads (line : FieldLine) (label : Option String) (op : Opcode) (operand : Operand) :
    Prop where
  fields : line.fields = label.toList.map Field.label ++ .opcode op :: operand.fields
  admits : op.Admits operand

/-- A line of the wrong form, with the fault that it has. -/
inductive Misread (line : FieldLine) : AssembleError → Prop
  | unknownOpcode {label word : String} {rest : List Field}
      (fields : line.fields = .label label :: .label word :: rest) :
      Misread line (.unknownOpcode line.line word)
  | missingOperand {label : Option String} {op : Opcode}
      (fields : line.fields = label.toList.map Field.label ++ [.opcode op])
      (takes : op.takesAddress = true) : Misread line (.missingOperand line.line op.mnemonic)
  | unexpectedOperand {label : Option String} {op : Opcode} {operand : Operand}
      (fields : line.fields = label.toList.map Field.label ++ .opcode op :: operand.fields)
      (given : operand ≠ .none) (bare : op.takesAddress = false) (data : op ≠ .dat) :
      Misread line (.unexpectedOperand line.line op.mnemonic operand.text)
  | malformed
      (unlabelled : ∀ label word rest, line.fields ≠ .label label :: .label word :: rest)
      (unshaped : ∀ (label : Option String) op operand,
        line.fields ≠ label.toList.map Field.label ++ .opcode op :: Operand.fields operand) :
      Misread line (.malformedLine line.line
        (" ".intercalate (line.fields.map Field.text)))

end FieldLine

namespace TextRow

abbrev Reads (row : TextRow) (label : Option String) (op : Opcode) (operand : Operand) : Prop :=
  row.fieldLine.Reads label op operand

/-- The number that an operand stands for: itself, or the address of the row that its label
leads. -/
inductive Resolves (rows : List TextRow) : Operand → Int → Prop
  | none : Resolves rows .none 0
  | value (n : Word) : Resolves rows (.value n) n.toInt
  | label {name : String} {address : Nat} {row : TextRow} (stands : rows[address]? = some row)
      (leads : row.leading? = some name) : Resolves rows (.label name) address

/-- The operand of a row is known, and fits into three digits unless it is data. -/
structure Settled (rows : List TextRow) (row : TextRow) : Prop where
  defined : ∀ label op name, row.Reads label op (.label name) →
    name ∈ rows.filterMap leading?
  inRange : ∀ label op operand value, row.Reads label op operand → op ≠ .dat →
    Resolves rows operand value → 0 ≤ value ∧ value < 1000

structure InOrder (rows : List TextRow) : Prop where
  shaped : ∀ row ∈ rows, ∃ label op operand, row.Reads label op operand
  distinct : (rows.filterMap leading?).Nodup

structure Accepted (rows : List TextRow) : Prop where
  short : ∀ row ∈ rows, row.fields.length ≤ 3
  inOrder : InOrder rows
  fits : rows.length ≤ 1000
  settled : ∀ row ∈ rows, Settled rows row

/-- The fault that the rows of a text have first. -/
inductive Rejected (rows : List TextRow) : AssembleError → Prop
  | crowded {before : List TextRow} {row : TextRow} {after : List TextRow}
      (split : rows = before ++ row :: after) (short : ∀ row ∈ before, row.fields.length ≤ 3)
      (long : 3 < row.fields.length) :
      Rejected rows (.malformedLine row.line (String.ofList (Text.trim row.code)))
  | misread {before : List TextRow} {row : TextRow} {after : List TextRow} {error : AssembleError}
      (short : ∀ row ∈ rows, row.fields.length ≤ 3)
      (split : rows = before ++ row :: after) (inOrder : InOrder before)
      (wrong : row.fieldLine.Misread error) : Rejected rows error
  | repeated {before : List TextRow} {row : TextRow} {after : List TextRow} {first : TextRow}
      {label : String} {op : Opcode} {operand : Operand}
      (short : ∀ row ∈ rows, row.fields.length ≤ 3)
      (split : rows = before ++ row :: after) (inOrder : InOrder before)
      (reads : row.Reads (some label) op operand)
      (mem : first ∈ before) (leads : first.leading? = some label) :
      Rejected rows (.duplicateLabel row.line label first.line)
  | tooLarge (short : ∀ row ∈ rows, row.fields.length ≤ 3) (inOrder : InOrder rows)
      (large : 1000 < rows.length) : Rejected rows (.programTooLarge rows.length)
  | undefined {before : List TextRow} {row : TextRow} {after : List TextRow}
      {label : Option String} {op : Opcode} {name : String}
      (short : ∀ row ∈ rows, row.fields.length ≤ 3) (inOrder : InOrder rows)
      (fits : rows.length ≤ 1000)
      (split : rows = before ++ row :: after) (settled : ∀ row ∈ before, Settled rows row)
      (reads : row.Reads label op (.label name)) (unknown : name ∉ rows.filterMap leading?) :
      Rejected rows (.undefinedSymbol row.line name)
  | overflow {before : List TextRow} {row : TextRow} {after : List TextRow}
      {label : Option String} {op : Opcode} {operand : Operand} {value : Word}
      (short : ∀ row ∈ rows, row.fields.length ≤ 3) (inOrder : InOrder rows)
      (fits : rows.length ≤ 1000)
      (split : rows = before ++ row :: after) (settled : ∀ row ∈ before, Settled rows row)
      (reads : row.Reads label op operand) (code : op ≠ .dat)
      (resolves : Resolves rows operand value.toInt)
      (outside : ¬ (0 ≤ value.toInt ∧ value.toInt < 1000)) :
      Rejected rows (.operandOverflow row.line value)

end TextRow

/-! ## Reading the fields -/

namespace TextRow

def readRows : List TextRow → Except AssembleError (List FieldLine)
  | [] => .ok []
  | row :: rest =>
      if FieldLine.maxFields < row.words.length then
        .error (.malformedLine row.line (String.ofList (Text.trim row.code)))
      else (readRows rest).map (row.fieldLine :: ·)

theorem length_fields (row : TextRow) : row.fields.length = row.words.length := by
  simp [fields]

theorem readFrom_eq_readRows (lines : List (List Char)) (n : Nat) :
    FieldLine.readFrom n lines =
      readRows (((lines.zipIdx n).map fun line =>
        { line := line.2, code := FieldLine.code line.1 }).filter
          fun row => !row.words.isEmpty) := by
  induction lines generalizing n with
  | nil => rfl
  | cons text rest ih =>
      have hwords : Text.fields (FieldLine.code text) =
          words { line := n, code := FieldLine.code text } := Text.fields_eq_splitOnP _
      rw [List.zipIdx_cons, List.map_cons, List.filter_cons]
      simp only [FieldLine.readFrom, FieldLine.read?, hwords]
      generalize hrow : ({ line := n, code := FieldLine.code text } : TextRow) = row
      have hline : row.line = n := by rw [← hrow]
      have hcode : row.code = FieldLine.code text := by rw [← hrow]
      cases hempty : row.words.isEmpty with
      | true => simp [ih]
      | false =>
          by_cases hlong : FieldLine.maxFields < row.words.length
          · simp [readRows, hlong, hline, hcode]
          · simp only [Bool.false_eq_true, if_false, hlong, Bool.not_false, if_true, readRows]
            rw [ih]
            simp [fieldLine, fields, hline]

theorem readAll_eq_readRows (source : String) :
    FieldLine.readAll source = readRows (ofText source) :=
  readFrom_eq_readRows _ _

theorem readRows_short {rows : List TextRow} (h : ∀ row ∈ rows, row.fields.length ≤ 3) :
    readRows rows = .ok (rows.map fieldLine) := by
  induction rows with
  | nil => rfl
  | cons row rest ih =>
      obtain ⟨hrow, hrest⟩ := List.forall_mem_cons.1 h
      rw [length_fields] at hrow
      have hshort : ¬ FieldLine.maxFields < row.words.length := Nat.not_lt.2 hrow
      simp [readRows, hshort, ih hrest, Except.map]

theorem readRows_crowded {before after : List TextRow} {row : TextRow}
    (hshort : ∀ row ∈ before, row.fields.length ≤ 3) (hlong : 3 < row.fields.length) :
    readRows (before ++ row :: after) =
      .error (.malformedLine row.line (String.ofList (Text.trim row.code))) := by
  induction before with
  | nil =>
      rw [length_fields] at hlong
      have hcrowded : FieldLine.maxFields < row.words.length := hlong
      simp [readRows, hcrowded]
  | cons first rest ih =>
      obtain ⟨hfirst, hrest⟩ := List.forall_mem_cons.1 hshort
      rw [length_fields] at hfirst
      have hnot : ¬ FieldLine.maxFields < first.words.length := Nat.not_lt.2 hfirst
      simp [readRows, hnot, ih hrest, Except.map]

end TextRow

/-! ## The form of a line -/

namespace FieldLine

theorem Reads.ofLine {line : FieldLine} {label : Option String} {op : Opcode} {operand : Operand}
    (h : line.Reads label op operand) :
    Instruction.ofLine line = .ok { label, opcode := op, operand, line := line.line } := by
  obtain ⟨hfields, hadmits⟩ := h
  cases label <;> cases operand <;>
    simp_all [Instruction.ofLine, Instruction.splitLabel, Instruction.splitOpcode,
      Instruction.readOperand, Instruction.checkOperand, Operand.fields, Opcode.Admits,
      bind, Except.bind, pure, Except.pure]

theorem ofLine_unshaped {line : FieldLine} {label : Option String} {fields : List Field}
    (hsplit : Instruction.splitLabel line.fields = (label, fields))
    (hlabelled : label.isSome → ∀ word rest, fields ≠ .label word :: rest)
    (hunshaped : ∀ op operand, fields ≠ .opcode op :: Operand.fields operand) :
    Instruction.ofLine line = .error (Instruction.malformed line) := by
  simp only [Instruction.ofLine, hsplit]
  rcases fields with _ | ⟨first, rest⟩
  · rfl
  cases first with
  | label word =>
      have hnone : label.isSome = false := by
        rw [← Bool.not_eq_true]
        intro hsome
        exact hlabelled hsome word rest rfl
      simp [Instruction.splitOpcode, hnone, bind, Except.bind]
  | number value => rfl
  | opcode op =>
      rcases rest with _ | ⟨operand, _ | ⟨third, rest⟩⟩
      · exact absurd rfl (hunshaped op .none)
      · cases operand with
        | label name => exact absurd rfl (hunshaped op (.label name))
        | number value => exact absurd rfl (hunshaped op (.value value))
        | opcode other => rfl
      · rfl

theorem Misread.ofLine {line : FieldLine} {error : AssembleError} (h : line.Misread error) :
    Instruction.ofLine line = .error error := by
  cases h with
  | unknownOpcode fields =>
      simp [Instruction.ofLine, Instruction.splitLabel, Instruction.splitOpcode, fields,
        bind, Except.bind]
  | @missingOperand label op fields takes =>
      cases label <;>
        simp [Instruction.ofLine, Instruction.splitLabel, Instruction.splitOpcode,
          Instruction.readOperand, Instruction.checkOperand, fields, takes, bind, Except.bind]
  | @unexpectedOperand label op operand fields given bare data =>
      cases label <;> cases operand <;>
        simp_all [Instruction.ofLine, Instruction.splitLabel, Instruction.splitOpcode,
          Instruction.readOperand, Instruction.checkOperand, Operand.fields, bind, Except.bind]
  | malformed unlabelled unshaped =>
      show Instruction.ofLine line = .error (Instruction.malformed line)
      cases hfields : line.fields with
      | nil =>
          have hsplit : Instruction.splitLabel line.fields = (none, []) := by rw [hfields]; rfl
          exact ofLine_unshaped hsplit (by simp) fun op operand h => by cases h
      | cons first rest =>
          cases first with
          | label name =>
              have hsplit : Instruction.splitLabel line.fields = (some name, rest) := by
                rw [hfields]; rfl
              refine ofLine_unshaped hsplit (fun _ word others h => ?_) fun op operand h => ?_
              · exact unlabelled name word others (by rw [hfields, h])
              · exact unshaped (some name) op operand (by rw [hfields, h]; rfl)
          | opcode op =>
              have hsplit : Instruction.splitLabel line.fields = (none, .opcode op :: rest) := by
                rw [hfields]; rfl
              refine ofLine_unshaped hsplit (by simp) fun op' operand h => ?_
              exact unshaped none op' operand (by rw [hfields, h]; rfl)
          | number value =>
              have hsplit : Instruction.splitLabel line.fields = (none, .number value :: rest) := by
                rw [hfields]; rfl
              exact ofLine_unshaped hsplit (by simp) fun op operand h => by cases h

/-- Every line has the right form, or is wrong in one of the ways told. -/
theorem reads_or_misread (line : FieldLine) :
    (∃ label op operand, line.Reads label op operand) ∨ ∃ error, line.Misread error := by
  by_cases hlabels : ∃ label word rest, line.fields = .label label :: .label word :: rest
  · obtain ⟨label, word, rest, hfields⟩ := hlabels
    exact .inr ⟨_, .unknownOpcode hfields⟩
  by_cases hshape : ∃ (label : Option String) (op : Opcode) (operand : Operand),
      line.fields = label.toList.map Field.label ++ .opcode op :: operand.fields
  · obtain ⟨label, op, operand, hfields⟩ := hshape
    by_cases hadmits : op.Admits operand
    · exact .inl ⟨label, op, operand, hfields, hadmits⟩
    · unfold Opcode.Admits at hadmits
      split at hadmits
      · rename_i hnone
        subst hnone
        exact .inr ⟨_, .missingOperand hfields (by simpa using hadmits)⟩
      · rename_i hsome
        simp only [not_or, Bool.not_eq_true] at hadmits
        exact .inr ⟨_, .unexpectedOperand hfields hsome hadmits.2 hadmits.1⟩
  · exact .inr ⟨_, .malformed (fun label word rest h => hlabels ⟨label, word, rest, h⟩)
      fun label op operand h => hshape ⟨label, op, operand, h⟩⟩

end FieldLine

/-! ## Collecting the instructions -/

namespace TextRow

def Instructs (row : TextRow) (instruction : Instruction) : Prop :=
  ∃ label op operand, row.Reads label op operand ∧
    instruction = { label, opcode := op, operand, line := row.line }

abbrev Gives (rows : List TextRow) (instructions : List Instruction) : Prop :=
  List.Forall₂ Instructs rows instructions

theorem exists_gives {rows : List TextRow}
    (h : ∀ row ∈ rows, ∃ label op operand, row.Reads label op operand) :
    ∃ instructions, Gives rows instructions := by
  induction rows with
  | nil => exact ⟨[], .nil⟩
  | cons row rest ih =>
      obtain ⟨⟨label, op, operand, hreads⟩, hrest⟩ := List.forall_mem_cons.1 h
      obtain ⟨instructions, hgives⟩ := ih hrest
      exact ⟨_ :: instructions, .cons ⟨label, op, operand, hreads, rfl⟩ hgives⟩

theorem Reads.leading? {row : TextRow} {label : Option String} {op : Opcode} {operand : Operand}
    (h : row.Reads label op operand) : row.leading? = label := by
  have hfields : row.fields = _ := h.fields
  unfold TextRow.leading?
  rw [hfields]
  cases label <;> rfl

theorem Reads.unique {row : TextRow} {label label' : Option String} {op op' : Opcode}
    {operand operand' : Operand} (h : row.Reads label op operand)
    (h' : row.Reads label' op' operand') : label = label' ∧ op = op' ∧ operand = operand' := by
  have hsame := Except.ok.inj (h.ofLine.symm.trans h'.ofLine)
  simpa using hsame

theorem Gives.labels {rows : List TextRow} {instructions : List Instruction}
    (h : Gives rows instructions) :
    rows.map TextRow.leading? = instructions.map Instruction.label := by
  induction h with
  | nil => rfl
  | cons hrow _ ih =>
      obtain ⟨label, op, operand, hreads, rfl⟩ := hrow
      rw [List.map_cons, List.map_cons, ih, hreads.leading?]

theorem Gives.filterMap {rows : List TextRow} {instructions : List Instruction}
    (h : Gives rows instructions) :
    rows.filterMap TextRow.leading? = instructions.filterMap Instruction.label := by
  have hlabels := congrArg (List.filterMap id) h.labels
  simpa [List.filterMap_map] using hlabels

theorem Gives.ofLine {rows : List TextRow} {instructions : List Instruction}
    (h : Gives rows instructions) :
    List.Forall₂ (fun line instruction => Instruction.ofLine line = .ok instruction)
      (rows.map fieldLine) instructions := by
  rw [List.forall₂_map_left_iff]
  refine h.imp ?_
  rintro row _ ⟨label, op, operand, hreads, rfl⟩
  exact hreads.ofLine

theorem Gives.get {rows : List TextRow} {instructions : List Instruction}
    (h : Gives rows instructions) {address : Nat} {instruction : Instruction}
    (hget : instructions[address]? = some instruction) :
    ∃ row, rows[address]? = some row ∧ row.leading? = instruction.label ∧
      row.line = instruction.line := by
  induction h generalizing address with
  | nil => simp at hget
  | @cons row first rows instructions hrow _ ih =>
      cases address with
      | zero =>
          obtain ⟨label, op, operand, hreads, rfl⟩ := hrow
          obtain rfl : _ = instruction := by simpa using hget
          exact ⟨row, rfl, hreads.leading?, rfl⟩
      | succ address => exact ih hget

theorem InOrder.eq_of_leading? {rows : List TextRow} (h : InOrder rows) {row other : TextRow}
    (hrow : row ∈ rows) (hother : other ∈ rows) {label : String}
    (hleads : row.leading? = some label) (hotherLeads : other.leading? = some label) :
    row = other := by
  have hpairs := List.pairwise_filterMap.1 h.distinct
  have hsymm : Std.Symm fun a b : TextRow => ∀ x, a.leading? = some x → ∀ y,
      b.leading? = some y → x ≠ y := ⟨fun _ _ hne x hx y hy => (hne y hy x hx).symm⟩
  by_contra hne
  exact hpairs.forall hrow hother hne label hleads label hotherLeads rfl

end TextRow

namespace Image

open TextRow

theorem collectFrom_append {lines rest : List FieldLine} {instructions : List Instruction}
    (hread : List.Forall₂ (fun line instruction => Instruction.ofLine line = .ok instruction)
      lines instructions)
    {done : Array Instruction} {labels : Labels} (h : Collected done.toList labels)
    (hnodup : ((done.toList ++ instructions).filterMap Instruction.label).Nodup) :
    ∃ (done' : Array Instruction) (labels' : Labels),
      done'.toList = done.toList ++ instructions ∧ Collected done'.toList labels' ∧
        collectFrom done labels (lines ++ rest) = collectFrom done' labels' rest := by
  induction hread generalizing done labels with
  | nil => exact ⟨done, labels, by simp, h, rfl⟩
  | @cons line instruction lines instructions hline hrest ih =>
      have hpush : (done.push instruction).toList ++ instructions =
          done.toList ++ instruction :: instructions := by
        simp
      rcases addLabel_cases h instruction with ⟨labels', hadd, hnext⟩ | ⟨-, htwice⟩
      · obtain ⟨done', labels'', hdone, hcollected, hcollect⟩ := ih hnext (hpush ▸ hnodup)
        refine ⟨done', labels'', hdone.trans hpush, hcollected, ?_⟩
        simp only [List.cons_append, collectFrom, hline, hadd]
        exact hcollect
      · rw [← hpush, List.filterMap_append] at hnodup
        exact absurd (List.nodup_append'.1 hnodup).1 htwice

theorem collect_before {before : List TextRow} (h : InOrder before) (rest : List FieldLine) :
    ∃ (done : Array Instruction) (labels : Labels), Gives before done.toList ∧
      Collected done.toList labels ∧
        collect (before.map fieldLine ++ rest) = collectFrom done labels rest := by
  obtain ⟨instructions, hgives⟩ := exists_gives h.shaped
  have hnodup : (([] ++ instructions).filterMap Instruction.label).Nodup := by
    rw [List.nil_append, ← hgives.filterMap]
    exact h.distinct
  obtain ⟨done, labels, hdone, hcollected, hcollect⟩ :=
    @collectFrom_append _ rest _ hgives.ofLine #[] .empty collected_nil hnodup
  refine ⟨done, labels, ?_, hcollected, hcollect⟩
  rw [hdone]
  exact hgives

theorem collect_misread {before after : List TextRow} {row : TextRow} {error : AssembleError}
    (h : InOrder before) (hwrong : row.fieldLine.Misread error) :
    collect ((before ++ row :: after).map fieldLine) = .error error := by
  obtain ⟨done, labels, -, -, hcollect⟩ := collect_before h ((row :: after).map fieldLine)
  rw [List.map_append, hcollect, List.map_cons, collectFrom, hwrong.ofLine]

theorem collect_repeated {before after : List TextRow} {row first : TextRow} {label : String}
    {op : Opcode} {operand : Operand} (h : InOrder before)
    (hreads : row.Reads (some label) op operand) (hmem : first ∈ before)
    (hleads : first.leading? = some label) :
    collect ((before ++ row :: after).map fieldLine) =
      .error (.duplicateLabel row.line label first.line) := by
  obtain ⟨done, labels, hgives, hcollected, hcollect⟩ :=
    collect_before h ((row :: after).map fieldLine)
  rw [List.map_append, hcollect, List.map_cons, collectFrom, hreads.ofLine]
  -- The table has the address of a row with the label, and no other row has it.
  have hlabel : label ∈ done.toList.filterMap Instruction.label := by
    rw [← hgives.filterMap]
    exact List.mem_filterMap.2 ⟨first, hmem, hleads⟩
  obtain ⟨address, hfind⟩ : ∃ address, labels.find? label = some address := by
    by_contra hnone
    have hnot := hcollected.indexes.find?_eq_none_iff.1
      (Option.eq_none_iff_forall_ne_some.2 fun address hfind => hnone ⟨address, hfind⟩)
    exact hnot hlabel
  obtain ⟨instruction, hget, hinstruction⟩ := (hcollected.indexes label address).1 hfind
  obtain ⟨other, hother, hotherLeads, hline⟩ := hgives.get hget
  obtain rfl : other = first :=
    InOrder.eq_of_leading? h (List.mem_of_getElem? hother) hmem (hotherLeads.trans hinstruction)
      hleads
  have hdone : done[address]? = some instruction := by simpa using hget
  simp [addLabel, hfind, hdone, hline, fieldLine]

theorem collect_rows {rows : List TextRow} (h : InOrder rows) :
    ∃ (done : Array Instruction) (labels : Labels), Gives rows done.toList ∧
      Collected done.toList labels ∧
        collect (rows.map fieldLine) =
          if 1000 < rows.length then .error (.programTooLarge rows.length)
          else .ok (done, labels) := by
  obtain ⟨done, labels, hgives, hcollected, hcollect⟩ := collect_before h []
  refine ⟨done, labels, hgives, hcollected, ?_⟩
  have hsize : done.size = rows.length := by
    rw [← Array.length_toList, hgives.length_eq]
  rw [List.append_nil] at hcollect
  rw [hcollect, collectFrom, hsize]
  rfl

/-! ## Packing the words -/

/-- What the rows of a text come to once they have been collected. -/
structure Tabled (rows : List TextRow) (instructions : List Instruction) (labels : Labels) :
    Prop where
  gives : Gives rows instructions
  collected : Collected instructions labels
  fits : rows.length ≤ 1000

theorem Tabled.find?_iff {rows : List TextRow} {instructions : List Instruction} {labels : Labels}
    (h : Tabled rows instructions labels) {name : String} {address : Nat} :
    labels.find? name = some address ↔
      ∃ row, rows[address]? = some row ∧ row.leading? = some name := by
  have hlabels := congrArg (·[address]?) h.gives.labels
  simp only [List.getElem?_map] at hlabels
  rw [h.collected.indexes name address]
  cases hrow : rows[address]? <;> cases hinstruction : instructions[address]? <;>
    simp_all

theorem Tabled.operandValue_iff {rows : List TextRow} {instructions : List Instruction}
    {labels : Labels} (h : Tabled rows instructions labels) {instruction : Instruction}
    {value : Word} :
    operandValue labels instruction = .ok value ↔
      Resolves rows instruction.operand value.toInt := by
  obtain ⟨label, op, operand, line⟩ := instruction
  cases operand with
  | none =>
      simp only [operandValue, Except.ok.injEq]
      constructor
      · rintro rfl
        exact .none
      · intro hresolves
        generalize hvalue : value.toInt = n at hresolves
        cases hresolves
        exact (Word.eq_zero_iff.2 hvalue).symm
  | value n =>
      simp only [operandValue, Except.ok.injEq]
      constructor
      · rintro rfl
        exact .value n
      · intro hresolves
        generalize hvalue : value.toInt = m at hresolves
        cases hresolves
        exact (Int64.toInt_inj.1 hvalue).symm
  | label name =>
      have haddress : ∀ {address : Nat} {row : TextRow}, rows[address]? = some row →
          (Word.ofAddress address).toInt = address := by
        intro address row hrow
        have hlt := (List.getElem?_eq_some_iff.1 hrow).1
        have hfits := h.fits
        exact Word.toInt_ofNat (by omega)
      constructor
      · intro hvalue
        cases hfind : labels.find? name with
        | none => simp [operandValue, hfind] at hvalue
        | some address =>
            obtain ⟨row, hrow, hleads⟩ := h.find?_iff.1 hfind
            obtain rfl : Word.ofAddress address = value := by
              simpa [operandValue, hfind] using hvalue
            rw [haddress hrow]
            exact .label hrow hleads
      · intro hresolves
        generalize hvalue : value.toInt = n at hresolves
        cases hresolves with
        | label hrow hleads =>
            have hfind := h.find?_iff.2 ⟨_, hrow, hleads⟩
            simp only [operandValue, hfind, Except.ok.injEq]
            rw [← Int64.toInt_inj, haddress hrow, hvalue]

theorem fitsOperand_iff {value : Word} :
    fitsOperand value = true ↔ 0 ≤ value.toInt ∧ value.toInt < 1000 := by
  have hlimit : ((Opcode.operandLimit : Nat) : Int) = 1000 := rfl
  rw [fitsOperand, hlimit, Bool.and_eq_true, decide_eq_true_iff, decide_eq_true_iff]

theorem Tabled.packOne_settled {rows : List TextRow} {instructions : List Instruction}
    {labels : Labels} (h : Tabled rows instructions labels) {row : TextRow}
    (hsettled : Settled rows row) {instruction : Instruction}
    (hinstructs : row.Instructs instruction) :
    ∃ word, packOne labels instruction = .ok word := by
  obtain ⟨label, op, operand, hreads, rfl⟩ := hinstructs
  cases hvalue : operandValue labels { label, opcode := op, operand, line := row.line } with
  | error error =>
      cases operand with
      | none => cases hvalue
      | value n => cases hvalue
      | label name =>
          obtain ⟨other, hmem, hleads⟩ :=
            List.mem_filterMap.1 (hsettled.defined label op name hreads)
          obtain ⟨address, hget⟩ := List.getElem?_of_mem hmem
          have hfind := h.find?_iff.2 ⟨other, hget, hleads⟩
          simp [operandValue, hfind] at hvalue
  | ok value =>
      refine ⟨op.encode value, ?_⟩
      have hrange : op = .dat ∨ fitsOperand value = true := by
        by_cases hdat : op = .dat
        · exact .inl hdat
        · exact .inr (fitsOperand_iff.2
            (hsettled.inRange label op operand _ hreads hdat (h.operandValue_iff.1 hvalue)))
      simp [packOne, hvalue, hrange, bind, Except.bind, pure, Except.pure]

theorem Tabled.packOne_undefined {rows : List TextRow} {instructions : List Instruction}
    {labels : Labels} (h : Tabled rows instructions labels) {row : TextRow}
    {label : Option String} {op : Opcode} {name : String}
    (hreads : row.Reads label op (.label name))
    (hunknown : name ∉ rows.filterMap TextRow.leading?) {instruction : Instruction}
    (hinstructs : row.Instructs instruction) :
    packOne labels instruction = .error (.undefinedSymbol row.line name) := by
  obtain ⟨label', op', operand', hreads', rfl⟩ := hinstructs
  obtain ⟨rfl, rfl, rfl⟩ := hreads.unique hreads'
  rw [h.gives.filterMap] at hunknown
  simp [packOne, operandValue, h.collected.indexes.find?_eq_none_iff.2 hunknown, bind, Except.bind]

theorem Tabled.packOne_overflow {rows : List TextRow} {instructions : List Instruction}
    {labels : Labels} (h : Tabled rows instructions labels) {row : TextRow}
    {label : Option String} {op : Opcode} {operand : Operand} {value : Word}
    (hreads : row.Reads label op operand) (hcode : op ≠ .dat)
    (hresolves : Resolves rows operand value.toInt)
    (houtside : ¬ (0 ≤ value.toInt ∧ value.toInt < 1000)) {instruction : Instruction}
    (hinstructs : row.Instructs instruction) :
    packOne labels instruction = .error (.operandOverflow row.line value) := by
  obtain ⟨label', op', operand', hreads', rfl⟩ := hinstructs
  obtain ⟨rfl, rfl, rfl⟩ := hreads.unique hreads'
  have hvalue : operandValue labels ⟨label, op, operand, row.line⟩ = .ok value :=
    h.operandValue_iff.2 hresolves
  have hfits : ¬ fitsOperand value = true := fun hfits => houtside (fitsOperand_iff.1 hfits)
  simp only [packOne, hvalue, hfits, hcode, bind, Except.bind, decide_false, Bool.or_false,
    Bool.false_eq_true, if_false]
  rfl

theorem packAll_settled {rows : List TextRow} {instructions : List Instruction} {labels : Labels}
    (h : Gives rows instructions)
    (hpack : ∀ row ∈ rows, ∀ instruction, row.Instructs instruction →
      ∃ word, packOne labels instruction = .ok word) :
    ∃ words, packAll labels instructions = .ok words := by
  induction h with
  | nil => exact ⟨[], rfl⟩
  | cons hrow _ ih =>
      obtain ⟨hfirst, hrest⟩ := List.forall_mem_cons.1 hpack
      obtain ⟨word, hword⟩ := hfirst _ hrow
      obtain ⟨words, hwords⟩ := ih hrest
      exact ⟨word :: words, by simp [packAll, hword, hwords, bind, Except.bind, pure, Except.pure]⟩

theorem packAll_error {before after : List TextRow} {row : TextRow}
    {instructions : List Instruction} {labels : Labels} {error : AssembleError}
    (h : Gives (before ++ row :: after) instructions)
    (hbefore : ∀ row ∈ before, ∀ instruction, row.Instructs instruction →
      ∃ word, packOne labels instruction = .ok word)
    (hrow : ∀ instruction, row.Instructs instruction →
      packOne labels instruction = .error error) :
    packAll labels instructions = .error error := by
  induction before generalizing instructions with
  | nil =>
      cases h with
      | cons hfirst _ => simp [packAll, hrow _ hfirst, bind, Except.bind]
  | cons first rest ih =>
      cases h with
      | cons hfirst hrest =>
          obtain ⟨hhead, htail⟩ := List.forall_mem_cons.1 hbefore
          obtain ⟨word, hword⟩ := hhead _ hfirst
          simp [packAll, hword, ih hrest htail, bind, Except.bind]

/-! ## The whole text -/

theorem assemble_eq (source : String) :
    assemble source = (do
      let lines ← readRows (ofText source)
      let collected ← collect lines
      let memory ← pack collected.1 collected.2
      return { memory, labels := collected.2, instructions := collected.1 }) := by
  rw [← readAll_eq_readRows]
  rfl

theorem assemble_tabled {source : String} (hshort : ∀ row ∈ ofText source, row.fields.length ≤ 3)
    (horder : InOrder (ofText source)) (hfits : (ofText source).length ≤ 1000) :
    ∃ (instructions : Array Instruction) (labels : Labels),
      Tabled (ofText source) instructions.toList labels ∧
        assemble source = (packAll labels instructions.toList).map fun words =>
          { memory := words.toArray, labels, instructions } := by
  obtain ⟨done, labels, hgives, hcollected, hcollect⟩ := collect_rows horder
  refine ⟨done, labels, ⟨hgives, hcollected, hfits⟩, ?_⟩
  rw [if_neg (Nat.not_lt.2 hfits)] at hcollect
  rw [assemble_eq, readRows_short hshort]
  simp only [bind, Except.bind, hcollect, pack]
  cases packAll labels done.toList <;> rfl

theorem assemble_accepted {source : String} (h : Accepted (ofText source)) :
    ∃ image, assemble source = .ok image := by
  obtain ⟨instructions, labels, htabled, hassemble⟩ :=
    assemble_tabled h.short h.inOrder h.fits
  obtain ⟨words, hwords⟩ := packAll_settled htabled.gives fun row hrow _ hinstructs =>
    htabled.packOne_settled (h.settled row hrow) hinstructs
  exact ⟨_, by rw [hassemble, hwords]; rfl⟩

theorem assemble_rejected {source : String} {error : AssembleError}
    (h : Rejected (ofText source) error) : assemble source = .error error := by
  cases h with
  | crowded split short long =>
      rw [assemble_eq, split, readRows_crowded short long]
      rfl
  | misread short split inOrder wrong =>
      rw [assemble_eq, readRows_short short, split]
      simp only [bind, Except.bind, collect_misread inOrder wrong]
  | repeated short split inOrder reads mem leads =>
      rw [assemble_eq, readRows_short short, split]
      simp only [bind, Except.bind, collect_repeated inOrder reads mem leads]
  | tooLarge short inOrder large =>
      obtain ⟨done, labels, -, -, hcollect⟩ := collect_rows inOrder
      rw [if_pos large] at hcollect
      rw [assemble_eq, readRows_short short]
      simp only [bind, Except.bind, hcollect]
  | undefined short inOrder fits split settled reads unknown =>
      obtain ⟨instructions, labels, htabled, hassemble⟩ := assemble_tabled short inOrder fits
      rw [hassemble, packAll_error (split ▸ htabled.gives)
        (fun row hrow _ => htabled.packOne_settled (settled row hrow))
        fun _ => htabled.packOne_undefined reads unknown]
      rfl
  | overflow short inOrder fits split settled reads code resolves outside =>
      obtain ⟨instructions, labels, htabled, hassemble⟩ := assemble_tabled short inOrder fits
      rw [hassemble, packAll_error (split ▸ htabled.gives)
        (fun row hrow _ => htabled.packOne_settled (settled row hrow))
        fun _ => htabled.packOne_overflow reads code resolves outside]
      rfl

theorem exists_first {rows : List TextRow} {P : TextRow → Prop} (h : ¬ ∀ row ∈ rows, P row) :
    ∃ before row after, rows = before ++ row :: after ∧ (∀ row ∈ before, P row) ∧ ¬ P row := by
  classical
  obtain ⟨row, hfind⟩ : ∃ row, rows.find? (fun row => decide (¬ P row)) = some row := by
    by_contra hnone
    refine h fun row hrow => ?_
    have hall := List.find?_eq_none.1 (Option.eq_none_iff_forall_ne_some.2 fun row hfound =>
      hnone ⟨row, hfound⟩)
    simpa using hall row hrow
  obtain ⟨hrow, before, after, hsplit, hbefore⟩ := List.find?_eq_some_iff_append.1 hfind
  exact ⟨before, row, after, hsplit, by simpa using hbefore, by simpa using hrow⟩

/-- Rows that are not in order have a first one of the wrong form or with a label that was
there before. -/
theorem exists_disorder {rows : List TextRow} (h : ¬ InOrder rows) :
    ∃ before row after, rows = before ++ row :: after ∧ InOrder before ∧
      ((∃ error, row.fieldLine.Misread error) ∨
        ∃ label op operand first, row.Reads (some label) op operand ∧ first ∈ before ∧
          first.leading? = some label) := by
  induction rows using List.reverseRecOn with
  | nil => exact absurd ⟨by simp, by simp⟩ h
  | append_singleton rows last ih =>
      by_cases hrows : InOrder rows
      · refine ⟨rows, last, [], rfl, hrows, ?_⟩
        rcases last.fieldLine.reads_or_misread with ⟨label, op, operand, hreads⟩ | hwrong
        · right
          have hshaped : ∀ row ∈ rows ++ [last], ∃ label op operand, row.Reads label op operand := by
            intro row hrow
            rcases List.mem_append.1 hrow with hrow | hrow
            · exact hrows.shaped row hrow
            · obtain rfl := List.mem_singleton.1 hrow
              exact ⟨label, op, operand, hreads⟩
          have hleads : last.leading? = label := Reads.leading? hreads
          have htwice : ¬ ((rows ++ [last]).filterMap leading?).Nodup := fun hnodup =>
            h ⟨hshaped, hnodup⟩
          cases label with
          | none => exact absurd (by simpa [hleads] using hrows.distinct) htwice
          | some label =>
              have hmem : label ∈ rows.filterMap leading? := by
                by_contra hnot
                refine htwice ?_
                rw [List.filterMap_append]
                exact List.nodup_append'.2 ⟨hrows.distinct, by simp [hleads],
                  by simpa [hleads] using hnot⟩
              obtain ⟨first, hfirst, hlabel⟩ := List.mem_filterMap.1 hmem
              exact ⟨label, op, operand, first, hreads, hfirst, hlabel⟩
        · exact .inl hwrong
      · obtain ⟨before, row, after, rfl, hbefore, hwrong⟩ := ih hrows
        exact ⟨before, row, after ++ [last], by simp, hbefore, hwrong⟩

theorem not_settled_cases {rows : List TextRow} (hfits : rows.length ≤ 1000) {row : TextRow}
    (h : ¬ Settled rows row) :
    (∃ label op name, row.Reads label op (.label name) ∧ name ∉ rows.filterMap leading?) ∨
      ∃ label op operand, ∃ value : Word, row.Reads label op operand ∧ op ≠ .dat ∧
        Resolves rows operand value.toInt ∧ ¬ (0 ≤ value.toInt ∧ value.toInt < 1000) := by
  by_contra hnone
  rw [not_or] at hnone
  refine h ⟨fun label op name hreads => ?_, fun label op operand value hreads hcode hresolves => ?_⟩
  · by_contra hnot
    exact hnone.1 ⟨label, op, name, hreads, hnot⟩
  · by_contra houtside
    cases hresolves with
    | none => exact houtside ⟨le_rfl, by norm_num⟩
    | value n => exact hnone.2 ⟨label, op, _, n, hreads, hcode, .value n, houtside⟩
    | label hrow _ =>
        have hlt := (List.getElem?_eq_some_iff.1 hrow).1
        exact houtside ⟨by omega, by omega⟩

theorem accepted_or_rejected (rows : List TextRow) :
    Accepted rows ∨ ∃ error, Rejected rows error := by
  by_cases hshort : ∀ row ∈ rows, row.fields.length ≤ 3
  · by_cases horder : InOrder rows
    · by_cases hfits : rows.length ≤ 1000
      · by_cases hsettled : ∀ row ∈ rows, Settled rows row
        · exact .inl ⟨hshort, horder, hfits, hsettled⟩
        · obtain ⟨before, row, after, hsplit, hbefore, hrow⟩ := exists_first hsettled
          rcases not_settled_cases hfits hrow with
            ⟨label, op, name, hreads, hunknown⟩ |
            ⟨label, op, operand, value, hreads, hcode, hresolves, houtside⟩
          · exact .inr ⟨_, .undefined hshort horder hfits hsplit hbefore hreads hunknown⟩
          · exact .inr ⟨_, .overflow hshort horder hfits hsplit hbefore hreads hcode hresolves
              houtside⟩
      · exact .inr ⟨_, .tooLarge hshort horder (Nat.not_le.1 hfits)⟩
    · obtain ⟨before, row, after, hsplit, hbefore, hwrong⟩ := exists_disorder horder
      rcases hwrong with ⟨error, hwrong⟩ | ⟨label, op, operand, first, hreads, hmem, hleads⟩
      · exact .inr ⟨_, .misread hshort hsplit hbefore hwrong⟩
      · exact .inr ⟨_, .repeated hshort hsplit hbefore hreads hmem hleads⟩
  · obtain ⟨before, row, after, hsplit, hbefore, hrow⟩ := exists_first hshort
    exact .inr ⟨_, .crowded hsplit hbefore (Nat.not_le.1 hrow)⟩

/-- A text is assembled exactly if its rows are accepted, and refused for exactly the fault
that they are rejected for. -/
theorem assemble_verdict (source : String) :
    ((∃ image, assemble source = .ok image) ↔ Accepted (ofText source)) ∧
      ∀ error, assemble source = .error error ↔ Rejected (ofText source) error := by
  rcases accepted_or_rejected (ofText source) with haccepted | ⟨error, hrejected⟩
  · obtain ⟨image, hok⟩ := assemble_accepted haccepted
    refine ⟨iff_of_true ⟨image, hok⟩ haccepted, fun error => ?_⟩
    refine iff_of_false (by simp [hok]) fun hrejected => ?_
    simp [assemble_rejected hrejected] at hok
  · have herror := assemble_rejected hrejected
    refine ⟨iff_of_false (by simp [herror]) fun haccepted => ?_, fun other => ⟨?_, ?_⟩⟩
    · obtain ⟨image, hok⟩ := assemble_accepted haccepted
      simp [herror] at hok
    · intro hother
      obtain rfl : error = other := Except.error.inj (herror.symm.trans hother)
      exact hrejected
    · exact assemble_rejected

end Image

end LittleMan
