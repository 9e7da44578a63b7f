import LittleMan.Proofs.Assembly.Reading

/-!
# Instructions assembled

The instructions of a text come out in one of three ways: two of them have the same
label, or they are more than the machine can address, or they are put into a table of
labels and packed into words.  `Image.collect_cases` tells which, and
`Image.packAll_eq` says what the words are.
-/

namespace LittleMan

/-! ## Instructions of a sheet -/

/-- An instruction without the number of its line. -/
def Instruction.parts (instruction : Instruction) : Option String × Opcode × Operand :=
  (instruction.label, instruction.opcode, instruction.operand)

namespace SheetLine

/-- The instruction on a line of a sheet. -/
def parts : SheetLine → Option String × Opcode × Operand
  | .code label op operand => (label, op, operand.elim .none .label)
  | .data declaration => (some declaration.label, .dat, .value declaration.initial)
  | .raw _ | .note _ => (none, .nop, .none)

/-- The operation has an operand exactly if it takes one. -/
def isLegal : SheetLine → Bool
  | .code _ op operand => op.takesAddress == operand.isSome
  | .data _ => true
  | .raw _ | .note _ => false

end SheetLine

namespace Instruction

theorem ofLine_fields {line : FieldLine} {word : SheetLine} (hfields : line.fields = word.fields)
    (hlegal : word.isLegal = true) :
    ∃ instruction, ofLine line = .ok instruction ∧ instruction.parts = word.parts := by
  cases word with
  | code label op operand =>
      simp only [SheetLine.isLegal, beq_iff_eq] at hlegal
      refine ⟨⟨label, op, operand.elim .none .label, line.line⟩, ?_, rfl⟩
      cases label <;> cases operand <;>
        simp_all [ofLine, SheetLine.fields, splitLabel, splitOpcode, readOperand, checkOperand,
          bind, Except.bind, pure, Except.pure]
  | data declaration =>
      refine ⟨⟨some declaration.label, .dat, .value declaration.initial, line.line⟩, ?_, rfl⟩
      simp [ofLine, hfields, SheetLine.fields, splitLabel, splitOpcode, readOperand, checkOperand,
        bind, Except.bind, pure, Except.pure]
  | raw text => simp [SheetLine.isLegal] at hlegal
  | note text => simp [SheetLine.isLegal] at hlegal

theorem ofLine_words {lines : List FieldLine} {words : List SheetLine}
    (hfields : lines.map FieldLine.fields = words.map SheetLine.fields)
    (hlegal : ∀ word ∈ words, word.isLegal = true) :
    ∃ instructions,
      List.Forall₂ (fun line instruction => ofLine line = .ok instruction) lines instructions ∧
      instructions.map parts = words.map SheetLine.parts := by
  induction words generalizing lines with
  | nil =>
      obtain rfl : lines = [] := by simpa using hfields
      exact ⟨[], .nil, rfl⟩
  | cons word rest ih =>
      obtain ⟨line, lines, rfl⟩ : ∃ line lines', lines = line :: lines' := by
        cases lines with
        | nil => simp at hfields
        | cons line lines => exact ⟨line, lines, rfl⟩
      simp only [List.map_cons, List.cons.injEq] at hfields
      obtain ⟨hword, hrest⟩ := List.forall_mem_cons.1 hlegal
      obtain ⟨instruction, hread, hparts⟩ := ofLine_fields hfields.1 hword
      obtain ⟨instructions, hreads, hall⟩ := ih hfields.2 hrest
      exact ⟨instruction :: instructions, .cons hread hreads, by simp [hparts, hall]⟩

end Instruction

/-! ## The table of labels -/

namespace Labels

theorem lookup_entry (key name : String) (value : Nat) (rest : List (String × Nat)) :
    ((key, value) :: rest).lookup name = if name = key then some value else rest.lookup name := by
  rw [List.lookup_cons]
  by_cases h : name = key
  · simp [h]
  · simp [beq_false_of_ne h, h]

theorem lookup_insertEntry (name other : String) (address : Nat) (entries : List (String × Nat)) :
    (insertEntry name address entries).lookup other =
      if other = name then some address else entries.lookup other := by
  induction entries with
  | nil => simp [insertEntry, lookup_entry]
  | cons entry rest ih =>
      obtain ⟨key, value⟩ := entry
      simp only [insertEntry]
      split
      · rw [lookup_entry]
      split
      · rename_i heq
        subst heq
        rw [lookup_entry, lookup_entry]
        split <;> rfl
      · rename_i hne
        rw [lookup_entry, lookup_entry, ih]
        by_cases hkey : other = key
        · subst hkey
          simp [Ne.symm hne]
        · simp [hkey]

@[simp] theorem find?_empty (name : String) : empty.find? name = none := rfl

theorem find?_insert (labels : Labels) (name other : String) (address : Nat) :
    (labels.insert name address).find? other =
      if other = name then some address else labels.find? other :=
  lookup_insertEntry name other address labels.entries

theorem mem_entries_iff (labels : Labels) {name : String} {address : Nat} :
    (name, address) ∈ labels.entries ↔ labels.find? name = some address := by
  obtain ⟨entries, hsorted⟩ := labels
  show _ ∈ entries ↔ entries.lookup name = some address
  induction entries with
  | nil => simp
  | cons entry rest ih =>
      obtain ⟨key, value⟩ := entry
      obtain ⟨hkey, hrest⟩ := List.pairwise_cons.1 hsorted
      rw [List.mem_cons, ih hrest, lookup_entry]
      by_cases h : name = key
      · subst h
        have hnone : rest.lookup name = none := by
          rw [List.lookup_eq_none_iff]
          intro entry hentry
          have hlt : name < entry.1 := hkey entry hentry
          have hne : name ≠ entry.1 := fun heq => String.lt_irrefl entry.1 (heq ▸ hlt)
          simpa using hne
        simp [hnone, eq_comm]
      · simp [h]

/-- The table has the labels of the instructions, each with its address. -/
def Indexes (labels : Labels) (instructions : List Instruction) : Prop :=
  ∀ name address, labels.find? name = some address ↔
    ∃ instruction, instructions[address]? = some instruction ∧ instruction.label = some name

theorem Indexes.lt_length {labels : Labels} {instructions : List Instruction}
    (h : labels.Indexes instructions) {name : String} {address : Nat}
    (hfind : labels.find? name = some address) : address < instructions.length := by
  obtain ⟨instruction, hget, -⟩ := (h name address).1 hfind
  exact (List.getElem?_eq_some_iff.1 hget).1

theorem Indexes.find?_eq_none_iff {labels : Labels} {instructions : List Instruction}
    (h : labels.Indexes instructions) {name : String} :
    labels.find? name = none ↔ name ∉ instructions.filterMap Instruction.label := by
  rw [← not_iff_not, not_not, ← ne_eq, Option.ne_none_iff_exists', List.mem_filterMap]
  constructor
  · rintro ⟨address, hfind⟩
    obtain ⟨instruction, hget, hlabel⟩ := (h name address).1 hfind
    exact ⟨instruction, List.mem_of_getElem? hget, hlabel⟩
  · rintro ⟨instruction, hmem, hlabel⟩
    obtain ⟨address, hget⟩ := List.getElem?_of_mem hmem
    exact ⟨address, (h name address).2 ⟨instruction, hget, hlabel⟩⟩

theorem Indexes.push_unlabelled {labels : Labels} {instructions : List Instruction}
    (h : labels.Indexes instructions) {instruction : Instruction}
    (hlabel : instruction.label = none) : labels.Indexes (instructions ++ [instruction]) := by
  intro name address
  rw [h name address]
  refine exists_congr fun other => and_congr_left fun hother => ?_
  rw [List.getElem?_append]
  split
  · rfl
  · rename_i hge
    have hnone : instructions[address]? = none := List.getElem?_eq_none (Nat.not_lt.1 hge)
    cases address - instructions.length with
    | zero =>
        simp only [List.getElem?_cons_zero, hnone, Option.some.injEq, reduceCtorEq, false_iff]
        rintro rfl
        simp [hlabel] at hother
    | succ n => simp [hnone]

theorem Indexes.push_labelled {labels : Labels} {instructions : List Instruction}
    (h : labels.Indexes instructions) {instruction : Instruction} {label : String}
    (hlabel : instruction.label = some label) (hnew : labels.find? label = none) :
    (labels.insert label instructions.length).Indexes (instructions ++ [instruction]) := by
  intro name address
  rw [find?_insert]
  by_cases hname : name = label
  · subst hname
    have hfresh := h.find?_eq_none_iff.1 hnew
    simp only [if_true, Option.some.injEq]
    constructor
    · rintro rfl
      exact ⟨instruction, by simp, hlabel⟩
    · rintro ⟨other, hget, hother⟩
      rw [List.getElem?_append] at hget
      split at hget
      · exact absurd (List.mem_filterMap.2 ⟨other, List.mem_of_getElem? hget, hother⟩) hfresh
      · rename_i hge
        have hlt := (List.getElem?_eq_some_iff.1 hget).1
        simp only [List.length_singleton] at hlt
        omega
  · rw [if_neg hname, h name address]
    refine exists_congr fun other => and_congr_left fun hother => ?_
    rw [List.getElem?_append]
    split
    · rfl
    · rename_i hge
      have hnone : instructions[address]? = none := List.getElem?_eq_none (Nat.not_lt.1 hge)
      cases address - instructions.length with
      | zero =>
          simp only [List.getElem?_cons_zero, hnone, Option.some.injEq, reduceCtorEq, false_iff]
          rintro rfl
          simp [hlabel, Ne.symm hname] at hother
      | succ n => simp [hnone]

end Labels

/-! ## Collecting -/

namespace Image

/-- The instructions and their labels, as long as no label comes twice. -/
structure Collected (instructions : List Instruction) (labels : Labels) : Prop where
  indexes : labels.Indexes instructions
  nodup : (instructions.filterMap Instruction.label).Nodup

theorem collected_nil : Collected [] .empty :=
  ⟨by simp [Labels.Indexes], by simp⟩

/-- Adding an instruction adds its label, or finds the label in the table. -/
theorem addLabel_cases {done : Array Instruction} {labels : Labels}
    (h : Collected done.toList labels) (instruction : Instruction) :
    (∃ labels', addLabel done labels instruction = .ok labels' ∧
        Collected (done.push instruction).toList labels') ∨
      ((∃ label first, addLabel done labels instruction =
          .error (.duplicateLabel instruction.line label first)) ∧
        ¬ ((done.push instruction).toList.filterMap Instruction.label).Nodup) := by
  unfold addLabel
  rw [Array.toList_push, List.filterMap_append]
  cases hlabel : instruction.label with
  | none =>
      refine .inl ⟨labels, rfl, h.indexes.push_unlabelled hlabel, ?_⟩
      simpa [hlabel] using h.nodup
  | some label =>
      cases hfind : labels.find? label with
      | none =>
          have hfresh := h.indexes.find?_eq_none_iff.1 hfind
          refine .inl ⟨labels.insert label done.size, by simp [hfind], ?_, ?_⟩
          · rw [← Array.length_toList]
            exact h.indexes.push_labelled hlabel hfind
          · rw [List.filterMap_append]
            refine List.nodup_append'.2 ⟨h.nodup, by simp [hlabel], ?_⟩
            simpa [hlabel] using hfresh
      | some first =>
          refine .inr ⟨⟨label, (done[first]?).elim 0 Instruction.line, by simp [hfind]⟩, ?_⟩
          have hmem : label ∈ done.toList.filterMap Instruction.label := by
            by_contra hnot
            simp [h.indexes.find?_eq_none_iff.2 hnot] at hfind
          intro hnodup
          have hdisjoint := (List.nodup_append'.1 hnodup).2.2
          exact hdisjoint hmem (by simp [hlabel])

/-- The ways in which the instructions of a text can come out. -/
inductive Collecting (instructions : List Instruction) :
    Except AssembleError (Array Instruction × Labels) → Prop
  | ok {labels : Labels} (collected : Collected instructions labels)
      (fits : instructions.length ≤ memoryLimit) :
      Collecting instructions (.ok (instructions.toArray, labels))
  | tooLarge (large : memoryLimit < instructions.length)
      (nodup : (instructions.filterMap Instruction.label).Nodup) :
      Collecting instructions (.error (.programTooLarge instructions.length))
  | duplicate (line : Nat) (label : String) (firstLine : Nat)
      (twice : ¬ (instructions.filterMap Instruction.label).Nodup) :
      Collecting instructions (.error (.duplicateLabel line label firstLine))

theorem collectFrom_cases {lines : List FieldLine} {instructions : List Instruction}
    (hread : List.Forall₂ (fun line instruction => Instruction.ofLine line = .ok instruction)
      lines instructions)
    {done : Array Instruction} {labels : Labels} (h : Collected done.toList labels) :
    Collecting (done.toList ++ instructions) (collectFrom done labels lines) := by
  induction hread generalizing done labels with
  | nil =>
      rw [collectFrom, List.append_nil]
      split
      · rename_i hlarge
        rw [← Array.length_toList] at hlarge ⊢
        exact .tooLarge hlarge h.nodup
      · rename_i hlarge
        rw [← Array.length_toList, Nat.not_lt] at hlarge
        exact .ok h hlarge
  | @cons line instruction lines instructions hline hrest ih =>
      have hpush : (done.push instruction).toList ++ instructions =
          done.toList ++ instruction :: instructions := by
        simp
      simp only [collectFrom, hline]
      rcases addLabel_cases h instruction with ⟨labels', hadd, hnext⟩ | ⟨⟨label, first, hadd⟩, htwice⟩
      · simp only [hadd]
        exact hpush ▸ ih hnext
      · simp only [hadd]
        refine .duplicate _ _ _ fun hnodup => htwice ?_
        rw [← hpush, List.filterMap_append] at hnodup
        exact (List.nodup_append'.1 hnodup).1

theorem collect_cases {lines : List FieldLine} {instructions : List Instruction}
    (hread : List.Forall₂ (fun line instruction => Instruction.ofLine line = .ok instruction)
      lines instructions) : Collecting instructions (collect lines) :=
  collectFrom_cases hread collected_nil

/-! ## Packing -/

/-- The operand of an instruction as a word, once the labels are known. -/
def resolve (labels : Labels) : Operand → Word
  | .none => 0
  | .value n => n
  | .label name => Word.ofAddress ((labels.find? name).getD 0)

/-- Instructions whose operands are known labels, or which are data. -/
def Resolved (labels : Labels) (instruction : Instruction) : Prop :=
  match instruction.operand with
  | .none => True
  | .value _ => instruction.opcode = .dat
  | .label name => ∃ address, labels.find? name = some address ∧ address < memoryLimit

theorem fitsOperand_ofAddress {address : Nat} (h : address < memoryLimit) :
    fitsOperand (Word.ofAddress address) = true := by
  have hlt : address < 1000 := h
  have hvalue : (Word.ofAddress address).toInt = address := Word.toInt_ofNat (by omega)
  simp only [fitsOperand, hvalue, Opcode.operandLimit, Bool.and_eq_true, decide_eq_true_eq]
  omega

theorem packOne_eq {labels : Labels} {instruction : Instruction}
    (h : Resolved labels instruction) :
    packOne labels instruction =
      .ok (instruction.opcode.encode (resolve labels instruction.operand)) := by
  obtain ⟨label, opcode, operand, line⟩ := instruction
  cases operand with
  | none =>
      have hzero : fitsOperand 0 = true := by decide
      simp [packOne, operandValue, resolve, hzero, pure, Except.pure, bind, Except.bind]
  | value n =>
      obtain rfl : opcode = .dat := h
      rfl
  | label name =>
      obtain ⟨address, hfind, hlt⟩ := h
      simp [packOne, operandValue, resolve, hfind, fitsOperand_ofAddress hlt, pure, Except.pure,
        bind, Except.bind]

theorem packAll_eq {labels : Labels} {instructions : List Instruction}
    (h : ∀ instruction ∈ instructions, Resolved labels instruction) :
    packAll labels instructions = .ok (instructions.map fun instruction =>
      instruction.opcode.encode (resolve labels instruction.operand)) := by
  induction instructions with
  | nil => rfl
  | cons instruction rest ih =>
      obtain ⟨hhead, hrest⟩ := List.forall_mem_cons.1 h
      simp [packAll, packOne_eq hhead, ih hrest, bind, Except.bind, pure, Except.pure]

end Image

/-! ## Packed words -/

namespace Opcode

theorem decode_ofNat {op : Opcode} {digit operand : Nat} (hdigit : digit < 10)
    (hoperand : operand < 1000) (hop : ofDigit? digit operand = some op) :
    decode (Int64.ofNat (digit * 1000 + operand)) = some (op, operand) := by
  have haddress : Word.address? (Int64.ofNat (digit * 1000 + operand)) =
      some (digit * 1000 + operand) :=
    Word.address?_ofAddress (by omega)
  have hdiv : (digit * 1000 + operand) / 1000 = digit := by omega
  have hmod : (digit * 1000 + operand) % 1000 = operand := by omega
  have hlt : digit * 1000 + operand < 10000 := by omega
  unfold decode
  rw [haddress]
  simp only [wordLimit, operandLimit, hdiv, hmod, hop, hlt, if_true, Option.map_some]

/-- An operation on an address is packed so that it can be read back. -/
theorem decode_encode_ofAddress {op : Opcode} (h : op.takesAddress = true) {address : Nat}
    (hlt : address < 1000) :
    decode (op.encode (Word.ofAddress address)) = some (op, address) := by
  have hsum : ∀ n : Nat, Int64.ofNat n + Word.ofAddress address = Int64.ofNat (n + address) :=
    fun n => (Int64.ofNat_add n address).symm
  cases op <;> simp only [takesAddress, Bool.false_eq_true] at h <;>
    simp only [encode, packing?, hsum, operandLimit] <;>
    exact decode_ofNat (by decide) hlt rfl

theorem decode_encode_fixed {op : Opcode} {digit fixed : Nat}
    (h : op.packing? = some (digit, some fixed)) (hdigit : digit < 10) (hfixed : fixed < 1000)
    (hop : ofDigit? digit fixed = some op) (operand : Word) :
    decode (op.encode operand) = some (op, fixed) := by
  unfold encode
  rw [h]
  exact decode_ofNat hdigit hfixed hop

/-- So is an operation that has no address. -/
theorem decode_encode_bare {op : Opcode} (h : op.takesAddress = false) (hdat : op ≠ .dat)
    (operand : Word) : ∃ n, decode (op.encode operand) = some (op, n) := by
  cases op <;> simp only [takesAddress, Bool.true_eq_false, ne_eq, not_true_eq_false] at h hdat <;>
    exact ⟨_, decode_encode_fixed rfl (by decide) (by decide) rfl operand⟩

end Opcode
end LittleMan
