import LittleMan.Proofs.Assembly.Acceptance

/-!
# Images are faithful to their instructions

An image has three views of one program: the instructions, the table of their labels, and the
packed words.  The table is built while the instructions are read, the words are packed
afterwards, and `labelAt?` looks at the instructions and not at the table.  Here the views are
shown to agree: a label is found at an address exactly if the instruction there has it, and the
word at an address is taken apart into the operation of the instruction there and the number
that its operand stands for.

What an image is made of is read off the passes of the assembler: the rows that are collected
give the table, and each word comes from one call of `packOne`.
-/

namespace LittleMan

namespace Opcode

/-- A word that is packed with an operand in range is read back as its operation, and as its
operand too if the operation takes one. -/
theorem decode_encode {op : Opcode} {value : Word} (hcode : op ≠ .dat)
    (hfits : Image.fitsOperand value = true) :
    ∃ operand, decode (op.encode value) = some (op, operand) ∧
      (op.takesAddress = true → (operand : Int) = value.toInt) := by
  obtain ⟨hlow, hhigh⟩ := Image.fitsOperand_iff.1 hfits
  cases htakes : op.takesAddress with
  | false =>
      obtain ⟨operand, hdecode⟩ := decode_encode_bare htakes hcode value
      exact ⟨operand, hdecode, by simp⟩
  | true =>
      have hlt : value.toInt.toNat < 1000 := by omega
      have hvalue : Word.ofAddress value.toInt.toNat = value := by
        rw [← Int64.toInt_inj, Word.ofAddress, Word.toInt_ofNat (by omega),
          Int.toNat_of_nonneg hlow]
      refine ⟨value.toInt.toNat, ?_, fun _ => Int.toNat_of_nonneg hlow⟩
      rw [← decode_encode_ofAddress htakes hlt, hvalue]

end Opcode

namespace Image

/-! ## Packed words -/

theorem packOne_ok {labels : Labels} {instruction : Instruction} {word : Word}
    (h : packOne labels instruction = .ok word) :
    ∃ value, operandValue labels instruction = .ok value ∧
      (instruction.opcode = .dat ∨ fitsOperand value = true) ∧
      word = instruction.opcode.encode value := by
  cases hvalue : operandValue labels instruction with
  | error error => simp [packOne, hvalue, bind, Except.bind] at h
  | ok value =>
      by_cases hfits : instruction.opcode = .dat ∨ fitsOperand value = true
      · refine ⟨value, rfl, hfits, ?_⟩
        simpa [packOne, hvalue, hfits, bind, Except.bind, pure, Except.pure] using h.symm
      · simp [packOne, hvalue, hfits, bind, Except.bind, throw, throwThe,
          MonadExceptOf.throw] at h

theorem packAll_ok {labels : Labels} {instructions : List Instruction} {words : List Word}
    (h : packAll labels instructions = .ok words) :
    List.Forall₂ (fun instruction word => packOne labels instruction = .ok word)
      instructions words := by
  induction instructions generalizing words with
  | nil =>
      obtain rfl : [] = words := Except.ok.inj h
      exact .nil
  | cons instruction rest ih =>
      cases hword : packOne labels instruction with
      | error error => simp [packAll, hword, bind, Except.bind] at h
      | ok word =>
          cases hmore : packAll labels rest with
          | error error => simp [packAll, hword, hmore, bind, Except.bind] at h
          | ok more =>
              obtain rfl : word :: more = words := by
                simpa [packAll, hword, hmore, bind, Except.bind, pure, Except.pure] using h
              exact .cons hword (ih hmore)

/-! ## Images -/

/-- The number that an operand stands for in an image: itself, or the address of its label. -/
inductive Means (image : Image) : Operand → Int → Prop
  | value (n : Word) : Means image (.value n) n.toInt
  | label {name : String} {address : Nat} (found : image.addressOf? name = some address) :
      Means image (.label name) address

structure Faithful (image : Image) : Prop where
  size : image.memory.size = image.instructions.size
  fits : image.memory.size ≤ 1000
  /-- The table has the labels of the instructions and no others, each with its address. -/
  table : ∀ (label : String) (address : Nat), image.addressOf? label = some address ↔
    ∃ instruction, image.instructions[address]? = some instruction ∧
      instruction.label = some label
  backwards : ∀ (label : String) (address : Nat),
    image.labelAt? address = some label ↔ image.addressOf? label = some address
  distinct : ∀ (label other : String) (address : Nat), image.addressOf? label = some address →
    image.addressOf? other = some address → label = other
  code : ∀ (address : Nat) (instruction : Instruction) (word : Word),
    image.instructions[address]? = some instruction → image.memory[address]? = some word →
    instruction.opcode ≠ .dat →
    ∃ operand, Opcode.decode word = some (instruction.opcode, operand) ∧
      (instruction.opcode.takesAddress = true → image.Means instruction.operand operand)
  data : ∀ (address : Nat) (instruction : Instruction) (word : Word),
    image.instructions[address]? = some instruction → image.memory[address]? = some word →
    instruction.opcode = .dat →
    image.Means instruction.operand word.toInt ∨ (instruction.operand = .none ∧ word = 0)

section

variable {image : Image} {rows : List TextRow}

theorem Tabled.table (h : Tabled rows image.instructions.toList image.labels) (label : String)
    (address : Nat) : image.addressOf? label = some address ↔
      ∃ instruction, image.instructions[address]? = some instruction ∧
        instruction.label = some label := by
  rw [addressOf?, h.collected.indexes label address]
  simp only [Array.getElem?_toList]

theorem Tabled.backwards (h : Tabled rows image.instructions.toList image.labels)
    (label : String) (address : Nat) :
    image.labelAt? address = some label ↔ image.addressOf? label = some address := by
  rw [h.table, labelAt?, Option.bind_eq_some_iff]

/-- An operand is looked up as the number that it stands for, and none counts as zero. -/
theorem Tabled.means (h : Tabled rows image.instructions.toList image.labels)
    {instruction : Instruction} {value : Word}
    (hvalue : operandValue image.labels instruction = .ok value) :
    image.Means instruction.operand value.toInt ∨ (instruction.operand = .none ∧ value = 0) := by
  have hresolves := h.operandValue_iff.1 hvalue
  generalize hn : value.toInt = n at hresolves
  generalize instruction.operand = operand at hresolves
  cases hresolves with
  | none => exact .inr ⟨rfl, Word.eq_zero_iff.2 hn⟩
  | value m => exact .inl (.value m)
  | label hrow hleads => exact .inl (.label (h.find?_iff.2 ⟨_, hrow, hleads⟩))

theorem Tabled.operand_ne_none (h : Tabled rows image.instructions.toList image.labels)
    {address : Nat} {instruction : Instruction}
    (hget : image.instructions[address]? = some instruction)
    (htakes : instruction.opcode.takesAddress = true) : instruction.operand ≠ .none := by
  rw [← Array.getElem?_toList] at hget
  obtain ⟨hlt, hinstruction⟩ := List.getElem?_eq_some_iff.1 hget
  obtain ⟨label, op, operand, hreads, hreading⟩ :=
    (List.forall₂_iff_get.1 h.gives).2 address (h.gives.length_eq ▸ hlt) hlt
  rw [List.get_eq_getElem, hinstruction] at hreading
  rw [hreading] at htakes ⊢
  rintro rfl
  have hadmits := hreads.admits
  simp only [Opcode.Admits, if_true] at hadmits
  simp [hadmits] at htakes

theorem Tabled.faithful (h : Tabled rows image.instructions.toList image.labels)
    (hpack : packAll image.labels image.instructions.toList = .ok image.memory.toList) :
    image.Faithful := by
  have hpacked := packAll_ok hpack
  have hsize : image.memory.size = image.instructions.size := by
    simpa using hpacked.length_eq.symm
  -- Each word comes from the operand of the instruction at its address.
  have hword : ∀ {address : Nat} {instruction : Instruction} {word : Word},
      image.instructions[address]? = some instruction → image.memory[address]? = some word →
      ∃ value, operandValue image.labels instruction = .ok value ∧
        (instruction.opcode = .dat ∨ fitsOperand value = true) ∧
        word = instruction.opcode.encode value := by
    intro address instruction word hget hmemory
    rw [← Array.getElem?_toList] at hget hmemory
    obtain ⟨hlt, rfl⟩ := List.getElem?_eq_some_iff.1 hget
    obtain ⟨hlt', rfl⟩ := List.getElem?_eq_some_iff.1 hmemory
    exact packOne_ok ((List.forall₂_iff_get.1 hpacked).2 address hlt hlt')
  refine ⟨hsize, ?_, h.table, h.backwards, fun label other address hlabel hother => ?_,
    fun address instruction word hget hmemory hcode => ?_,
    fun address instruction word hget hmemory hdata => ?_⟩
  · calc image.memory.size = rows.length := by
          rw [hsize, h.gives.length_eq, Array.length_toList]
      _ ≤ 1000 := h.fits
  · have hfirst := (h.backwards label address).2 hlabel
    have hsecond := (h.backwards other address).2 hother
    exact Option.some.inj (hfirst.symm.trans hsecond)
  · obtain ⟨value, hvalue, hfits, rfl⟩ := hword hget hmemory
    obtain ⟨operand, hdecode, hoperand⟩ := Opcode.decode_encode hcode (hfits.resolve_left hcode)
    refine ⟨operand, hdecode, fun htakes => ?_⟩
    rw [hoperand htakes]
    exact (h.means hvalue).resolve_right fun hnone => h.operand_ne_none hget htakes hnone.1
  · obtain ⟨value, hvalue, -, rfl⟩ := hword hget hmemory
    rw [hdata]
    exact h.means hvalue

end

/-- The image of a text has the instructions of its rows, and its table of labels and its words
agree with them. -/
theorem assemble_faithful {source : String} {image : Image} (h : assemble source = .ok image) :
    TextRow.Gives (TextRow.ofText source) image.instructions.toList ∧ image.Faithful := by
  rcases accepted_or_rejected (TextRow.ofText source) with haccepted | ⟨error, hrejected⟩
  · obtain ⟨instructions, labels, htabled, hassemble⟩ :=
      assemble_tabled haccepted.short haccepted.inOrder haccepted.fits
    rw [hassemble] at h
    cases hpack : packAll labels instructions.toList with
    | error error =>
        rw [hpack] at h
        cases h
    | ok words =>
        rw [hpack] at h
        obtain rfl := Except.ok.inj h
        exact ⟨htabled.gives, htabled.faithful hpack⟩
  · rw [assemble_rejected hrejected] at h
    cases h

def countingDown : String :=
  "start LDA n\n BRZ done\n SUB one\n STA n\n BRA start\ndone HLT\n" ++
    "n DAT 3\none DAT 1\nhome DAT done\n"

theorem assemble_faithful_countingDown :
    ∃ image, assemble countingDown = .ok image ∧ image.labelAt? 5 = some "done" ∧
      image.memory[1]? = some 7005 ∧ image.memory[8]? = some 5 ∧ image.Faithful := by
  have hassembled : ((assemble countingDown).toOption.any fun image =>
      image.labelAt? 5 == some "done" && image.memory[1]? == some 7005 &&
        image.memory[8]? == some 5) = true := by
    decide +kernel
  cases h : assemble countingDown with
  | error error =>
      rw [h] at hassembled
      cases hassembled
  | ok image =>
      rw [h] at hassembled
      simp only [Except.toOption, Option.any_some, Bool.and_eq_true, beq_iff_eq] at hassembled
      obtain ⟨⟨hlabel, hbranch⟩, hdata⟩ := hassembled
      exact ⟨image, rfl, hlabel, hbranch, hdata, (assemble_faithful h).2⟩

end Image
end LittleMan
