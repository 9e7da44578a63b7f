import LittleMan.Binary.Image
import LittleMan.Binary.Snapshot
import Mathlib

/-!
# Binary forms

Images and snapshots are told by their bytes, and the bytes tell where they end.
`Decoder.Reads` says this of one decoder and one value: whatever follows the bytes of the
value, the value is read and the rest is handed on, and if the bytes break off anywhere, the
decoder meets the end of its input.  The rule for a sequence, `Decoder.Reads.bind`, is the
only place where a cut is split into a cut of the first part and a cut of the second; every
other form is put together with it.

Numbers are written with 64 bits.  `Image.Fits` and `Snapshot.Fits` say that addresses,
lines and lengths have no more.
-/

namespace LittleMan
namespace Decoder

/-- The bytes are the form of a value, and no shorter bytes are. -/
structure Reads {α : Type} (d : Decoder α) (bytes : Bytes) (a : α) : Prop where
  whole : ∀ rest, d (bytes ++ rest) = .ok (a, rest)
  part : ∀ cut, cut <+: bytes → cut ≠ bytes → d cut = .error .unexpectedEnd

variable {α β : Type}

theorem bind_ok {d : Decoder α} {f : α → Decoder β} {bytes rest : Bytes} {a : α}
    (h : d bytes = .ok (a, rest)) : (d >>= f) bytes = f a rest := by
  change (d bytes >>= fun p => f p.1 p.2) = f a rest
  rw [h]
  rfl

theorem bind_error {d : Decoder α} {f : α → Decoder β} {bytes : Bytes} {error : DecodeError}
    (h : d bytes = .error error) : (d >>= f) bytes = .error error := by
  change (d bytes >>= fun p => f p.1 p.2) = .error error
  rw [h]
  rfl

namespace Reads

theorem pure (a : α) : Reads (Pure.pure a) [] a where
  whole _ := rfl
  part _ hcut hne := absurd (List.prefix_nil.1 hcut) hne

/-- A cut of a sequence cuts the first part, or leaves it whole and cuts the second. -/
theorem bind {d : Decoder α} {f : α → Decoder β} {bytes more : Bytes} {a : α} {b : β}
    (hd : Reads d bytes a) (hf : Reads (f a) more b) : Reads (d >>= f) (bytes ++ more) b where
  whole rest := by
    rw [List.append_assoc, bind_ok (hd.whole _)]
    exact hf.whole rest
  part cut hcut hne := by
    rcases List.prefix_or_prefix_of_prefix hcut (List.prefix_append bytes more) with hfirst | hlast
    · by_cases hbytes : cut = bytes
      · have hmore : [] ≠ more := by
          intro hnil
          rw [← hnil, List.append_nil] at hne
          exact hne hbytes
        have hwhole := hd.whole []
        rw [List.append_nil] at hwhole
        rw [hbytes, bind_ok hwhole]
        exact hf.part [] List.nil_prefix hmore
      · exact bind_error (hd.part cut hfirst hbytes)
    · obtain ⟨second, rfl⟩ := hlast
      rw [bind_ok (hd.whole second)]
      apply hf.part
      · exact (List.prefix_append_right_inj bytes).1 hcut
      · intro hsecond
        exact hne (by rw [hsecond])

theorem map {d : Decoder α} {bytes : Bytes} {a : α} (f : α → β) (hd : Reads d bytes a) :
    Reads (f <$> d) bytes (f a) := by
  have hbind : Reads (d >>= fun x => Pure.pure (f x)) (bytes ++ []) (f a) := hd.bind (pure (f a))
  rw [List.append_nil] at hbind
  exact hbind

end Reads

/-! ## Numbers -/

theorem reads_byte {byte : UInt8} : Reads Decoder.byte [byte] byte where
  whole _ := rfl
  part cut hcut hne := by
    rcases List.prefix_cons_iff.1 hcut with rfl | ⟨tail, rfl, htail⟩
    · rfl
    · rw [List.prefix_nil.1 htail] at hne
      exact absurd rfl hne

theorem reads_varint_last {top size n : Nat} (hn : n < 128) (htop : size = 0 → n ≤ top) :
    Reads (Varint.decodeWithin top (size + 1)) [UInt8.ofNat n] n where
  whole rest := by
    have hbyte : (UInt8.ofNat n).toNat = n := by
      rw [UInt8.toNat_ofNat']
      omega
    have hlast : ¬ (size = 0 ∧ top < n) := by
      intro h
      exact absurd (htop h.1) (by omega)
    simp only [List.cons_append, List.nil_append, Varint.decodeWithin, hbyte, if_pos hn,
      if_neg hlast]
  part cut hcut hne := by
    rcases List.prefix_cons_iff.1 hcut with rfl | ⟨tail, rfl, htail⟩
    · rfl
    · rw [List.prefix_nil.1 htail] at hne
      exact absurd rfl hne

theorem reads_varint_more {top size n : Nat} {bytes : Bytes}
    (h : Reads (Varint.decodeWithin top size) bytes (n / 128)) :
    Reads (Varint.decodeWithin top (size + 1)) (UInt8.ofNat (n % 128 + 128) :: bytes) n := by
  have hbyte : (UInt8.ofNat (n % 128 + 128)).toNat = n % 128 + 128 := by
    rw [UInt8.toNat_ofNat']
    omega
  have hhigh : ¬ n % 128 + 128 < 128 := by omega
  constructor
  · intro rest
    have hvalue : n % 128 + 128 - 128 + 128 * (n / 128) = n := by omega
    simp only [List.cons_append, Varint.decodeWithin, hbyte, if_neg hhigh, h.whole rest,
      Except.map, hvalue]
  · intro cut hcut hne
    rcases List.prefix_cons_iff.1 hcut with rfl | ⟨tail, rfl, htail⟩
    · rfl
    · have htail' : tail ≠ bytes := by
        intro heq
        exact hne (by rw [heq])
      simp only [Varint.decodeWithin, hbyte, if_neg hhigh, h.part tail htail htail', Except.map]

/-- A number is read if it has no more than seven bits for each byte but the last allowed
one, and no more than `top` for that one. -/
theorem reads_varint {top size more n : Nat} (hmore : size ≤ more) (htop : top < 128)
    (hn : n < 128 ^ size * (top + 1)) :
    Reads (Varint.decodeWithin top (size + 1)) (Varint.encodeWithin more n) n := by
  induction size generalizing more n with
  | zero =>
      have hle : n ≤ top := by omega
      have hshort : n < 128 := by omega
      cases more with
      | zero => exact reads_varint_last hshort fun _ => hle
      | succ more =>
          rw [Varint.encodeWithin, if_pos hshort]
          exact reads_varint_last hshort fun _ => hle
  | succ size ih =>
      obtain ⟨more, rfl⟩ : ∃ less, more = less + 1 := ⟨more - 1, by omega⟩
      rw [Varint.encodeWithin]
      split
      next hshort => exact reads_varint_last hshort (by omega)
      next hlong =>
        apply reads_varint_more
        apply ih (Nat.le_of_succ_le_succ hmore)
        rw [Nat.div_lt_iff_lt_mul (by omega)]
        calc n < 128 ^ (size + 1) * (top + 1) := hn
          _ = 128 ^ size * (top + 1) * 128 := by ring

/-- No 64-bit number reaches it. -/
def limit : Nat :=
  0x10000000000000000

theorem reads_nat {n : Nat} (hn : n < limit) : Reads nat (Bytes.ofNat n) n :=
  reads_varint le_rfl (by decide) (by simpa [limit] using hn)

theorem reads_index {n : Nat} (hn : n < 0x100000000) : Reads index (Bytes.ofNat n) n :=
  reads_varint (by decide) (by decide) (by simpa using hn)

theorem zigzag_lt (w : Word) : Bytes.zigzag w < limit := by
  have hlow := w.le_toInt
  have hhigh := w.toInt_lt
  unfold Bytes.zigzag limit
  split <;> omega

theorem ofZigzag_zigzag (w : Word) : Bytes.ofZigzag (Bytes.zigzag w) = w := by
  unfold Bytes.ofZigzag Bytes.zigzag
  split
  next hsign =>
    have heven : 2 * w.toInt.toNat % 2 = 0 := by omega
    have hhalf : ((2 * w.toInt.toNat / 2 : Nat) : Int) = w.toInt := by omega
    rw [if_pos heven, hhalf, Int64.ofInt_toInt]
  next hsign =>
    have hodd : ¬ (2 * (-w.toInt).toNat - 1) % 2 = 0 := by omega
    have hhalf : -(((2 * (-w.toInt).toNat - 1) / 2 : Nat) + 1 : Int) = w.toInt := by omega
    rw [if_neg hodd, hhalf, Int64.ofInt_toInt]

theorem reads_word (w : Word) : Reads word (Bytes.ofWord w) w := by
  have hmap := (reads_nat (zigzag_lt w)).map Bytes.ofZigzag
  rw [ofZigzag_zigzag] at hmap
  exact hmap

/-! ## Texts, lists and choices -/

theorem reads_take (bytes : Bytes) : Reads (take bytes.length) bytes bytes where
  whole rest := by simp [take]
  part cut hcut hne := by
    have hshort : cut.length < bytes.length := by
      apply lt_of_le_of_ne hcut.length_le
      intro hlength
      exact hne (hcut.eq_of_length hlength)
    rw [take, if_neg (by omega)]

theorem fromUTF8_toUTF8 (text : String) :
    String.fromUTF8? { data := text.toUTF8.data.toList.toArray } = some text := by
  rw [Array.toArray_toList]
  simp only [String.fromUTF8?, String.toUTF8_eq_toByteArray, dif_pos text.isValidUTF8]
  rfl

theorem reads_string {text : String} (h : text.utf8ByteSize < limit) :
    Reads string (Bytes.ofString text) text := by
  have hlength : text.toUTF8.data.toList.length < limit := h
  unfold string Bytes.ofString
  apply (reads_nat hlength).bind
  rw [← List.append_nil text.toUTF8.data.toList]
  apply Reads.bind
  · rw [List.append_nil]
    exact reads_take text.toUTF8.data.toList
  · rw [fromUTF8_toUTF8]
    exact .pure text

section Items

variable {item : Decoder α} {form : α → Bytes}

theorem reads_times {items : List α} (h : ∀ a ∈ items, Reads item (form a) a) :
    Reads (times item items.length) (items.flatMap form) items := by
  induction items with
  | nil => exact .pure []
  | cons first items ih =>
      obtain ⟨hfirst, hrest⟩ := List.forall_mem_cons.1 h
      rw [List.flatMap_cons]
      exact hfirst.bind ((ih hrest).map (first :: ·))

theorem reads_list {items : List α} (hlength : items.length < limit)
    (h : ∀ a ∈ items, Reads item (form a) a) :
    Reads (list item) (Bytes.ofList form items) items :=
  (reads_nat hlength).bind (reads_times h)

theorem reads_option {choice : Option α} (h : ∀ a ∈ choice, Reads item (form a) a) :
    Reads (option item) (Bytes.ofOption form choice) choice := by
  cases choice with
  | none => exact reads_byte.bind (.pure none)
  | some a => exact reads_byte.bind ((h a rfl).map some)

theorem reads_variant [DecidableEq α] {all : List α} {a : α} (ha : a ∈ all)
    (hall : all.length ≤ 0x100000000) :
    Reads (variant all) (Bytes.ofNat (all.idxOf a)) a := by
  have hindex : all.idxOf a < all.length := List.idxOf_lt_length_iff.2 ha
  have hget : all[all.idxOf a]? = some a := by
    rw [List.getElem?_eq_getElem hindex, List.getElem_idxOf hindex]
  unfold variant
  rw [← List.append_nil (Bytes.ofNat (all.idxOf a))]
  apply (reads_index (hindex.trans_le hall)).bind
  rw [hget]
  exact .pure a

end Items
end Decoder

open Decoder

/-! ## Images -/

def Operand.Fits : Operand → Prop
  | .label name => name.utf8ByteSize < limit
  | _ => True

instance : DecidablePred Operand.Fits
  | .none => .isTrue trivial
  | .value _ => .isTrue trivial
  | .label name => inferInstanceAs (Decidable (name.utf8ByteSize < limit))

structure Instruction.Fits (instruction : Instruction) : Prop where
  label : ∀ name ∈ instruction.label, name.utf8ByteSize < limit
  operand : instruction.operand.Fits
  line : instruction.line < limit

structure Labels.Fits (labels : Labels) : Prop where
  size : labels.entries.length < limit
  entries : ∀ entry ∈ labels.entries, entry.1.utf8ByteSize < limit ∧ entry.2 < limit

/-- Addresses, lines and lengths have 64 bits.  The words have them by their type. -/
structure Image.Fits (image : Image) : Prop where
  memory : image.memory.size < limit
  labels : image.labels.Fits
  size : image.instructions.size < limit
  instructions : ∀ instruction ∈ image.instructions, instruction.Fits

theorem Operand.reads {operand : Operand} (h : operand.Fits) :
    Reads Operand.decoder operand.toBytes operand := by
  cases operand with
  | none => exact (reads_index (n := 0) (by decide)).bind (.pure Operand.none)
  | value n => exact (reads_index (n := 1) (by decide)).bind ((reads_word n).map Operand.value)
  | label name => exact (reads_index (n := 2) (by decide)).bind ((reads_string h).map Operand.label)

theorem Opcode.reads (op : Opcode) : Reads (variant Opcode.all) op.toBytes op :=
  reads_variant (by cases op <;> decide) (by decide)

theorem Instruction.reads {instruction : Instruction} (h : instruction.Fits) :
    Reads Instruction.decoder instruction.toBytes instruction := by
  unfold Instruction.decoder Instruction.toBytes
  rw [List.append_assoc, List.append_assoc]
  apply (reads_option fun name hname => reads_string (h.label name hname)).bind
  apply (Opcode.reads instruction.opcode).bind
  apply (Operand.reads h.operand).bind
  exact (reads_nat h.line).map _

namespace Labels

/-- An entry goes to the end of a table if its name comes after all names. -/
theorem insertEntry_of_lt {name : String} {address : Nat} {entries : List (String × Nat)}
    (h : ∀ entry ∈ entries, entry.1 < name) :
    insertEntry name address entries = entries ++ [(name, address)] := by
  induction entries with
  | nil => rfl
  | cons head rest ih =>
      obtain ⟨key, value⟩ := head
      obtain ⟨hhead, hrest⟩ := List.forall_mem_cons.1 h
      have hne : name ≠ key := fun heq => Std.lt_irrefl (heq ▸ hhead)
      rw [insertEntry, if_neg (Std.not_lt.2 (Std.le_of_lt hhead)), if_neg hne, ih hrest]
      rfl

theorem foldl_insert {labels : Labels} {entries : List (String × Nat)}
    (h : (labels.entries ++ entries).Pairwise fun a b => a.1 < b.1) :
    (entries.foldl (fun labels entry => labels.insert entry.1 entry.2) labels).entries =
      labels.entries ++ entries := by
  induction entries generalizing labels with
  | nil => simp
  | cons entry entries ih =>
      have hlast : ∀ earlier ∈ labels.entries, earlier.1 < entry.1 := fun earlier hearlier =>
        (List.pairwise_append.1 h).2.2 earlier hearlier entry List.mem_cons_self
      have hinsert : (labels.insert entry.1 entry.2).entries = labels.entries ++ [entry] :=
        insertEntry_of_lt hlast
      rw [List.foldl_cons, ih]
      · rw [hinsert, List.append_assoc]
        rfl
      · rw [hinsert, List.append_assoc]
        exact h

/-- A table is made again from its own entries. -/
theorem ofList_entries (labels : Labels) : ofList labels.entries = labels := by
  have hentries : (ofList labels.entries).entries = labels.entries :=
    @foldl_insert empty labels.entries labels.sorted
  cases labels with
  | mk entries sorted =>
      cases hlist : ofList entries with
      | mk entries' sorted' =>
          rw [hlist] at hentries
          cases hentries
          rfl

theorem reads {labels : Labels} (h : labels.Fits) :
    Reads Labels.decoder labels.toBytes labels := by
  have hentry : ∀ entry ∈ labels.entries,
      Reads entryDecoder (Bytes.ofString entry.1 ++ Bytes.ofNat entry.2) entry := by
    intro entry hentry
    obtain ⟨hname, haddress⟩ := h.entries entry hentry
    exact (reads_string hname).bind ((reads_nat haddress).map (Prod.mk entry.1))
  have hlist := (reads_list h.size hentry).map ofList
  rw [ofList_entries] at hlist
  exact hlist

end Labels

theorem Image.reads {image : Image} (h : image.Fits) :
    Reads Image.decoder image.toBytes image := by
  have hinstruction : ∀ instruction ∈ image.instructions.toList,
      Reads Instruction.decoder instruction.toBytes instruction := by
    intro instruction hmem
    exact Instruction.reads (h.instructions instruction (Array.mem_toList_iff.1 hmem))
  unfold Image.decoder Image.toBytes
  rw [List.append_assoc]
  apply (reads_list h.memory fun w _ => reads_word w).bind
  apply (Labels.reads h.labels).bind
  exact (reads_list h.size hinstruction).map fun instructions =>
    Image.mk image.memory image.labels instructions.toArray

/-! ## Snapshots -/

structure Snapshot.Fits (snapshot : Snapshot) : Prop where
  memory : snapshot.memory.size < limit
  pc : snapshot.pc < limit
  stack : snapshot.stack.length < limit

theorem Status.reads (status : Status) :
    Reads (variant Status.all) (Bytes.ofNat (Status.all.idxOf status)) status :=
  reads_variant (by cases status <;> decide) (by decide)

theorem Snapshot.reads {snapshot : Snapshot} (h : snapshot.Fits) :
    Reads Snapshot.decoder snapshot.toBytes snapshot := by
  have hstack : snapshot.stack.reverse.length < limit := by
    rw [List.length_reverse]
    exact h.stack
  unfold Snapshot.decoder Snapshot.toBytes
  rw [List.append_assoc, List.append_assoc, List.append_assoc]
  apply (reads_list h.memory fun w _ => reads_word w).bind
  apply (reads_word snapshot.accumulator).bind
  apply (reads_nat h.pc).bind
  apply (reads_list hstack fun w _ => reads_word w).bind
  rw [List.reverse_reverse]
  exact (Status.reads snapshot.status).map (Snapshot.mk snapshot.memory snapshot.accumulator
    snapshot.pc snapshot.stack)

/-! ## Forms that delimit themselves -/

/-- What is written can be read, whatever comes after it.  If it breaks off, its end is
missed.  So nothing that is written begins with another thing that is written. -/
structure SelfDelimiting {α : Type} (Fits : α → Prop) (write : α → Bytes)
    (read : Bytes → Except DecodeError α) : Prop where
  lossless : ∀ a, Fits a → ∀ rest, read (write a ++ rest) = .ok a
  truncated : ∀ a, Fits a → ∀ cut, cut <+: write a → cut ≠ write a →
    read cut = .error .unexpectedEnd
  prefixFree : ∀ a b, Fits a → Fits b → write a <+: write b → a = b

theorem selfDelimiting_of_reads {α : Type} {Fits : α → Prop} {write : α → Bytes}
    {d : Decoder α} (h : ∀ a, Fits a → Reads d (write a) a) :
    SelfDelimiting Fits write fun bytes => (d bytes).map Prod.fst := by
  have hlossless : ∀ a, Fits a → ∀ rest, (d (write a ++ rest)).map Prod.fst = .ok a := by
    intro a ha rest
    rw [(h a ha).whole rest]
    rfl
  refine ⟨hlossless, ?_, ?_⟩
  · intro a ha cut hcut hne
    rw [(h a ha).part cut hcut hne]
    rfl
  · intro a b ha hb hprefix
    obtain ⟨rest, hrest⟩ := hprefix
    have hread := hlossless b hb []
    rw [List.append_nil, ← hrest, hlossless a ha] at hread
    exact Except.ok.inj hread

/-- Images and snapshots of any words, names, addresses and lines are told by their bytes. -/
theorem binary_selfDelimiting :
    SelfDelimiting Image.Fits Image.toBytes Image.ofBytes ∧
      SelfDelimiting Snapshot.Fits Snapshot.toBytes Snapshot.ofBytes :=
  ⟨selfDelimiting_of_reads fun _ => Image.reads, selfDelimiting_of_reads fun _ => Snapshot.reads⟩

/-- The least word and the greatest address take ten bytes each. -/
def extremeSnapshot : Snapshot where
  memory := #[-0x8000000000000000]
  accumulator := 0x7fffffffffffffff
  pc := 0xffffffffffffffff
  stack := [-1, 64]
  status := .awaitingInput

def extremeImage : Image where
  memory := #[-0x8000000000000000]
  labels := Labels.ofList [("später", 0xffffffffffffffff), ("früher", 0)]
  instructions := #[⟨some "früher", .dat, .value (-0x8000000000000000), 0xffffffffffffffff⟩,
    ⟨none, .bra, .label "früher", 128⟩, ⟨none, .hlt, .none, 3⟩]

theorem binary_selfDelimiting_extreme :
    extremeImage.Fits ∧ extremeSnapshot.Fits ∧
      (∀ rest, Image.ofBytes (extremeImage.toBytes ++ rest) = .ok extremeImage) ∧
      extremeSnapshot.toBytes =
        [1, 255, 255, 255, 255, 255, 255, 255, 255, 255, 1,
          254, 255, 255, 255, 255, 255, 255, 255, 255, 1,
          255, 255, 255, 255, 255, 255, 255, 255, 255, 1, 2, 128, 1, 1, 2] ∧
      Snapshot.ofBytes (extremeSnapshot.toBytes.take 9) = .error .unexpectedEnd := by
  have himage : extremeImage.Fits := by
    refine ⟨by decide, ⟨by decide, by decide⟩, by decide, ?_⟩
    intro instruction hmem
    simp only [extremeImage, List.mem_toArray, List.mem_cons, List.not_mem_nil, or_false] at hmem
    rcases hmem with rfl | rfl | rfl <;>
      exact ⟨by decide, by decide, by decide⟩
  have hsnapshot : extremeSnapshot.Fits := ⟨by decide, by decide, by decide⟩
  refine ⟨himage, hsnapshot, binary_selfDelimiting.1.lossless _ himage, by decide, ?_⟩
  exact binary_selfDelimiting.2.truncated _ hsnapshot _ (List.take_prefix _ _) (by decide)

end LittleMan
