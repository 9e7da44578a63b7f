import LittleMan.Proofs.Blocks.Execution
import LittleMan.Proofs.Frames.Sites
import LittleMan.Proofs.Safety

/-!
# Blocks of a compiled program

The block of an operator can be executed from any state of a machine in which the
instructions of the image and its literals are in place.  What the variables, the
temporaries and the rest of the memory hold does not matter, and neither do stack, input and
output.  `Program.Built.executes_block` gives the outcome of such an execution for every block that
is known to lead to the `NOP` at its end.
-/

namespace LittleMan

open Mark

namespace Image

/-- The memory has room for the image, and the instructions and literals of the image are
there. -/
def Intact (image : Image) (m : Machine) : Prop :=
  ∀ (a : Nat) (instruction : Instruction), image.instructions[a]? = some instruction →
    a < m.memory.size ∧
      (instruction.opcode ≠ .dat ∨
          (∃ value : Word, instruction.label = some (Cell.literal value).label) →
        m.memory[a]? = image.memory[a]?)

def address (image : Image) (c : Cell) : Nat :=
  (image.labels.find? c.label).getD 0

def word? (image : Image) (m : Machine) (c : Cell) : Option Word :=
  (image.labels.find? c.label).bind (m.memory[·]?)

def cells (image : Image) (m : Machine) (c : Cell) : Word :=
  (image.word? m c).getD 0

theorem cells_eq {image : Image} {m : Machine} {c : Cell} {word : Word}
    (h : image.word? m c = some word) : image.cells m c = word := by
  rw [cells, h, Option.getD_some]

end Image

namespace Program

variable {program : Program} {r : Register} {image : Image} {m : Machine}

theorem Assembled.word_code (h : program.Assembled r image) {a : Nat} {op : Opcode}
    {target : Target} (hat : OrderAt program.code a op target) :
    image.memory[a]? = some (op.encode (Image.resolve image.labels target.operand)) := by
  have hlt := lt_length_of_orderAt hat
  obtain ⟨place, hget⟩ := hat
  rw [← Array.getElem?_toList, h.memory, List.getElem?_append_left (by simpa using hlt),
    List.getElem?_map, hget]
  rfl

theorem Assembled.word_cell (h : program.Assembled r image) {i : Nat} {c : Cell}
    (hc : r.cells[i]? = some c) : image.memory[program.code.length + i]? = some c.initial := by
  rw [← Array.getElem?_toList, h.memory, List.getElem?_append_right (by simp), List.length_map,
    Nat.add_sub_cancel_left, List.getElem?_map, hc]
  rfl

theorem Assembled.address_eq (h : program.Assembled r image) {i : Nat} {c : Cell}
    (hc : r.cells[i]? = some c) : image.address c = program.code.length + i := by
  rw [Image.address, h.cell hc, Option.getD_some]

theorem Assembled.word?_eq (h : program.Assembled r image) {i : Nat} {c : Cell}
    (hc : r.cells[i]? = some c) : image.word? m c = m.memory[image.address c]? := by
  rw [Image.word?, h.address_eq hc, h.cell hc, Option.bind_some]

theorem exists_orderAt {code : List Entry} {p : Nat} {marks : List Mark} {c : Cell}
    (hlaid : Laid code p marks) (hc : c ∈ Mark.cells marks) :
    ∃ a op, OrderAt code a op (.cell c) := by
  obtain ⟨⟨op, target⟩, hmem, htarget⟩ := List.mem_filterMap.1 hc
  cases target with
  | none => cases htarget
  | place l => cases htarget
  | cell d =>
      obtain rfl := Option.some.inj htarget
      obtain ⟨i, hi⟩ := List.getElem?_of_mem hmem
      exact ⟨_, op, hlaid.ordersAt.orderAt hi⟩

theorem order_of_laid {p a : Nat} {marks : List Mark} {op : Opcode} {target : Target}
    (hlaid : Laid program.code p marks) (hp : p ≤ a) (hn : a < p + width marks)
    (hat : OrderAt program.code a op target) : (op, target) ∈ marks.flatMap orders := by
  obtain ⟨order, horder, hat'⟩ := hlaid.ordersAt.exists_order hp hn
  obtain ⟨rfl, rfl⟩ := hat.unique hat'
  exact horder

section Built

variable (hbuilt : program.Built r image)
include hbuilt

theorem Built.exists_cell {a : Nat} {op : Opcode} {c : Cell}
    (hat : OrderAt program.code a op (.cell c)) : ∃ i : Nat, r.cells[i]? = some c := by
  obtain ⟨-, -, i, hi, -⟩ := hbuilt.decode_word {} hat
  exact ⟨i, hi⟩

theorem Built.exists_cell_of_laid {p : Nat} {marks : List Mark} {c : Cell}
    (hlaid : Laid program.code p marks) (hc : c ∈ Mark.cells marks) :
    ∃ i : Nat, r.cells[i]? = some c := by
  obtain ⟨a, op, hat⟩ := exists_orderAt hlaid hc
  exact hbuilt.exists_cell hat

theorem Built.lt_of_intact (hintact : image.Intact m) {i : Nat} {c : Cell}
    (hc : r.cells[i]? = some c) : image.address c < m.memory.size := by
  obtain ⟨instruction, hget, -⟩ := hbuilt.assembled.instruction_cell hc
  rw [hbuilt.assembled.address_eq hc]
  exact (hintact _ _ hget).1

theorem Built.word?_eq_cells (hintact : image.Intact m) {i : Nat} {c : Cell}
    (hc : r.cells[i]? = some c) : m.memory[image.address c]? = some (image.cells m c) := by
  have hlt := hbuilt.lt_of_intact hintact hc
  rw [Image.cells, hbuilt.assembled.word?_eq hc, Array.getElem?_eq_getElem hlt, Option.getD_some]

theorem Built.word?_literal (hintact : image.Intact m) {p : Nat} {marks : List Mark} {value : Word}
    (hlaid : Laid program.code p marks) (hc : .literal value ∈ Mark.cells marks) :
    image.word? m (.literal value) = some value := by
  obtain ⟨i, hi⟩ := hbuilt.exists_cell_of_laid hlaid hc
  obtain ⟨instruction, hget, -, hlabel⟩ := hbuilt.assembled.instruction_cell hi
  rw [hbuilt.assembled.word?_eq hi, hbuilt.assembled.address_eq hi,
    (hintact _ _ hget).2 (.inr ⟨value, hlabel⟩), hbuilt.assembled.word_cell hi]
  rfl

theorem Built.address_inj {i j : Nat} {c d : Cell} (hc : r.cells[i]? = some c)
    (hd : r.cells[j]? = some d) (h : image.address c = image.address d) : c = d := by
  rw [hbuilt.assembled.address_eq hc, hbuilt.assembled.address_eq hd] at h
  obtain rfl : i = j := by omega
  exact Option.some.inj (hc.symm.trans hd)

section Laid

variable {p : Nat} {marks : List Mark} (hlaid : Laid program.code p marks) {c d : Cell}
  {written : List Cell}
include hlaid

theorem Built.find?_of_laid (hc : c ∈ Mark.cells marks) :
    image.labels.find? c.label = some (image.address c) := by
  obtain ⟨i, hi⟩ := hbuilt.exists_cell_of_laid hlaid hc
  rw [hbuilt.assembled.address_eq hi, hbuilt.assembled.cell hi]

theorem Built.address_inj_of_laid (hc : c ∈ Mark.cells marks) (hd : d ∈ Mark.cells marks)
    (h : image.address c = image.address d) : c = d := by
  obtain ⟨i, hi⟩ := hbuilt.exists_cell_of_laid hlaid hc
  obtain ⟨j, hj⟩ := hbuilt.exists_cell_of_laid hlaid hd
  exact hbuilt.address_inj hi hj h

theorem Built.nodup_addresses (hcells : written ⊆ Mark.cells marks) (hnodup : written.Nodup) :
    (written.map image.address).Nodup := by
  apply List.Nodup.map_on _ hnodup
  intro c hc d hd h
  exact hbuilt.address_inj_of_laid hlaid (hcells hc) (hcells hd) h

theorem Built.address_not_mem (hcells : written ⊆ Mark.cells marks) (hc : c ∈ Mark.cells marks)
    (hnot : c ∉ written) : image.address c ∉ written.map image.address := by
  intro hmem
  obtain ⟨d, hd, h⟩ := List.mem_map.1 hmem
  exact hnot (hbuilt.address_inj_of_laid hlaid (hcells hd) hc h ▸ hd)

theorem Built.literal_not_mem (hcells : written ⊆ Mark.cells marks)
    (htemporary : ∀ c ∈ written, ∃ n, c = .temporary n) {value : Word} {a : Nat}
    (hfind : image.labels.find? (Cell.literal value).label = some a) :
    a ∉ written.map image.address := by
  intro hmem
  obtain ⟨c, hc, rfl⟩ := List.mem_map.1 hmem
  obtain ⟨i, hi⟩ := hbuilt.exists_cell_of_laid hlaid (hcells hc)
  rw [hbuilt.assembled.address_eq hi] at hfind
  rcases hbuilt.assembled.found hfind with ⟨l, hl, -⟩ | ⟨j, c', hj, hij, hlabel⟩
  · obtain ⟨entry, hget, -⟩ := hl
    have hlt := (List.getElem?_eq_some_iff.1 hget).1
    omega
  · obtain rfl : i = j := by omega
    obtain rfl : c = c' := Option.some.inj (hi.symm.trans hj)
    obtain ⟨n, rfl⟩ := htemporary c hc
    rcases Cell.label_eq_cases hlabel with h | ⟨_, _, _, _, h, -⟩ <;> cases h

end Laid

/-- A machine in which the image is intact hosts every plain block. -/
theorem Built.hosts (hintact : image.Intact m) (config : Config) {p : Nat} {marks : List Mark}
    (hlaid : Laid program.code p marks)
    (hplain : ∀ order ∈ marks.flatMap orders, Machine.isPlain order.1 order.2 = true) :
    Machine.Hosts ((program.layout image config).only p (width marks)) image.address m where
  order := by
    intro a op target hat hop
    obtain ⟨⟨hp, hn⟩, hat⟩ := (Layout.orderAt_only (.inl hop)).1 hat
    obtain ⟨instruction, hget, hopcode⟩ :=
      hbuilt.assembled.instruction_code (lt_length_of_orderAt hat)
    obtain ⟨operand, hdecode, haddresses⟩ := hbuilt.decode_word config hat
    refine ⟨hplain _ (order_of_laid hlaid hp hn hat), _, operand, ?_, hdecode, ?_⟩
    · rw [(hintact _ _ hget).2 (.inl hopcode), hbuilt.assembled.word_code hat]
    · cases target with
      | none => trivial
      | cell c =>
          obtain ⟨i, hi, rfl⟩ := haddresses
          exact (hbuilt.assembled.address_eq hi).symm
      | place l => exact haddresses.1
  place := by
    intro a op l hat
    replace hat := Layout.orderAt_of_only hat (.inr nofun)
    obtain ⟨operand, -, rfl, hlt⟩ := hbuilt.decode_word config hat
    obtain ⟨instruction, hget, -⟩ := hbuilt.assembled.instruction_code hlt
    exact (hintact _ _ hget).1
  cell := by
    intro a op c hat
    replace hat := Layout.orderAt_of_only hat (.inr nofun)
    obtain ⟨i, hi⟩ := hbuilt.exists_cell hat
    exact hbuilt.lt_of_intact hintact hi
  apart := by
    intro a b op c d hc hd heq
    replace hc := Layout.orderAt_of_only hc (.inr nofun)
    replace hd := Layout.orderAt_of_only hd (.inr nofun)
    obtain ⟨i, hi⟩ := hbuilt.exists_cell hc
    obtain ⟨j, hj⟩ := hbuilt.exists_cell hd
    exact hbuilt.address_inj hi hj heq
  clear := by
    intro a b op target c hc hat hop
    replace hc := Layout.orderAt_of_only hc (.inr nofun)
    replace hat := Layout.orderAt_of_only hat (.inl hop)
    obtain ⟨i, hi⟩ := hbuilt.exists_cell hc
    have hlt : b < program.code.length := lt_length_of_orderAt hat
    rw [hbuilt.assembled.address_eq hi]
    omega

end Built

/-! ## Runs of the program -/

theorem Assembled.lt_of_instruction (h : program.Assembled r image) {a : Nat}
    {instruction : Instruction} (hget : image.instructions[a]? = some instruction) :
    a < program.code.length + r.cells.length := by
  have hlength := congrArg List.length h.instructions
  have hlt := (Array.getElem?_eq_some_iff.1 hget).1
  simp only [List.length_map, List.length_append, Array.length_toList] at hlength
  omega

theorem Assembled.getElem?_padded (h : program.Assembled r image) (config : Config) {a : Nat}
    (hlt : a < program.code.length + r.cells.length) :
    (Machine.padded config image.memory)[a]? = image.memory[a]? := by
  obtain ⟨zeros, hzeros⟩ := padded_toList config image.memory
  have hlength := congrArg List.length h.memory
  simp only [List.length_map, List.length_append] at hlength
  rw [← Array.getElem?_toList, hzeros, List.getElem?_append_left (by omega), Array.getElem?_toList]

theorem Assembled.isLiteral_of_label (h : program.Assembled r image) {i : Nat} {c : Cell}
    (hc : r.cells[i]? = some c) {instruction : Instruction}
    (hget : image.instructions[program.code.length + i]? = some instruction) {value : Word}
    (hlabel : instruction.label = some (Cell.literal value).label) : c.isLiteral = true := by
  obtain ⟨instruction', hget', -, hlabel'⟩ := h.instruction_cell hc
  obtain rfl : instruction = instruction' := Option.some.inj (hget.symm.trans hget')
  have heq := Option.some.inj (hlabel'.symm.trans hlabel)
  rcases Cell.label_eq_cases heq with rfl | ⟨_, _, _, _, -, hvar⟩
  · rfl
  · cases hvar

/-- No run changes the instructions and the literals. -/
theorem Stands.intact {config : Config} (h : program.Stands r image config m)
    (hbuilt : program.Built r image) : image.Intact m := by
  intro a instruction hget
  have hlt := hbuilt.assembled.lt_of_instruction hget
  constructor
  · obtain ⟨frames, v, hstands⟩ := h
    cases hstands with
    | going shows safe => exact hlt.trans_le (shows.size hbuilt.assembled).2
    | halted shows safe admits => exact hlt.trans_le (shows.size hbuilt.assembled).2
  · intro hkept
    rcases h.memory hbuilt a with hsame | ⟨i, c, rfl, hc, hliteral⟩
    · rw [hsame, hbuilt.assembled.getElem?_padded config hlt]
    · obtain ⟨instruction', hget', hdat, -⟩ := hbuilt.assembled.instruction_cell hc
      obtain rfl : instruction = instruction' := Option.some.inj (hget.symm.trans hget')
      rcases hkept with hop | ⟨value, hlabel⟩
      · exact absurd hdat hop
      · rw [hbuilt.assembled.isLiteral_of_label hc hget hlabel] at hliteral
        cases hliteral

/-! ## Executing a block -/

/-- The machine comes to an address.  Only cells that the marks store into change. -/
structure Completes (image : Image) (m : Machine) (marks : List Mark) (q k : Nat)
    (cells : Cell → Word) : Prop where
  keeps : m.Keeps k
  pc : (m.after k).pc = q
  cells : ∀ c ∈ Mark.cells marks, image.word? (m.after k) c = some (cells c)
  frame : ∀ b : Nat, (∀ c ∈ stores marks, image.address c ≠ b) →
    (m.after k).memory[b]? = m.memory[b]?

/-- The machine never leaves a stretch of code and comes to a fault there. -/
structure EndsWithin (m : Machine) (p q : Nat) : Prop where
  within : ∀ i, p ≤ (m.after i).pc ∧ (m.after i).pc < q
  faults : ∃ fault, m.run.1 = .faulted fault ∧ p ≤ fault.pc ∧ fault.pc < q ∧
    m.Exhausts fault.cause

theorem EndsWithin.overflows {p q : Nat} (h : EndsWithin m p q)
    (hfree : m.config.maxSteps = none) :
    ∃ pc, m.run.1 = .faulted ⟨pc, .arithmeticOverflow⟩ ∧ p ≤ pc ∧ pc < q := by
  obtain ⟨fault, hrun, hle, hlt, hcause⟩ := h.faults
  rcases hcause with hcause | ⟨limit, hmax, -⟩
  · exact ⟨fault.pc, by rw [hrun, ← hcause], hle, hlt⟩
  · cases hfree.symm.trans hmax

/-- The machine never leaves a stretch of code and comes to its limit of steps there. -/
structure LimitedWithin (m : Machine) (p q : Nat) : Prop where
  within : ∀ i, p ≤ (m.after i).pc ∧ (m.after i).pc < q
  limit : ∃ limit pc, m.config.maxSteps = some limit ∧
    m.run.1 = .faulted ⟨pc, .stepLimitExceeded limit⟩

theorem LimitedWithin.maxSteps_ne {p q : Nat} (h : LimitedWithin m p q) :
    m.config.maxSteps ≠ none := by
  obtain ⟨limit, pc, hmax, -⟩ := h.limit
  simp [hmax]

section Block

variable (hbuilt : program.Built r image) (hintact : image.Intact m) {n : Nat} {marks : List Mark}
  (hlaid : Laid program.code m.pc marks)
  (hplain : ∀ order ∈ marks.flatMap orders, Machine.isPlain order.1 order.2 = true)

abbrev blockAt (program : Program) (image : Image) (m : Machine) (marks : List Mark) : Layout :=
  (program.layout image m.config).only m.pc (width marks)

include hbuilt in
theorem Built.placed_blockAt (m : Machine) (marks : List Mark) :
    (program.blockAt image m marks).Placed :=
  Layout.Placed.only fun _ _ h => hbuilt.assembled.place_eq m.config h

include hplain in
theorem ne_dat_of_plain : ∀ order ∈ marks.flatMap orders, order.1 ≠ .dat := by
  rintro ⟨op, target⟩ horder rfl
  cases hplain _ horder

include hlaid hplain in
theorem laid_blockAt : Laid (program.blockAt image m marks).code m.pc marks :=
  Layout.laid_only hlaid (ne_dat_of_plain hplain) le_rfl le_rfl

include hbuilt hintact in
theorem Built.displays (hgoing : m.status ≠ .halted) (marks : List Mark) (v : View) :
    Machine.Displays (program.blockAt image m marks) image.address m m
      (v.at m.pc m.accumulator (image.cells m)) where
  config := rfl
  going := hgoing
  pc := rfl
  acc := rfl
  size := rfl
  cells := by
    intro a op c hat
    obtain ⟨i, hi⟩ := hbuilt.exists_cell (Layout.orderAt_of_only hat (.inr nofun))
    exact hbuilt.word?_eq_cells hintact hi
  frame := fun _ _ => rfl

include hbuilt hlaid hplain in
theorem Built.completes_of_displays {v : View} {k : Nat} (hkeeps : m.Keeps k)
    (h : Machine.Displays (program.blockAt image m marks) image.address m (m.after k) v) :
    Completes image m marks v.pc k v.cells where
  keeps := hkeeps
  pc := h.pc
  cells := by
    intro c hc
    obtain ⟨a, op, hat⟩ := exists_orderAt (laid_blockAt hlaid hplain) hc
    obtain ⟨i, hi⟩ := hbuilt.exists_cell (Layout.orderAt_of_only hat (.inr nofun))
    rw [hbuilt.assembled.word?_eq hi]
    exact h.cells hat
  frame := by
    intro b hb
    apply h.frame
    intro a c hat
    obtain ⟨⟨hp, hn⟩, hat⟩ := (Layout.orderAt_only (.inl (by simp))).1 hat
    obtain ⟨mark, hmark, horder⟩ := List.mem_flatMap.1 (order_of_laid hlaid hp hn hat)
    exact hb c (mem_stores.2 ⟨mark, hmark, horder⟩)

theorem pc_of_turns {u : View} {t : Turn} (hturns : (program.blockAt image m marks).Turns u t)
    (ht : t ≠ .stuck) : m.pc ≤ u.pc ∧ u.pc < m.pc + width marks := by
  obtain ⟨op, target, hat, hturn⟩ := hturns
  have hop : op ≠ .dat := by
    rintro rfl
    exact ht (hturn.symm.trans (Layout.turn_dat _ _ _))
  exact ((Layout.orderAt_only (.inl hop)).1 hat).1

theorem pc_of_transGen {u v : View}
    (hu : Relation.TransGen (program.blockAt image m marks).Goes u v) :
    m.pc ≤ u.pc ∧ u.pc < m.pc + width marks := by
  obtain ⟨w, hgoes, -⟩ := Relation.TransGen.head'_iff.1 hu
  exact pc_of_turns hgoes (by simp)

section Ends

variable (hwidth : width marks = n + 1) (hend : OrderAt program.code (m.pc + n) .nop .none)
include hwidth hend

theorem last_blockAt :
    OrderAt (program.blockAt image m marks).code (m.pc + n) .nop .none ∧
      ∀ {op target}, OrderAt (program.blockAt image m marks).code (m.pc + n + 1) op target →
        op = .dat := by
  refine ⟨(Layout.orderAt_only (.inl (by simp))).2 ⟨⟨by omega, by omega⟩, hend⟩, ?_⟩
  intro op target hat
  by_contra hop
  have hin := ((Layout.orderAt_only (.inl hop)).1 hat).1
  omega

/-- A run that overflows in a block stays before the `NOP` at its end. -/
theorem pc_of_overflows {u : View} (hu : (program.blockAt image m marks).Overflows u) :
    m.pc ≤ u.pc ∧ u.pc < m.pc + n := by
  obtain ⟨hlast, hnone⟩ := @last_blockAt program image m n marks hwidth hend
  have hne := hu.pc_ne hlast hnone
  obtain ⟨w, hruns, hfaults⟩ := hu
  have hin : m.pc ≤ u.pc ∧ u.pc < m.pc + width marks := by
    rcases Relation.ReflTransGen.cases_head hruns with rfl | ⟨w', hgoes, -⟩
    · exact pc_of_turns hfaults (by simp)
    · exact pc_of_turns hgoes (by simp)
  omega

/-- A run that is to come to the `NOP` at the end of a block stays before it. -/
theorem pc_of_transGen_last {u v : View}
    (hu : Relation.TransGen (program.blockAt image m marks).Goes u v) (hv : v.pc = m.pc + n) :
    m.pc ≤ u.pc ∧ u.pc < m.pc + n := by
  obtain ⟨hlast, hnone⟩ := @last_blockAt program image m n marks hwidth hend
  have hne := Layout.pc_ne_of_transGen hlast hnone hu hv
  have hin := pc_of_transGen hu
  omega

end Ends

include hbuilt hintact hlaid hplain in
/-- A machine in which the image is intact comes to the address that a block leads to, or to its
limit of steps on the way there. -/
theorem Built.completes_block (hgoing : m.status ≠ .halted) {ok : Prop} {q : Nat}
    {Q : Word → (Cell → Word) → Prop}
    (hleads : ∀ {L : Layout} {v : View}, L.Placed → Laid L.code m.pc marks →
      L.Leads v m.pc m.accumulator (image.cells m) ok q Q)
    (hbefore : ∀ {u v : View}, Relation.TransGen (program.blockAt image m marks).Goes u v →
      v.pc = q → m.pc ≤ u.pc ∧ u.pc < q) (hok : ok) :
    (∃ k acc cells, Q acc cells ∧ Completes image m marks q k cells) ∨ LimitedWithin m m.pc q := by
  have hleads := hleads (v := View.start []) (hbuilt.placed_blockAt m marks)
    (laid_blockAt hlaid hplain)
  obtain ⟨acc, cells, hruns, hpost⟩ := hleads.1 hok
  rcases (hbuilt.displays hintact hgoing marks _).runs
    (hbuilt.hosts hintact m.config hlaid hplain) hruns with
    ⟨k, hkeeps, hlast⟩ | ⟨k, limit, hmax, hfails⟩
  · exact .inl ⟨k, acc, cells, hpost, hbuilt.completes_of_displays hlaid hplain hkeeps hlast⟩
  · exact .inr ⟨hfails.within fun _ hu => hbefore hu rfl, limit, _, hmax, hfails.run⟩

include hbuilt hintact hlaid hplain in
theorem Built.executes_block (hgoing : m.status ≠ .halted) (hwidth : width marks = n + 1)
    (hend : OrderAt program.code (m.pc + n) .nop .none) {ok : Prop}
    {Q : Word → (Cell → Word) → Prop}
    (hleads : ∀ {L : Layout} {v : View}, L.Placed → Laid L.code m.pc marks →
      L.Leads v m.pc m.accumulator (image.cells m) ok (m.pc + n) Q) :
    (ok → (∃ k acc cells, Q acc cells ∧ Completes image m marks (m.pc + n) k cells) ∨
        LimitedWithin m m.pc (m.pc + n)) ∧
      (¬ ok → EndsWithin m m.pc (m.pc + n)) := by
  constructor
  · exact hbuilt.completes_block hintact hlaid hplain hgoing hleads
      (pc_of_transGen_last hwidth hend)
  · intro hnot
    have hoverflows := (hleads (v := View.start []) (hbuilt.placed_blockAt m marks)
      (laid_blockAt hlaid hplain)).2 hnot
    obtain ⟨k, cause, hfails, hcause⟩ := Machine.Displays.overflows
      (hbuilt.hosts hintact m.config hlaid hplain) hoverflows
      (hbuilt.displays hintact hgoing marks _)
    have hwithin := hfails.within fun _ => pc_of_overflows hwidth hend
    exact ⟨hwithin, _, hfails.run, (hwithin k).1, (hwithin k).2, hcause⟩

end Block

end Program
end LittleMan
