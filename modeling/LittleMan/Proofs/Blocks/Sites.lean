import LittleMan.Proofs.Blocks.Operators
import LittleMan.Proofs.Blocks.Programs
import LittleMan.Proofs.Clashes

/-!
# Blocks of operators

An operator on two operands has a block of code.  It stands after the code of the operands,
reads their cells, and writes to temporaries of its own, of which some get results: a division
has a quotient and a remainder, whichever of them is asked for.  `Program.operatorAt` gives the
block of a site.

`OperatorBlock.Computes` says what a block does to a machine that has come to it: it reaches
the `NOP` at its end with values in the cells of the results, or it overflows before.  A machine
whose steps are too few for either stops inside of the block.  What the block leads to is known
of runs of a view, and `Program.Built.computes` takes it to machines.
-/

namespace LittleMan

open Mark

/-- The block of an operator in the code: the cells of its operands, the temporaries of its
results, the other temporaries that it writes, the number that its places have, its marks, and
the address of its first instruction. -/
structure OperatorBlock where
  left : Cell
  right : Cell
  results : List Nat
  work : List Nat
  base : Nat
  marks : List Mark
  first : Nat

namespace OperatorBlock

variable (b : OperatorBlock)

def written : List Cell :=
  (b.results ++ b.work).map .temporary

def values (image : Image) (m : Machine) : List (Option Int) :=
  b.results.map fun n => (image.word? m (.temporary n)).map Int64.toInt

def last : Nat :=
  b.first + (width b.marks - 1)

/-- The instructions of the image are the orders of the block.  Its cells have addresses,
those written to are apart from each other, from the operands and from all literals. -/
structure Stands (image : Image) : Prop where
  code : ∀ (i : Nat) (op : Opcode) (target : Target),
    (b.marks.flatMap orders)[i]? = some (op, target) →
    ∃ instruction : Instruction, image.instructions[b.first + i]? = some instruction ∧
      instruction.opcode = op ∧ instruction.operand = target.operand
  found : ∀ c ∈ b.left :: b.right :: b.written, image.labels.find? c.label = some (image.address c)
  distinct : (b.written.map image.address).Nodup
  operands : image.address b.left ∉ b.written.map image.address ∧
    image.address b.right ∉ b.written.map image.address
  literals : ∀ (value : Word) (a : Nat), image.labels.find? (Cell.literal value).label = some a →
    a ∉ b.written.map image.address

def EndsUnder (image : Image) (ending : String) : Prop :=
  image.labels.find? ((Cell.temporary b.base).label ++ ending) = some b.last ∧
    ∃ instruction : Instruction, image.instructions[b.last]? = some instruction ∧
      instruction.opcode = .nop

/-- The machine has come to the first instruction with these words in the operands.  Nothing is
said about the rest of the variables and temporaries. -/
structure Meets (image : Image) (m : Machine) (x y : Word) : Prop where
  intact : image.Intact m
  going : m.status ≠ .halted
  pc : m.pc = b.first
  left : image.word? m b.left = some x
  right : image.word? m b.right = some y

/-- The block gives its results these values if `ok` holds, unless a limit of steps comes before
its end.  Else it never comes to its end and overflows, unless the limit comes before that. -/
structure Computes (image : Image) (m : Machine) (ok : Prop) (values : List Int) : Prop where
  completes : ok → (∃ k, m.Keeps k ∧ (m.after k).pc = b.last ∧
      b.values image (m.after k) = values.map some ∧
      ∀ x : Nat, x ∉ b.written.map image.address → (m.after k).memory[x]? = m.memory[x]?) ∨
    Program.LimitedWithin m b.first b.last
  ends : ¬ ok → Program.EndsWithin m b.first b.last
  overflows : ¬ ok → m.config.maxSteps = none →
    ∃ pc, m.run.1 = .faulted ⟨pc, .arithmeticOverflow⟩ ∧ b.first ≤ pc ∧ pc < b.last

structure Proper : Prop where
  plain : ∀ order ∈ b.marks.flatMap orders, Machine.isPlain order.1 order.2 = true
  stores : ∀ c, c ∈ stores b.marks ↔ c ∈ b.written
  left : b.left ∈ Mark.cells b.marks
  right : b.right ∈ Mark.cells b.marks
  nodup : (b.results ++ b.work).Nodup

theorem last_eq {n : Nat} (h : width b.marks = n + 1) : b.last = b.first + n := by
  rw [last, h, Nat.add_sub_cancel]

variable {b}

theorem exists_temporary {c : Cell} (hc : c ∈ b.written) : ∃ n, c = .temporary n := by
  obtain ⟨n, -, rfl⟩ := List.mem_map.1 hc
  exact ⟨n, rfl⟩

theorem result_mem_written {n : Nat} (hn : n ∈ b.results) : .temporary n ∈ b.written :=
  List.mem_map_of_mem (List.mem_append_left _ hn)

theorem Proper.written_subset (h : b.Proper) : b.written ⊆ Mark.cells b.marks := by
  intro c hc
  obtain ⟨mark, hmark, horder⟩ := mem_stores.1 ((h.stores c).2 hc)
  exact List.mem_filterMap.2 ⟨_, List.mem_flatMap.2 ⟨mark, hmark, horder⟩, rfl⟩

theorem Proper.nodup_written (h : b.Proper) : b.written.Nodup :=
  h.nodup.map fun _ _ => Cell.temporary.inj

end OperatorBlock

namespace Program

variable {program : Program} {r : Register} {image : Image} {m : Machine} {b : OperatorBlock}

/-- The block is in the code, and what it writes is not what it reads. -/
structure HasBlock (program : Program) (b : OperatorBlock) : Prop where
  proper : b.Proper
  laid : Laid program.code b.first b.marks
  left : b.left ∉ b.written
  right : b.right ∉ b.written

section Built

variable (hbuilt : program.Built r image) (hb : program.HasBlock b)
include hbuilt hb

theorem Built.block_stands : b.Stands image where
  code := by
    intro i op target hi
    exact hbuilt.assembled.instruction_of_orderAt (hb.laid.ordersAt.orderAt hi)
  found := by
    intro c hc
    apply hbuilt.find?_of_laid hb.laid
    rcases List.mem_cons.1 hc with rfl | hc
    · exact hb.proper.left
    · rcases List.mem_cons.1 hc with rfl | hc
      · exact hb.proper.right
      · exact hb.proper.written_subset hc
  distinct := hbuilt.nodup_addresses hb.laid hb.proper.written_subset hb.proper.nodup_written
  operands :=
    ⟨hbuilt.address_not_mem hb.laid hb.proper.written_subset hb.proper.left hb.left,
      hbuilt.address_not_mem hb.laid hb.proper.written_subset hb.proper.right hb.right⟩
  literals := fun _ _ hfind =>
    hbuilt.literal_not_mem hb.laid hb.proper.written_subset
      (fun _ => OperatorBlock.exists_temporary) hfind

omit hb in
theorem Built.endsUnder {ending : String} {n : Nat} (hwidth : width b.marks = n + 1)
    (hend : PlaceAt program.code (b.first + n) (spot b.base ending) ∧
      OrderAt program.code (b.first + n) .nop .none) : b.EndsUnder image ending := by
  rw [← b.last_eq hwidth] at hend
  obtain ⟨instruction, hget, hop, -⟩ := hbuilt.assembled.instruction_of_orderAt hend.2
  exact ⟨hbuilt.assembled.place hend.1, instruction, hget, hop⟩

theorem Built.cells_literal (hintact : image.Intact m) (value : Word)
    (hc : .literal value ∈ Mark.cells b.marks) : image.cells m (.literal value) = value :=
  Image.cells_eq (hbuilt.word?_literal hintact hb.laid hc)

omit hbuilt in
theorem values_of_completes {q k : Nat} {cells : Cell → Word}
    (h : Completes image m b.marks q k cells) :
    b.values image (m.after k) = b.results.map fun n => some (cells (.temporary n)).toInt := by
  refine List.map_congr_left fun n hn => ?_
  rw [h.cells _ (hb.proper.written_subset (OperatorBlock.result_mem_written hn)), Option.map_some]

omit hbuilt in
theorem frame_of_completes {q k : Nat} {cells : Cell → Word}
    (h : Completes image m b.marks q k cells) (x : Nat)
    (hx : x ∉ b.written.map image.address) : (m.after k).memory[x]? = m.memory[x]? := by
  apply h.frame
  intro c hc heq
  exact hx (List.mem_map.2 ⟨c, (hb.proper.stores c).1 hc, heq⟩)

theorem Built.computes {x y : Word} (hmeets : b.Meets image m x y) {n : Nat}
    (hwidth : width b.marks = n + 1) (hend : OrderAt program.code (b.first + n) .nop .none)
    {ok : Prop} {values : List Int}
    (hleads : ∀ {L : Layout} {v : View}, L.Placed → Laid L.code b.first b.marks →
      L.Leads v b.first m.accumulator (image.cells m) ok (b.first + n) fun _ cells =>
        b.results.map (fun n => (cells (.temporary n)).toInt) = values) :
    b.Computes image m ok values := by
  obtain ⟨hintact, hgoing, hpc, -, -⟩ := hmeets
  simp only [← hpc] at hend hleads
  have hexecutes := hbuilt.executes_block hintact (hpc ▸ hb.laid) hb.proper.plain hgoing hwidth
    hend hleads
  rw [hpc, ← b.last_eq hwidth] at hexecutes
  obtain ⟨hgood, hbad⟩ := hexecutes
  refine ⟨fun hok => (hgood hok).imp_left ?_, hbad, fun hnot => (hbad hnot).overflows⟩
  rintro ⟨k, acc, cells, rfl, hcompletes⟩
  refine ⟨k, hcompletes.keeps, hcompletes.pc, ?_, frame_of_completes hb hcompletes⟩
  rw [values_of_completes hb hcompletes, List.map_map]
  rfl

end Built

/-! ## Blocks of sites -/

/-- The temporaries of the results of an operator, if its own are those from a number on.  Of a
division the quotient comes first. -/
def resultsOf (op : BinaryOp) (n : Nat) : List Nat :=
  match op with
  | .div => [n, n + 1]
  | .mod => [n + 1, n]
  | _ => [n]

def blockOf (op : BinaryOp) (l r : Cell) (n first : Nat) : OperatorBlock where
  left := l
  right := r
  results := resultsOf op n
  work := List.range' (n + (resultsOf op n).length) (temporariesOf op - (resultsOf op n).length)
  base := n
  marks := combine op l r n
  first := first

theorem nodup_blockOf (op : BinaryOp) (l r : Cell) (n first : Nat) :
    ((blockOf op l r n first).results ++ (blockOf op l r n first).work).Nodup := by
  cases op <;> simp [blockOf, resultsOf, temporariesOf, List.range', Nat.add_assoc]

def operatorAt (program : Program) (owner : Option FunctionDecl) (s : Site) :
    Option OperatorBlock :=
  let operands := s.emitted (program.cellOf owner)
  match s.operator, operands.result with
  | .binary op, [l, r] =>
      some (blockOf op l r operands.counters.temporaries (s.begins (program.cellOf owner)))
  | _, _ => none

theorem exists_operatorAt {owner : Option FunctionDecl} {s : Site} {op : BinaryOp}
    (hs : (owner, s) ∈ program.sites) (hop : s.operator = .binary op) :
    ∃ b, program.operatorAt owner s = some b := by
  obtain ⟨slot, -, rfl, hin⟩ := in_of_mem_sites hs
  have htakes := hin.takes
  rw [hop] at htakes
  have hlength := Expr.length_emitAll (program.cellOf slot.owner) s.operands s.counters
  rw [htakes.2.2] at hlength
  obtain ⟨l, r, hresult⟩ := List.length_eq_two.1 hlength
  change (s.emitted _).result = _ at hresult
  simp [operatorAt, hop, hresult]

structure Operates (vars : String → Cell) (s : Site) (op : BinaryOp) (b : OperatorBlock) :
    Prop where
  marks : b.marks = s.own vars
  first : b.first = s.begins vars
  operands : (s.emitted vars).result = [b.left, b.right]
  eq : b = blockOf op b.left b.right b.base b.first

theorem operates_of_operatorAt {owner : Option FunctionDecl} {s : Site} {op : BinaryOp}
    (hop : s.operator = .binary op) (hb : program.operatorAt owner s = some b) :
    Operates (program.cellOf owner) s op b := by
  simp only [operatorAt] at hb
  split at hb
  next op' l r hop' hresult =>
    obtain rfl : op = op' := Operator.binary.inj (hop.symm.trans hop')
    obtain rfl := Option.some.inj hb
    refine ⟨?_, rfl, hresult, rfl⟩
    rw [Site.own, hop, hresult]
    rfl
  next => cases hb

theorem Built.hasBlock (hbuilt : program.Built r image) {owner : Option FunctionDecl} {s : Site}
    {op : BinaryOp} (hs : (owner, s) ∈ program.sites) (hop : s.operator = .binary op)
    (hb : program.operatorAt owner s = some b) (hproper : b.Proper) : program.HasBlock b := by
  obtain ⟨slot, -, rfl, hin⟩ := in_of_mem_sites hs
  have hoperates := operates_of_operatorAt hop hb
  have hkept : ∀ c ∈ [b.left, b.right], c ∉ b.written := by
    intro c hc
    rw [← hproper.stores, hoperates.marks]
    apply Site.not_mem_stores_own hin.takes (program.exists_cellOf_eq slot.owner)
    rw [hoperates.operands]
    exact hc
  refine ⟨hproper, ?_, hkept _ (by simp), hkept _ (by simp)⟩
  rw [hoperates.first, hoperates.marks]
  exact hbuilt.laid_own hs

theorem Built.exists_block (hbuilt : program.Built r image) {owner : Option FunctionDecl} {s : Site}
    {op : BinaryOp} (hs : (owner, s) ∈ program.sites) (hop : s.operator = .binary op)
    (hproper : ∀ left right n first, (blockOf op left right n first).Proper) :
    ∃ left right n first, program.operatorAt owner s = some (blockOf op left right n first) ∧
      program.HasBlock (blockOf op left right n first) := by
  obtain ⟨b, hb⟩ := exists_operatorAt hs hop
  rw [(operates_of_operatorAt hop hb).eq] at hb
  exact ⟨_, _, _, _, hb, hbuilt.hasBlock hs hop hb (hproper _ _ _ _)⟩

/-! ## Operators on literals -/

/-- Whether an operator stands between two literals somewhere. -/
def relates (program : Program) (op : BinaryOp) (x y : Word) : Bool :=
  program.sites.any fun site => decide (site.2.operator = .binary op) &&
    decide ((site.2.emitted (program.cellOf site.1)).result = [.literal x, .literal y])

/-- The literals of a compiled program are met at their operator, and there is no limit of
steps. -/
theorem Built.exists_meets (hbuilt : program.Built r image) {op : BinaryOp} {x y : Word}
    (hproper : ∀ left right n first, (blockOf op left right n first).Proper)
    (hrelates : program.relates op x y = true) :
    ∃ owner s b, ∃ m : Machine, (owner, s) ∈ program.sites ∧ s.operator = .binary op ∧
      program.operatorAt owner s = some b ∧ b.Meets image m x y ∧ m.config.maxSteps = none := by
  simp only [relates, List.any_eq_true, Bool.and_eq_true, decide_eq_true_eq] at hrelates
  obtain ⟨⟨owner, s⟩, hs, hop, hresult⟩ := hrelates
  obtain ⟨b, hb⟩ := exists_operatorAt hs hop
  have hoperates := operates_of_operatorAt hop hb
  obtain ⟨hleft, hright⟩ : Cell.literal x = b.left ∧ Cell.literal y = b.right := by
    simpa [hresult] using hoperates.operands
  have hhas := hbuilt.hasBlock hs hop hb (hoperates.eq ▸ hproper _ _ _ _)
  let m : Machine := { image.start [] {} with pc := b.first }
  have hintact : image.Intact m := (stands_after hbuilt [] {} 0).intact hbuilt
  have hgoing : m.status ≠ .halted := by
    simp [m, Image.start, Machine.pushInputs, Machine.load, Machine.reset]
  refine ⟨owner, s, b, m, hs, hop, hb, ⟨hintact, hgoing, rfl, ?_, ?_⟩, rfl⟩
  · rw [← hleft]
    exact hbuilt.word?_literal hintact hhas.laid (hleft ▸ hhas.proper.left)
  · rw [← hright]
    exact hbuilt.word?_literal hintact hhas.laid (hright ▸ hhas.proper.right)

end Program

theorem exists_meets_of_buildable (source : String) {op : BinaryOp} (x y : Word)
    (hproper : ∀ left right n first, (Program.blockOf op left right n first).Proper)
    (hbuildable : buildable source = true)
    (hrelates : (Program.parse source).toOption.any (·.relates op x y) = true) :
    ∃ image program, build source = .ok image ∧ Program.parse source = .ok program ∧
      ∃ owner s b, ∃ m : Machine, (owner, s) ∈ program.sites ∧ s.operator = .binary op ∧
        program.operatorAt owner s = some b ∧ b.Meets image m x y ∧
        m.config.maxSteps = none := by
  obtain ⟨image, hbuild⟩ := exists_image_of_buildable hbuildable
  obtain ⟨program, r, hparse, -, hbuilt⟩ := Program.built_of_build hbuild
  rw [hparse] at hrelates
  exact ⟨image, program, hbuild, hparse, hbuilt.exists_meets hproper hrelates⟩

end LittleMan
