import LittleMan.Proofs.Blocks.Sites

/-!
# Products and powers

A product is computed by adding, and a power by multiplying in a loop.  A negative factor is
negated together with the summand, so that the count of additions runs down to zero.

The main theorems are about all blocks of these two kinds in all compiled programs, the
multiplications inside of powers included, and about all machines that have come to the first
instruction of one of them with the image intact.  They say for which operands the block comes
to its end, what it leaves there, and that it overflows for all others.
-/

namespace LittleMan

open Mark

namespace OperatorBlock

def multiplication (l r : Cell) (total addend counter first : Nat) : OperatorBlock where
  left := l
  right := r
  results := [total]
  work := [addend, counter]
  base := total
  marks := multiply l r total addend counter
  first := first

/-- The multiplication in the loop of a power.  It multiplies the total by the left operand. -/
def factor (b : OperatorBlock) : OperatorBlock :=
  multiplication (.temporary b.base) b.left (b.base + 2) (b.base + 3) (b.base + 4) (b.first + 8)

theorem isPlain_multiply (l r : Cell) (total addend counter : Nat) :
    ((multiply l r total addend counter).flatMap orders).all
      (fun order => Machine.isPlain order.1 order.2) = true := rfl

theorem mem_stores_multiply {l r c : Cell} {total addend counter : Nat} :
    c ∈ stores (multiply l r total addend counter) ↔
      c = .temporary total ∨ c = .temporary addend ∨ c = .temporary counter := by
  simp only [multiply, copy, sum, difference, anchor, stores_append, stores_lda, stores_sta,
    stores_add, stores_sub, stores_jump, stores_place, stores_bare, stores_nil, List.mem_append,
    List.mem_cons, List.not_mem_nil]
  tauto

theorem proper_multiplication (l r : Cell) {total addend counter : Nat} (first : Nat)
    (hnodup : [total, addend, counter].Nodup) :
    (multiplication l r total addend counter first).Proper where
  plain := List.all_eq_true.1 (isPlain_multiply l r total addend counter)
  stores := by
    intro c
    simp [multiplication, mem_stores_multiply, written]
  left := by simp [multiplication, multiply]
  right := by simp [multiplication, multiply]
  nodup := hnodup

theorem proper_product (l r : Cell) (n first : Nat) :
    (Program.blockOf .mul l r n first).Proper :=
  proper_multiplication l r first (Program.nodup_blockOf .mul l r n first)

theorem written_power (l r : Cell) (n first : Nat) :
    (Program.blockOf .pow l r n first).written =
      [n, n + 1, n + 2, n + 3, n + 4].map .temporary := rfl

theorem proper_power (l r : Cell) (n first : Nat) : (Program.blockOf .pow l r n first).Proper where
  plain := by
    rw [← List.all_eq_true]
    simp only [Program.blockOf, combine, power, List.flatMap_append, List.all_append,
      isPlain_multiply, Bool.and_true]
    rfl
  stores := by
    intro c
    rw [written_power]
    simp only [Program.blockOf, combine, power, copy, difference, anchor, stores_append,
      mem_stores_multiply, stores_lda, stores_sta, stores_sub, stores_jump, stores_place,
      stores_bare, stores_nil, List.map_cons, List.map_nil, List.mem_append, List.mem_cons,
      List.not_mem_nil]
    tauto
  left := by simp [Program.blockOf, combine, power, multiply]
  right := by simp [Program.blockOf, combine, power]
  nodup := Program.nodup_blockOf .pow l r n first

end OperatorBlock

namespace Program

open OperatorBlock

variable {program : Program} {r : Register} {image : Image} {m : Machine} {b : OperatorBlock}

/-! ## Products -/

theorem Built.multiplies (hbuilt : program.Built r image) {left right : Cell}
    {total addend counter first : Nat}
    (hb : program.HasBlock (multiplication left right total addend counter first)) {x y : Word}
    (hmeets : (multiplication left right total addend counter first).Meets image m x y) :
    (multiplication left right total addend counter first).Computes image m
      (y.toInt ≠ -0x8000000000000000 ∧ Word.InRange (x.toInt * y.toInt))
      [x.toInt * y.toInt] := by
  have hnodup : [total, addend, counter].Nodup := hb.proper.nodup
  simp only [List.nodup_cons, List.mem_cons, List.not_mem_nil, or_false, not_or] at hnodup
  obtain ⟨⟨hta, htc⟩, hac, -⟩ := hnodup
  have hx : image.cells m left = x := Image.cells_eq hmeets.left
  have hy : image.cells m right = y := Image.cells_eq hmeets.right
  have hzero := hbuilt.cells_literal hb hmeets.intact 0
    (by simp [multiplication, multiply])
  have hone := hbuilt.cells_literal hb hmeets.intact 1
    (by simp [multiplication, multiply])
  rw [← hx, ← hy]
  refine hbuilt.computes hb hmeets (Layout.width_multiply left right total addend counter)
    (Layout.orderAt_multiply_end hb.laid).2 fun hplaced hlaid => ?_
  refine (Layout.multiply_reaches hplaced hlaid hta htc hac hb.left hb.right hzero hone).mono ?_
  exact fun _ _ hpost => congrArg (fun value => [value]) hpost.1

/-- The block of a multiplication at a site, which has `*` or is the loop of a `^`. -/
def multiplicationAt (program : Program) (owner : Option FunctionDecl) (s : Site) :
    Option OperatorBlock :=
  match s.operator with
  | .binary .mul => program.operatorAt owner s
  | .binary .pow => (program.operatorAt owner s).map factor
  | _ => none

theorem HasBlock.factor {left right : Cell} {n first : Nat}
    (hb : program.HasBlock (blockOf .pow left right n first)) :
    program.HasBlock
      (multiplication (.temporary n) left (n + 2) (n + 3) (n + 4) (first + 8)) := by
  have hlaid : Laid program.code first (power left right n (n + 1) (n + 2) (n + 3) (n + 4)) :=
    hb.laid
  simp only [power, laid_append, width_append, width_copy, width_cons, width_nil, orders,
    List.length_cons, List.length_nil, Nat.reduceAdd] at hlaid
  obtain ⟨⟨⟨⟨⟨-, hmultiply⟩, -⟩, -⟩, -⟩, -⟩ := hlaid
  have hsubset : (multiplication (.temporary n) left (n + 2) (n + 3) (n + 4) (first + 8)).written ⊆
      (blockOf .pow left right n first).written := by
    rw [written_power]
    simp [multiplication, written]
  refine ⟨proper_multiplication _ _ _ (by simp), hmultiply, ?_, fun hmem => hb.left (hsubset hmem)⟩
  simp [multiplication, written]

theorem Built.hasMultiplication (hbuilt : program.Built r image) {owner : Option FunctionDecl}
    {s : Site} {op : BinaryOp} (hs : (owner, s) ∈ program.sites) (hop : s.operator = .binary op)
    (hmul : op = .mul ∨ op = .pow) :
    ∃ left right total addend counter first,
      program.multiplicationAt owner s =
        some (multiplication left right total addend counter first) ∧
      program.HasBlock (multiplication left right total addend counter first) := by
  rcases hmul with rfl | rfl
  · obtain ⟨left, right, n, first, hb, hhas⟩ := hbuilt.exists_block hs hop proper_product
    refine ⟨left, right, n, n + 1, n + 2, first, ?_, hhas⟩
    rw [multiplicationAt, hop]
    exact hb
  · obtain ⟨left, right, n, first, hb, hhas⟩ := hbuilt.exists_block hs hop proper_power
    refine ⟨.temporary n, left, n + 2, n + 3, n + 4, first + 8, ?_, hhas.factor⟩
    rw [multiplicationAt, hop, hb]
    rfl

end Program

/-- Each multiplication of a compiled program multiplies in every machine that has come to it,
and comes to the `NOP` at its end, or to a limit of steps before, if the second factor is not
the least word and the product is a word. -/
theorem multiply_executes {source : String} {image : Image} (hbuild : build source = .ok image) :
    ∃ program, Program.parse source = .ok program ∧
      (∀ inputs config n, image.Intact ((image.start inputs config).after n)) ∧
      ∀ owner s op, (owner, s) ∈ program.sites → s.operator = .binary op →
        op = .mul ∨ op = .pow →
        ∃ left right total addend counter first,
          let b := OperatorBlock.multiplication left right total addend counter first
          program.multiplicationAt owner s = some b ∧ b.Stands image ∧ b.EndsUnder image "_end" ∧
          ∀ (m : Machine) (x y : Word), b.Meets image m x y →
            b.Computes image m
              (y.toInt ≠ -0x8000000000000000 ∧ Word.InRange (x.toInt * y.toInt))
              [x.toInt * y.toInt] := by
  obtain ⟨program, r, hparse, -, hbuilt⟩ := Program.built_of_build hbuild
  refine ⟨program, hparse, ?_, ?_⟩
  · intro inputs config n
    exact (Program.stands_after hbuilt inputs config n).intact hbuilt
  · intro owner s op hs hop hmul
    obtain ⟨left, right, total, addend, counter, first, hat, hb⟩ :=
      hbuilt.hasMultiplication hs hop hmul
    refine ⟨left, right, total, addend, counter, first, hat, hbuilt.block_stands hb, ?_, ?_⟩
    · exact hbuilt.endsUnder (Layout.width_multiply ..) (Layout.orderAt_multiply_end hb.laid)
    · exact fun m x y hmeets => hbuilt.multiplies hb hmeets

def cubedProduct : String :=
  "x = (6 * 7) ^ 3\n"

theorem multiply_executes_cubedProduct :
    ∃ (image : Image) (program : Program) (owner : Option FunctionDecl) (s : Site)
      (b : OperatorBlock) (m : Machine) (k : Nat),
      build cubedProduct = .ok image ∧ Program.parse cubedProduct = .ok program ∧
      (owner, s) ∈ program.sites ∧ s.operator = .binary .mul ∧
      program.multiplicationAt owner s = some b ∧ b.Meets image m 6 7 ∧
      (m.after k).pc = b.last ∧ b.values image (m.after k) = [some 42] := by
  obtain ⟨image, program, hbuild, hparse, owner, s, b, m, hs, hop, hb, hmeets, hfree⟩ :=
    exists_meets_of_buildable cubedProduct 6 7 OperatorBlock.proper_product
      (by decide +kernel) (by decide +kernel)
  obtain ⟨program', hparse', -, hmultiplies⟩ := multiply_executes hbuild
  obtain rfl : program = program' := Except.ok.inj (hparse.symm.trans hparse')
  obtain ⟨left, right, total, addend, counter, first, hat, -, -, hcomputes⟩ :=
    hmultiplies owner s .mul hs hop (.inl rfl)
  obtain rfl : b = .multiplication left right total addend counter first := by
    rw [Program.multiplicationAt, hop] at hat
    exact Option.some.inj (hb.symm.trans hat)
  obtain ⟨k, -, hpc, hvalues, -⟩ :=
    ((hcomputes m 6 7 hmeets).completes (by decide +kernel)).resolve_right
      fun hlimited => hlimited.maxSteps_ne hfree
  exact ⟨image, program, owner, s, _, m, k, hbuild, hparse, hs, hop, hat, hmeets, hpc, hvalues⟩

/-! ## Powers -/

namespace Program

open OperatorBlock

variable {program : Program} {r : Register} {image : Image} {m : Machine}

/-- A power in the code is computed.  An exponent that is not positive gives one. -/
theorem Built.raises (hbuilt : program.Built r image) {left right : Cell} {n first : Nat}
    (hb : program.HasBlock (blockOf .pow left right n first)) {x y : Word}
    (hmeets : (blockOf .pow left right n first).Meets image m x y) :
    (blockOf .pow left right n first).Computes image m
      (0 < y.toInt → x.toInt ≠ -0x8000000000000000 ∧ Word.InRange (x.toInt ^ y.toInt.toNat))
      [if y.toInt ≤ 0 then 1 else x.toInt ^ y.toInt.toNat] := by
  have hx : image.cells m left = x := Image.cells_eq hmeets.left
  have hy : image.cells m right = y := Image.cells_eq hmeets.right
  have hzero := hbuilt.cells_literal hb hmeets.intact 0
    (by simp [blockOf, combine, power, multiply])
  have hone := hbuilt.cells_literal hb hmeets.intact 1
    (by simp [blockOf, combine, power])
  rw [← hx, ← hy]
  refine hbuilt.computes hb hmeets (Layout.width_power left right n)
    (Layout.orderAt_power_end hb.laid).2 fun hplaced hlaid => ?_
  refine (Layout.power_reaches hplaced hlaid hb.left hb.right hzero hone).mono ?_
  rintro acc cells ⟨hvalue, -⟩
  refine congrArg (fun value => [value]) (hvalue.trans ?_)
  split
  next hle => rw [Int.toNat_of_nonpos hle, pow_zero]
  next => rfl

end Program

/-- Each power of a compiled program is computed in every machine that has come to it.  It
comes to the `NOP` at its end, or to a limit of steps before, if the exponent is not positive,
which gives one, or if the base is not the least word and the power is a word. -/
theorem power_executes {source : String} {image : Image} (hbuild : build source = .ok image) :
    ∃ program, Program.parse source = .ok program ∧
      (∀ inputs config n, image.Intact ((image.start inputs config).after n)) ∧
      ∀ owner s, (owner, s) ∈ program.sites → s.operator = .binary .pow →
        ∃ left right n first,
          let b := Program.blockOf .pow left right n first
          program.operatorAt owner s = some b ∧ b.Stands image ∧ b.EndsUnder image "_outer_end" ∧
          ∀ (m : Machine) (x y : Word), b.Meets image m x y →
            b.Computes image m
              (0 < y.toInt →
                x.toInt ≠ -0x8000000000000000 ∧ Word.InRange (x.toInt ^ y.toInt.toNat))
              [if y.toInt ≤ 0 then 1 else x.toInt ^ y.toInt.toNat] := by
  obtain ⟨program, r, hparse, -, hbuilt⟩ := Program.built_of_build hbuild
  refine ⟨program, hparse, ?_, ?_⟩
  · intro inputs config n
    exact (Program.stands_after hbuilt inputs config n).intact hbuilt
  · intro owner s hs hop
    obtain ⟨left, right, n, first, hb, hhas⟩ :=
      hbuilt.exists_block hs hop OperatorBlock.proper_power
    refine ⟨left, right, n, first, hb, hbuilt.block_stands hhas, ?_, ?_⟩
    · exact hbuilt.endsUnder (Layout.width_power ..) (Layout.orderAt_power_end hhas.laid)
    · exact fun m x y hmeets => hbuilt.raises hhas hmeets

def tenthPower : String :=
  "x = 2 ^ 10\n"

theorem power_executes_tenthPower :
    ∃ (image : Image) (program : Program) (owner : Option FunctionDecl) (s : Site)
      (b : OperatorBlock) (m : Machine) (k : Nat),
      build tenthPower = .ok image ∧ Program.parse tenthPower = .ok program ∧
      (owner, s) ∈ program.sites ∧ s.operator = .binary .pow ∧
      program.operatorAt owner s = some b ∧ b.Meets image m 2 10 ∧
      (m.after k).pc = b.last ∧ b.values image (m.after k) = [some 1024] := by
  obtain ⟨image, program, hbuild, hparse, owner, s, b, m, hs, hop, hb, hmeets, hfree⟩ :=
    exists_meets_of_buildable tenthPower 2 10 OperatorBlock.proper_power
      (by decide +kernel) (by decide +kernel)
  obtain ⟨program', hparse', -, hraises⟩ := power_executes hbuild
  obtain rfl : program = program' := Except.ok.inj (hparse.symm.trans hparse')
  obtain ⟨left, right, n, first, hat, -, -, hcomputes⟩ := hraises owner s hs hop
  obtain rfl : b = Program.blockOf .pow left right n first := Option.some.inj (hb.symm.trans hat)
  obtain ⟨k, -, hpc, hvalues, -⟩ :=
    ((hcomputes m 2 10 hmeets).completes (by decide +kernel)).resolve_right
      fun hlimited => hlimited.maxSteps_ne hfree
  exact ⟨image, program, owner, s, _, m, k, hbuild, hparse, hs, hop, hat, hmeets, hpc, hvalues⟩

end LittleMan
