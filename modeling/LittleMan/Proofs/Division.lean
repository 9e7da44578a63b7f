import LittleMan.Proofs.Blocks.Sites

/-!
# Floored division

A quotient and a remainder are computed together, by subtracting the magnitude of the divisor
from that of the dividend and counting.  `/` takes the quotient and `%` takes the remainder.
The main theorem is about all blocks of this kind in all compiled programs, and about all
machines that have come to the first instruction of one of them with the image intact.
-/

namespace LittleMan

open Mark

def Word.Divisible (a b : Int) : Prop :=
  a ≠ -0x8000000000000000 ∧ b ≠ -0x8000000000000000 ∧ b ≠ 0 ∧
    ¬ (|a| = 0x7fffffffffffffff ∧ |b| = 1)

instance (a b : Int) : Decidable (Word.Divisible a b) :=
  inferInstanceAs (Decidable (_ ∧ _ ∧ _ ∧ ¬ (_ ∧ _)))

theorem Word.fmod_sign (a : Int) {b : Int} (hb : b ≠ 0) :
    a.fmod b = 0 ∨ (a.fmod b).sign = b.sign := by
  rcases lt_or_gt_of_ne hb with hneg | hpos
  · have hlt := Int.emod_lt_abs a hb
    rw [abs_of_neg hneg] at hlt
    rw [Int.fmod_eq_emod]
    split
    next hdvd =>
      left
      rw [Int.emod_eq_zero_of_dvd (hdvd.resolve_left (by omega)), Int.add_zero]
    next =>
      right
      rw [Int.sign_eq_neg_one_of_neg hneg, Int.sign_eq_neg_one_of_neg (by omega)]
  · rcases (Int.fmod_nonneg_of_pos a hpos).eq_or_lt with hzero | hsign
    · exact .inl hzero.symm
    · right
      rw [Int.sign_eq_one_of_pos hsign, Int.sign_eq_one_of_pos hpos]

namespace OperatorBlock

def division (l r : Cell) (quotient remainder : Nat) (w : DivisionCells) (base first : Nat) :
    OperatorBlock where
  left := l
  right := r
  results := [quotient, remainder]
  work := [w.dividend, w.divisor, w.leftNegative, w.rightNegative]
  base := base
  marks := floorDivMod l r quotient remainder w base
  first := first

theorem proper_division (l r : Cell) (quotient remainder : Nat) (w : DivisionCells)
    (base first : Nat)
    (hnodup : [quotient, remainder, w.dividend, w.divisor, w.leftNegative,
      w.rightNegative].Nodup) :
    (division l r quotient remainder w base first).Proper where
  plain := by
    rw [← List.all_eq_true]
    rfl
  stores := by
    intro c
    simp only [division, floorDivMod, divisionOperands, divisionLoop, divisionSigns, magnitude,
      copy, sum, difference, anchor, stores_lda, stores_sta, stores_add, stores_sub, stores_jump,
      stores_place, stores_bare, stores_nil, written, List.cons_append, List.nil_append,
      List.map_cons, List.map_nil, List.mem_cons, List.not_mem_nil]
    tauto
  left := by simp [division, floorDivMod, divisionOperands, magnitude]
  right := by simp [division, floorDivMod, divisionOperands, magnitude]
  nodup := hnodup

theorem proper_quotient (l r : Cell) (n first : Nat) :
    (Program.blockOf .div l r n first).Proper :=
  proper_division l r n (n + 1) (.startingAt (n + 2)) n first
    (Program.nodup_blockOf .div l r n first)

theorem proper_remainder (l r : Cell) (n first : Nat) :
    (Program.blockOf .mod l r n first).Proper :=
  proper_division l r (n + 1) n (.startingAt (n + 2)) n first
    (Program.nodup_blockOf .mod l r n first)

end OperatorBlock

namespace Program

open OperatorBlock

variable {program : Program} {r : Register} {image : Image} {m : Machine} {left right : Cell}
  {quotient remainder base first : Nat} {w : DivisionCells}

theorem HasBlock.apart
    (hb : program.HasBlock (division left right quotient remainder w base first)) :
    Layout.Apart quotient remainder w := by
  have hnodup : [quotient, remainder, w.dividend, w.divisor, w.leftNegative,
      w.rightNegative].Nodup := hb.proper.nodup
  simp only [List.nodup_cons, List.mem_cons, List.not_mem_nil, or_false, not_or] at hnodup
  constructor <;> tauto

/-- A division in the code computes the quotient and the remainder. -/
theorem Built.divides (hbuilt : program.Built r image)
    (hb : program.HasBlock (division left right quotient remainder w base first)) {x y : Word}
    (hmeets : (division left right quotient remainder w base first).Meets image m x y) :
    (division left right quotient remainder w base first).Computes image m
      (Word.Divisible x.toInt y.toInt)
      [x.toInt.fdiv y.toInt, x.toInt - x.toInt.fdiv y.toInt * y.toInt] := by
  have hx : image.cells m left = x := Image.cells_eq hmeets.left
  have hy : image.cells m right = y := Image.cells_eq hmeets.right
  have hzero := hbuilt.cells_literal hb hmeets.intact 0
    (by simp [division, floorDivMod, divisionOperands])
  have hone := hbuilt.cells_literal hb hmeets.intact 1
    (by simp [division, floorDivMod, divisionOperands, magnitude])
  refine hbuilt.computes hb hmeets (show width (floorDivMod ..) = 57 from rfl)
    (Layout.orderAt_floorDivMod_end hb.laid).2 fun hplaced hlaid => ?_
  refine (Layout.floorDivMod_reaches hplaced hlaid hb.apart hb.left hb.right hzero hone
    (congrArg Int64.toInt hx) (congrArg Int64.toInt hy)).mono ?_
  rintro acc cells ⟨hquotient, hremainder, -⟩
  simp only [division, List.map_cons, List.map_nil, hquotient, hremainder, Int.fmod_def,
    Int.mul_comm]

theorem Built.hasDivision (hbuilt : program.Built r image) {owner : Option FunctionDecl}
    {s : Site} {op : BinaryOp} (hs : (owner, s) ∈ program.sites) (hop : s.operator = .binary op)
    (hdiv : op = .div ∨ op = .mod) :
    ∃ left right quotient remainder w base first,
      program.operatorAt owner s =
        some (division left right quotient remainder w base first) ∧
      program.HasBlock (division left right quotient remainder w base first) := by
  rcases hdiv with rfl | rfl
  · obtain ⟨left, right, n, first, hb, hhas⟩ := hbuilt.exists_block hs hop proper_quotient
    exact ⟨left, right, n, n + 1, .startingAt (n + 2), n, first, hb, hhas⟩
  · obtain ⟨left, right, n, first, hb, hhas⟩ := hbuilt.exists_block hs hop proper_remainder
    exact ⟨left, right, n + 1, n, .startingAt (n + 2), n, first, hb, hhas⟩

end Program

/-- No run of a compiled program changes its instructions and literals.  Each of its blocks with
`/` or `%` divides in every machine that has come to it with these intact, whatever the rest
of the memory holds.  The remainder is zero or has the sign of the divisor.  A limit of steps
may cut the block short, which then happens inside of it.  With operands that cannot be divided,
zero as the divisor among them, the machine never comes to the end of the block. -/
theorem floorDivMod_executes {source : String} {image : Image}
    (hbuild : build source = .ok image) :
    ∃ program, Program.parse source = .ok program ∧
      (∀ inputs config n, image.Intact ((image.start inputs config).after n)) ∧
      ∀ owner s op, (owner, s) ∈ program.sites → s.operator = .binary op →
        op = .div ∨ op = .mod →
        ∃ left right quotient remainder w base first,
          let b := OperatorBlock.division left right quotient remainder w base first
          program.operatorAt owner s = some b ∧ b.Stands image ∧ b.EndsUnder image "_end" ∧
          ∀ (m : Machine) (x y : Word), b.Meets image m x y →
            let rest := x.toInt - x.toInt.fdiv y.toInt * y.toInt
            b.Computes image m (Word.Divisible x.toInt y.toInt) [x.toInt.fdiv y.toInt, rest] ∧
            (y.toInt ≠ 0 → rest = 0 ∨ rest.sign = y.toInt.sign) := by
  obtain ⟨program, r, hparse, -, hbuilt⟩ := Program.built_of_build hbuild
  refine ⟨program, hparse, ?_, ?_⟩
  · intro inputs config n
    exact (Program.stands_after hbuilt inputs config n).intact hbuilt
  · intro owner s op hs hop hdiv
    obtain ⟨left, right, quotient, remainder, w, base, first, hat, hb⟩ :=
      hbuilt.hasDivision hs hop hdiv
    refine ⟨left, right, quotient, remainder, w, base, first, hat, hbuilt.block_stands hb,
      hbuilt.endsUnder rfl (Layout.orderAt_floorDivMod_end hb.laid), ?_⟩
    intro m x y hmeets
    refine ⟨hbuilt.divides hb hmeets, fun hy => ?_⟩
    rw [Int.mul_comm, ← Int.fmod_def]
    exact Word.fmod_sign _ hy

def quarters : String :=
  "function f()\nreturn 9 / 4\nendfunction\nx = f()\n"

theorem floorDivMod_executes_quarters :
    ∃ (image : Image) (program : Program) (owner : Option FunctionDecl) (s : Site)
      (b : OperatorBlock) (m : Machine) (k : Nat),
      build quarters = .ok image ∧ Program.parse quarters = .ok program ∧
      (owner, s) ∈ program.sites ∧ s.operator = .binary .div ∧
      program.operatorAt owner s = some b ∧ b.Meets image m 9 4 ∧
      (m.after k).pc = b.last ∧ b.values image (m.after k) = [some 2, some 1] := by
  obtain ⟨image, program, hbuild, hparse, owner, s, b, m, hs, hop, hb, hmeets, hfree⟩ :=
    exists_meets_of_buildable quarters 9 4 OperatorBlock.proper_quotient
      (by decide +kernel) (by decide +kernel)
  obtain ⟨program', hparse', -, hdivides⟩ := floorDivMod_executes hbuild
  obtain rfl : program = program' := Except.ok.inj (hparse.symm.trans hparse')
  obtain ⟨left, right, quotient, remainder, w, base, first, hat, -, -, hcomputes⟩ :=
    hdivides owner s .div hs hop (.inl rfl)
  obtain rfl : b = .division left right quotient remainder w base first :=
    Option.some.inj (hb.symm.trans hat)
  obtain ⟨k, -, hpc, hvalues, -⟩ :=
    ((hcomputes m 9 4 hmeets).1.completes (by decide +kernel)).resolve_right
      fun hlimited => hlimited.maxSteps_ne hfree
  exact ⟨image, program, owner, s, _, m, k, hbuild, hparse, hs, hop, hat, hmeets, hpc, hvalues⟩

end LittleMan
