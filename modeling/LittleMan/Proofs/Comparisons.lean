import LittleMan.Proofs.Blocks.Sites

/-!
# Comparisons

A comparison subtracts one operand from the other and looks at the difference: `BRZ` tells
whether it is zero and `BRP` whether it is not negative.  Which operand comes first and which
truth value a taken branch means depends on the operator.  The difference has to be a word, so
a comparison of operands that are far apart overflows.

The main theorem is about all comparisons in all compiled programs, and about all machines that
have come to the first instruction of one of them with the image intact.
-/

namespace LittleMan

open Mark

namespace BinaryOp

def holds : BinaryOp → Int → Int → Bool
  | .lt, x, y => x < y
  | .gt, x, y => x > y
  | .ltEq, x, y => x ≤ y
  | .gtEq, x, y => x ≥ y
  | .eq, x, y => x = y
  | .notEq, x, y => x ≠ y
  | _, _, _ => false

def difference : BinaryOp → Int → Int → Int
  | .gt, x, y | .ltEq, x, y | .eq, x, y => y - x
  | _, x, y => x - y

/-- A truth value, or nothing if the difference is not a word. -/
def verdict (op : BinaryOp) (x y : Int) : Option Bool :=
  if Word.InRange (op.difference x y) then some (op.holds x y) else none

theorem verdict_eq_some {op : BinaryOp} {x y : Int} {truth : Bool} :
    op.verdict x y = some truth ↔ Word.InRange (op.difference x y) ∧ op.holds x y = truth := by
  simp [verdict]

theorem verdict_eq_none {op : BinaryOp} {x y : Int} :
    op.verdict x y = none ↔ ¬ Word.InRange (op.difference x y) := by
  simp [verdict]

/-- The comparison that says the same of the operands the other way round. -/
def mirror? : BinaryOp → Option BinaryOp
  | .lt => some .gt
  | .gt => some .lt
  | .ltEq => some .gtEq
  | .gtEq => some .ltEq
  | _ => none

theorem verdict_mirror {op op' : BinaryOp} (h : op.mirror? = some op') (x y : Int) :
    op'.verdict y x = op.verdict x y := by
  cases op <;> cases h <;> rfl

theorem isComparison_of_mirror? {op op' : BinaryOp} (h : op.mirror? = some op') :
    op'.isComparison = true := by
  cases op <;> cases h <;> rfl

end BinaryOp

namespace OperatorBlock

/-- The block stores the truth value and goes on after its last instruction, unless a limit of
steps comes before, or stops at the subtraction with an overflow. -/
structure Decides (b : OperatorBlock) (image : Image) (m : Machine) (verdict : Option Bool) :
    Prop where
  completes : ∀ truth, verdict = some truth → (∃ k, m.Keeps k ∧
      (m.after k).pc = b.first + width b.marks ∧
      b.values image (m.after k) = [some (if truth then 1 else 0)] ∧
      ∀ x : Nat, x ∉ b.results.map (fun n => image.address (.temporary n)) →
        (m.after k).memory[x]? = m.memory[x]?) ∨
    Program.LimitedWithin m b.first (b.first + width b.marks)
  overflows : verdict = none → m.Allows 2 →
    ∃ m', m.run = (.faulted ⟨b.first + 1, .arithmeticOverflow⟩, m') ∧ m'.memory = m.memory

end OperatorBlock

namespace Layout

variable {L : Layout} {v : View} {p : Nat} {acc : Word} {cells : Cell → Word}

theorem comparison_leads (hL : L.Placed) {op : BinaryOp} (hop : op.isComparison = true)
    {l r : Cell} {n : Nat} (hlaid : Laid L.code p (combine op l r n))
    (hliteral : ∀ b, cells (.literal (Word.ofBool b)) = Word.ofBool b) :
    L.Leads v p acc cells (Word.InRange (op.difference (cells l).toInt (cells r).toInt)) (p + 7)
      fun _ cells' => cells' = Function.update cells (.temporary n)
        (Word.ofBool (op.holds (cells l).toInt (cells r).toInt)) := by
  have hcompare : ∀ {a b : Cell} {branch : Opcode} {whenTaken taken : Bool},
      Laid L.code p (Mark.compare a b n branch whenTaken) →
      ((branch = .brz ∧ taken = decide ((cells a).toInt = (cells b).toInt)) ∨
        (branch = .brp ∧ taken = decide ((cells b).toInt ≤ (cells a).toInt))) →
      ((taken == whenTaken) = true ↔ op.holds (cells l).toInt (cells r).toInt = true) →
      L.Leads v p acc cells (Word.InRange ((cells a).toInt - (cells b).toInt)) (p + 7)
        fun _ cells' => cells' = Function.update cells (.temporary n)
          (Word.ofBool (op.holds (cells l).toInt (cells r).toInt)) := by
    intro a b branch whenTaken taken hlaid hbranch hholds
    rw [← Bool.eq_iff_iff.2 hholds]
    exact compare_leads hL hlaid hbranch hliteral
  cases op <;> cases hop
  case lt => exact hcompare hlaid (.inr ⟨rfl, rfl⟩) (by simp [BinaryOp.holds])
  case gt => exact hcompare hlaid (.inr ⟨rfl, rfl⟩) (by simp [BinaryOp.holds])
  case ltEq => exact hcompare hlaid (.inr ⟨rfl, rfl⟩) (by simp [BinaryOp.holds])
  case gtEq => exact hcompare hlaid (.inr ⟨rfl, rfl⟩) (by simp [BinaryOp.holds])
  case eq => exact hcompare hlaid (.inl ⟨rfl, rfl⟩) (by simp [BinaryOp.holds, eq_comm])
  case notEq => exact hcompare hlaid (.inl ⟨rfl, rfl⟩) (by simp [BinaryOp.holds])

end Layout

namespace Machine

theorem Displays.subtracts {L : Layout} {address : Cell → Nat} {m : Machine} {v : View}
    (h : Displays L address m m v) (hosts : Hosts L address m) {a b : Cell}
    (hlda : OrderAt L.code v.pc .lda (.cell a)) (hsub : OrderAt L.code (v.pc + 1) .sub (.cell b))
    (hnone : (v.cells a).sub? (v.cells b) = none) (hallows : m.Allows 2) :
    m.run = (.faulted ⟨m.pc + 1, .arithmeticOverflow⟩, m.step.2) ∧
      Displays L address m m.step.2 (v.load (v.cells a)) := by
  obtain ⟨hrunning, hnext⟩ := h.goes hosts ⟨_, _, hlda, rfl⟩ hallows.checkLimit
  have hsteps := hnext.step hosts hsub (by simp) (hallows.step hrunning).checkLimit
  have hturn : L.turn .sub (.cell b) (v.load (v.cells a)) = .faults .arithmeticOverflow :=
    congrArg (Layout.calculate _) hnone
  rw [hturn] at hsteps
  refine ⟨?_, hnext⟩
  cases hsteps with
  | overflows hstep =>
      have hkeeps : m.Keeps 1 := Keeps.succ hrunning fun i hi => absurd hi (by omega)
      apply run_of_keeps hkeeps _ (by simp)
      change m.step.2.runFor 1 = _
      rw [runFor, hstep, hnext.pc, h.pc]
      rfl

end Machine

namespace Program

open OperatorBlock

variable {program : Program} {r : Register} {image : Image} {m : Machine}

theorem proper_comparison {op : BinaryOp} (hop : op.isComparison = true) (left right : Cell)
    (n first : Nat) : (blockOf op left right n first).Proper where
  plain := by
    rw [← List.all_eq_true]
    cases op <;> cases hop <;> rfl
  stores := by
    intro c
    cases op <;> cases hop <;>
      simp [blockOf, resultsOf, combine, Mark.compare, select, written, temporariesOf]
  left := by cases op <;> cases hop <;> simp [blockOf, combine, Mark.compare]
  right := by cases op <;> cases hop <;> simp [blockOf, combine, Mark.compare]
  nodup := nodup_blockOf op left right n first

theorem exists_subtraction {op : BinaryOp} (hop : op.isComparison = true) (left right : Cell)
    (n : Nat) :
    ∃ a b rest, combine op left right n = [lda a, sub b] ++ rest ∧
      ∀ cells : Cell → Word, (cells a).toInt - (cells b).toInt =
        op.difference (cells left).toInt (cells right).toInt := by
  cases op <;> cases hop <;> exact ⟨_, _, _, rfl, fun _ => rfl⟩

/-- A subtraction that overflows stops the run before anything is stored. -/
theorem Built.run_subtraction (hbuilt : program.Built r image) (hintact : image.Intact m)
    (hgoing : m.status ≠ .halted) (hallows : m.Allows 2) {a b : Cell}
    (hlaid : Laid program.code m.pc [lda a, sub b])
    (hrange : ¬ Word.InRange ((image.cells m a).toInt - (image.cells m b).toInt)) :
    ∃ m', m.run = (.faulted ⟨m.pc + 1, .arithmeticOverflow⟩, m') ∧ m'.memory = m.memory := by
  have hplain : ∀ order ∈ [lda a, sub b].flatMap orders,
      Machine.isPlain order.1 order.2 = true := by
    rw [← List.all_eq_true]
    rfl
  have hblock : Laid (program.blockAt image m [lda a, sub b]).code m.pc [lda a, sub b] :=
    laid_blockAt hlaid hplain
  simp only [laid_order] at hblock
  obtain ⟨hrun, hnext⟩ := (hbuilt.displays hintact hgoing [lda a, sub b] (View.start [])).subtracts
    (hbuilt.hosts hintact m.config hlaid hplain) hblock.1 hblock.2.1
    (Word.sub?_eq_none_iff.2 hrange) hallows
  refine ⟨m.step.2, hrun, Array.ext_getElem? fun x => hnext.frame x fun {a' c} hat => ?_⟩
  obtain ⟨⟨hle, hlt⟩, hat⟩ := (Layout.orderAt_only (.inl (by simp))).1 hat
  simpa [orders] using order_of_laid hlaid hle hlt hat

theorem Built.decides (hbuilt : program.Built r image) {op : BinaryOp}
    (hop : op.isComparison = true) {left right : Cell} {n first : Nat}
    (hb : program.HasBlock (blockOf op left right n first)) {x y : Word}
    (hmeets : (blockOf op left right n first).Meets image m x y) :
    (blockOf op left right n first).Decides image m (op.verdict x.toInt y.toInt) := by
  have hx : image.cells m left = x := Image.cells_eq hmeets.left
  have hy : image.cells m right = y := Image.cells_eq hmeets.right
  have hpc : m.pc = first := hmeets.pc
  have hlaid : Laid program.code m.pc (combine op left right n) := hpc ▸ hb.laid
  rw [← hx, ← hy]
  constructor
  · intro truth htruth
    obtain ⟨hrange, rfl⟩ := BinaryOp.verdict_eq_some.1 htruth
    have hliteral : ∀ b, image.cells m (.literal (Word.ofBool b)) = Word.ofBool b := by
      intro b
      apply hbuilt.cells_literal hb hmeets.intact
      cases op <;> cases hop <;> cases b <;> simp [blockOf, combine, Mark.compare, select]
    have hwidth : width (combine op left right n) = 7 := by cases op <;> cases hop <;> rfl
    have hresults : (blockOf op left right n first).results = [n] := by
      cases op <;> cases hop <;> rfl
    have hcompletes := hbuilt.completes_block hmeets.intact hlaid hb.proper.plain hmeets.going
      (fun hplaced hlaid => Layout.comparison_leads hplaced hop hlaid hliteral)
      (fun hruns _ => hwidth ▸ pc_of_transGen hruns) hrange
    have hlast : m.pc + 7 = first + width (combine op left right n) := by rw [hpc, hwidth]
    rw [hlast, hpc] at hcompletes
    refine hcompletes.imp_left ?_
    rintro ⟨k, acc, cells, rfl, hcompletes⟩
    refine ⟨k, hcompletes.keeps, hcompletes.pc, ?_,
      fun x hx => frame_of_completes hb hcompletes x ?_⟩
    · rw [values_of_completes hb hcompletes, hresults, List.map_singleton, Function.update_self]
      cases op.holds (image.cells m left).toInt (image.cells m right).toInt <;> rfl
    · have hwritten : (blockOf op left right n first).written = [.temporary n] := by
        cases op <;> cases hop <;> rfl
      rw [hwritten]
      rwa [hresults] at hx
  · intro hnone hallows
    have hrange := BinaryOp.verdict_eq_none.1 hnone
    obtain ⟨a, b, rest, hmarks, hdifference⟩ := exists_subtraction hop left right n
    rw [hmarks, laid_append] at hlaid
    rw [← hdifference] at hrange
    have hrun := hbuilt.run_subtraction hmeets.intact hmeets.going hallows hlaid.1 hrange
    rw [hpc] at hrun
    exact hrun

end Program

def BinaryOp.Compares (op : BinaryOp) (image : Image) (b : OperatorBlock) (m : Machine)
    (x y : Word) : Prop :=
  ∃ source program owner s, build source = .ok image ∧ Program.parse source = .ok program ∧
    (owner, s) ∈ program.sites ∧ s.operator = .binary op ∧
    program.operatorAt owner s = some b ∧ b.Meets image m x y

theorem Program.Built.exists_comparison {program : Program} {r : Register} {image : Image}
    (hbuilt : program.Built r image) {owner : Option FunctionDecl} {s : Site} {op : BinaryOp}
    (hs : (owner, s) ∈ program.sites) (hop : s.operator = .binary op)
    (hcomparison : op.isComparison = true) :
    ∃ b, program.operatorAt owner s = some b ∧ program.HasBlock b ∧
      ∀ {m : Machine} {x y : Word}, b.Meets image m x y →
        b.Decides image m (op.verdict x.toInt y.toInt) := by
  obtain ⟨left, right, n, first, hb, hhas⟩ :=
    hbuilt.exists_block hs hop (Program.proper_comparison hcomparison)
  exact ⟨_, hb, hhas, fun hmeets => hbuilt.decides hcomparison hhas hmeets⟩

theorem BinaryOp.Compares.decides {op : BinaryOp} {image : Image} {b : OperatorBlock} {m : Machine}
    {x y : Word} (h : op.Compares image b m x y) (hop : op.isComparison = true) :
    b.Decides image m (op.verdict x.toInt y.toInt) := by
  obtain ⟨source, program, owner, s, hbuild, hparse, hs, hsite, hb, hmeets⟩ := h
  obtain ⟨program', r, hparse', -, hbuilt⟩ := Program.built_of_build hbuild
  obtain rfl : program = program' := Except.ok.inj (hparse.symm.trans hparse')
  obtain ⟨b', hb', -, hdecides⟩ := hbuilt.exists_comparison hs hsite hop
  obtain rfl : b = b' := Option.some.inj (hb.symm.trans hb')
  exact hdecides hmeets

/-- Each comparison of a compiled program decides in every machine that has come to it and has
steps enough, if the difference of its operands is a word, and else stops there with an
overflow.  Its mirror image comes to the same on operands the other way round, wherever it
stands. -/
theorem comparison_executes {source : String} {image : Image}
    (hbuild : build source = .ok image) :
    ∃ program, Program.parse source = .ok program ∧
      (∀ inputs config n, image.Intact ((image.start inputs config).after n)) ∧
      ∀ owner s op, (owner, s) ∈ program.sites → s.operator = .binary op →
        op.isComparison = true →
        ∃ b, program.operatorAt owner s = some b ∧ b.Stands image ∧
          ∀ (m : Machine) (x y : Word), b.Meets image m x y →
            b.Decides image m (op.verdict x.toInt y.toInt) ∧
            ∀ op' ∈ op.mirror?, ∀ (image' : Image) (b' : OperatorBlock) (m' : Machine),
              op'.Compares image' b' m' y x →
              ∃ verdict, b.Decides image m verdict ∧ b'.Decides image' m' verdict := by
  obtain ⟨program, r, hparse, -, hbuilt⟩ := Program.built_of_build hbuild
  refine ⟨program, hparse, ?_, ?_⟩
  · intro inputs config n
    exact (Program.stands_after hbuilt inputs config n).intact hbuilt
  · intro owner s op hs hop hcomparison
    obtain ⟨b, hb, hhas, hdecides⟩ := hbuilt.exists_comparison hs hop hcomparison
    refine ⟨b, hb, hbuilt.block_stands hhas, fun m x y hmeets => ⟨hdecides hmeets, ?_⟩⟩
    intro op' hmirror image' b' m' hcompares
    have hdecides' := hcompares.decides (BinaryOp.isComparison_of_mirror? hmirror)
    rw [BinaryOp.verdict_mirror hmirror] at hdecides'
    exact ⟨_, hdecides hmeets, hdecides'⟩

def belowGreatest : String :=
  "x = 1 < 9223372036854775807\n"

theorem comparison_executes_belowGreatest :
    ∃ (image : Image) (program : Program) (owner : Option FunctionDecl) (s : Site)
      (b : OperatorBlock) (m : Machine) (k : Nat),
      build belowGreatest = .ok image ∧ Program.parse belowGreatest = .ok program ∧
      (owner, s) ∈ program.sites ∧ s.operator = .binary .lt ∧
      program.operatorAt owner s = some b ∧ b.Meets image m 1 9223372036854775807 ∧
      (m.after k).pc = b.first + width b.marks ∧ b.values image (m.after k) = [some 1] := by
  obtain ⟨image, program, hbuild, hparse, owner, s, b, m, hs, hop, hb, hmeets, hfree⟩ :=
    exists_meets_of_buildable belowGreatest 1 9223372036854775807
      (Program.proper_comparison (show BinaryOp.lt.isComparison = true from rfl))
      (by decide +kernel) (by decide +kernel)
  obtain ⟨program', hparse', -, hdecides⟩ := comparison_executes hbuild
  obtain rfl : program = program' := Except.ok.inj (hparse.symm.trans hparse')
  obtain ⟨b', hb', -, hdecides⟩ := hdecides owner s .lt hs hop rfl
  obtain rfl : b = b' := Option.some.inj (hb.symm.trans hb')
  obtain ⟨k, -, hpc, hresult, -⟩ :=
    ((hdecides m _ _ hmeets).1.completes true (by decide +kernel)).resolve_right
      fun hlimited => hlimited.maxSteps_ne hfree
  exact ⟨image, program, owner, s, b, m, k, hbuild, hparse, hs, hop, hb, hmeets, hpc, hresult⟩

end LittleMan
