import LittleMan.Proofs.Assertions
import LittleMan.Proofs.Simulation.Statements

/-!
# Compiled programs follow their evaluation

A program without functions that has been built runs as its tree is evaluated.  If the
evaluation comes to an end, the report tells the same end, the same output and the same
values of the variables; if an operation overflows, the run stops with this fault.
-/

namespace LittleMan

open Mark Layout

/-- The output of an evaluation and the values of the variables that the program assigns
to. -/
structure Report.Tells (report : Report) (program : Program) (σ : Store) : Prop where
  transcript : report.transcript = σ.transcript
  valueOf? : ∀ x, (report.valueOf? x).map Int64.toInt =
    if x ∈ program.globals then some (σ.vars x) else none

/-- A run gives the answer that an evaluation asks for.  An evaluation that has run out of
fuel asks for nothing. -/
def Program.Answers (program : Program) (result : Except PipelineError Report) :
    Except Interrupt Store → Prop
  | .ok σ => ∃ report, result = .ok report ∧ report.outcome = .completed ∧ report.Tells program σ
  | .error (.failed σ) => ∃ report address, result = .ok report ∧
      report.outcome = .assertionFailed address ∧ report.Tells program σ
  | .error (.waiting σ) => ∃ report, result = .ok report ∧ report.outcome = .awaitingInput ∧
      report.Tells program σ
  | .error .overflowed => ∃ address, result = .error (.runtime ⟨address, .arithmeticOverflow⟩)
  | .error .unsupported => False
  | .error .unfinished => True

theorem mirrors_start (inputs : List Word) : Mirrors { queue := inputs } (View.start inputs) where
  vars := fun _ => rfl
  literals := fun _ => rfl
  queue := rfl
  transcript := rfl

namespace Program

variable {program : Program} {r : Register} {image : Image} {config : Config}
  {inputs : List Word} {report : Report} {σ : Store} {v : View}

theorem Shown.tells (h : program.Shown report v) (hmirrors : Mirrors σ v) :
    report.Tells program σ where
  transcript := h.transcript.trans hmirrors.transcript
  valueOf? := by
    intro x
    rw [h.valueOf?, ← hmirrors.vars]
    split <;> rfl

theorem Spelled.plain {sheet : Sheet} (h : program.Spelled sheet r)
    (hfunctions : program.functions = []) : program.emitMain.marks.all isLocal = true := by
  rw [List.all_eq_true]
  intro mark hmark
  have hmarks : mark ∈ program.marks := List.mem_append_left _ (List.mem_append_left _ hmark)
  cases mark with
  | place l => rfl
  | order op target => rfl
  | refused => exact absurd hmarks h.accepted
  | giveBack value address => exact absurd hmark (h.returns value address)
  | receive params =>
      exact absurd hmark ((Stmt.emitBlock_guarded none program.main {}).receive_not_mem params)
  | call callee args result =>
      obtain ⟨g, hg, -⟩ := h.calls callee args result hmarks
      simp [declared, hfunctions, functionsOf] at hg

theorem Built.executes (hbuilt : program.Built r image) (hfunctions : program.functions = [])
    (config : Config) (fuel : Nat) :
    Executes (program.layout image config) none 0 0 program.mainHalt
      (Stmt.execBlock fuel program.main) := by
  obtain ⟨⟨sheet, hspelled⟩, hassembled⟩ := hbuilt
  have hlaid := program.laid_marks
  rw [marks, laid_append, laid_append] at hlaid
  rw [mainHalt, ← Nat.zero_add (width _)]
  exact Stmt.emitBlock_executes (fun a l => hassembled.place_eq config) fuel none program.main {}
    hlaid.1.1 (hspelled.plain hfunctions)

section Answers

variable (hbuilt : program.Built r image) (hfree : config.maxSteps = none)
include hbuilt hfree

theorem Built.answers_completed (hruns : (program.layout image config).Runs (View.start inputs) v)
    (hpc : v.pc = program.mainHalt) (hmirrors : Mirrors σ v) :
    program.Answers (image.run inputs config) (.ok σ) := by
  have hturns : (program.layout image config).Turns v .halts :=
    ⟨.hlt, .none, ⟨none, hpc ▸ program.code_mainHalt⟩, rfl⟩
  obtain ⟨report, hrun, houtcome, hshown⟩ := hbuilt.run_halts hfree hruns hturns
  refine ⟨report, hrun, houtcome.trans ?_, hshown.tells hmirrors⟩
  rw [hpc]
  exact hbuilt.ofHalt_mainHalt

theorem Built.answers_failed {n : Nat}
    (hruns : (program.layout image config).Runs (View.start inputs) v)
    (hturns : (program.layout image config).Turns v .halts)
    (hplace : PlaceAt program.code v.pc (failure n)) (hmirrors : Mirrors σ v) :
    program.Answers (image.run inputs config) (.error (.failed σ)) := by
  obtain ⟨report, hrun, houtcome, hshown⟩ := hbuilt.run_halts hfree hruns hturns
  obtain ⟨op, target, hat, -⟩ := hturns
  refine ⟨report, v.pc, hrun, houtcome.trans ?_, hshown.tells hmirrors⟩
  exact (hbuilt.assembled.ofHalt_eq (lt_length_of_orderAt hat)).1
    ⟨failure n, hplace, isAssertionLabel_failure n⟩

theorem Built.answers (hfunctions : program.functions = []) (inputs : List Word) (fuel : Nat) :
    program.Answers (image.run inputs config) (program.evaluate fuel inputs) := by
  have hreaches := hbuilt.executes hfunctions config fuel rfl (mirrors_start inputs)
  rw [evaluate]
  generalize Stmt.execBlock fuel program.main { queue := inputs } = result at hreaches ⊢
  cases result with
  | ok ended =>
      obtain ⟨v, hruns, hpc, hmirrors, hnext, -⟩ := hreaches
      obtain ⟨flow, σ⟩ := ended
      obtain rfl : flow = .next := hnext rfl
      exact hbuilt.answers_completed hfree hruns hpc hmirrors
  | error interrupt =>
      cases interrupt with
      | failed σ =>
          obtain ⟨v, n, hruns, hturns, hplace, hmirrors⟩ := hreaches
          exact hbuilt.answers_failed hfree hruns hturns hplace hmirrors
      | waiting σ =>
          obtain ⟨v, hruns, hturns, hmirrors⟩ := hreaches
          obtain ⟨report, hrun, houtcome, hshown⟩ := hbuilt.run_waits hfree hruns hturns
          exact ⟨report, hrun, houtcome, hshown.tells hmirrors⟩
      | overflowed =>
          obtain ⟨v, hruns, hturns⟩ := hreaches
          exact ⟨v.pc, hbuilt.run_faults hfree hruns hturns⟩
      | unsupported => exact hreaches
      | unfinished => trivial

end Answers

end Program

/-- Without a limit of steps, a program without functions that can be built answers every
evaluation of its tree: the report tells how the evaluation ends, what it puts out and the
values that it leaves in the variables, and an operation that overflows stops the run. -/
theorem run_answers_evaluate {source : String} {image : Image} {program : Program}
    (hbuild : build source = .ok image) (hparse : Program.parse source = .ok program)
    (hfunctions : program.functions = []) {config : Config} (hfree : config.maxSteps = none)
    (inputs : List Word) (fuel : Nat) :
    program.Answers (run source inputs config) (program.evaluate fuel inputs) := by
  have hrun : run source inputs config = image.run inputs config := by
    simp [run, hbuild, bind, Except.bind]
  obtain ⟨program', r, hparse', -, hbuilt⟩ := Program.built_of_build hbuild
  obtain rfl : program' = program := Except.ok.inj (hparse'.symm.trans hparse)
  rw [hrun]
  exact hbuilt.answers hfree hfunctions inputs fuel

def oddSquares : String :=
  "n = input()\nfor i = 1 to n\nif i MOD 2 == 0 then\ncontinue\nendif\nprint(i * i)\nnext i\nassert(n > 4)\n"

theorem run_answers_evaluate_oddSquares :
    ∃ program σ report address, Program.parse oddSquares = .ok program ∧
      program.functions = [] ∧ program.evaluate 10 [3] = .error (.failed σ) ∧
      run oddSquares [3] {} = .ok report ∧ report.outcome = .assertionFailed address ∧
      report.transcript = "1\n9\n" := by
  obtain ⟨image, hbuild⟩ : ∃ image, build oddSquares = .ok image :=
    exists_image_of_buildable (by decide +kernel)
  have hfails : (Program.parse oddSquares).toOption.any (fun program =>
      program.functions.isEmpty && match program.evaluate 10 [3] with
        | .error (.failed σ) => σ.transcript == "1\n9\n"
        | _ => false) = true := by decide +kernel
  cases hparse : Program.parse oddSquares with
  | error error =>
      rw [hparse] at hfails
      cases hfails
  | ok program =>
      rw [hparse] at hfails
      obtain ⟨hfunctions, hfailed⟩ := Bool.and_eq_true_iff.1 hfails
      rw [List.isEmpty_iff] at hfunctions
      split at hfailed
      next σ heval =>
        have hanswers := run_answers_evaluate hbuild hparse hfunctions
          (rfl : ({} : Config).maxSteps = none) [3] 10
        rw [heval] at hanswers
        obtain ⟨report, address, hrun, houtcome, htells⟩ := hanswers
        exact ⟨program, σ, report, address, rfl, hfunctions, heval, hrun, houtcome,
          htells.transcript.trans (beq_iff_eq.1 hfailed)⟩
      next => cases hfailed

end LittleMan
