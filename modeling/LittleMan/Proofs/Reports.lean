import LittleMan.Proofs.Blueprint.Labels
import LittleMan.Proofs.Horizon
import LittleMan.Proofs.Loaded

/-!
# Reports on programs

A run of views from the start of a program, on a machine without a limit of steps, is a
run of that machine.  What its last order comes to decides the report: how the run ended,
what was put out, and the last values of the variables of the main program.
-/

namespace LittleMan
namespace Program

variable {program : Program} {r : Register} {image : Image} {config : Config}
  {m : Machine} {v v' : View}

theorem Shows.checkLimit (h : program.Shows r image config m v) (hfree : config.maxSteps = none) :
    m.checkLimit = .ok () := by
  simp [Machine.checkLimit, h.limits, hfree]

theorem Shows.runs (h : program.Shows r image config m v) (hbuilt : program.Built r image)
    (hfree : config.maxSteps = none) (hruns : (program.layout image config).Runs v v') :
    ∃ n, m.Keeps n ∧ program.Shows r image config (m.after n) v' := by
  induction hruns with
  | refl => exact ⟨0, fun i hi => absurd hi (by omega), h⟩
  | tail _ hgoes ih =>
      obtain ⟨n, hkeeps, hshows⟩ := ih
      obtain ⟨op, target, hat, hturn⟩ := hgoes
      have hsteps := hshows.step hbuilt hat (hshows.checkLimit hfree)
      rw [hturn] at hsteps
      cases hsteps with
      | goes step shows =>
          refine ⟨n + 1, fun i hi => ?_, ?_⟩
          · rcases Nat.lt_succ_iff_lt_or_eq.1 hi with hlt | rfl
            · exact hkeeps i hlt
            · rw [step]
          · rw [Machine.after, step]
            exact shows

/-- The last values of the variables of the main program, and what was put out. -/
structure Shown (program : Program) (report : Report) (v : View) : Prop where
  transcript : report.transcript = String.join (v.output.map Output.text)
  valueOf? : ∀ x, report.valueOf? x =
    if x ∈ program.globals then some (v.cells (.var none x)) else none

theorem label_global (x : String) : (Cell.var none x).label = "global_var_" ++ x := by
  show "global" ++ "_" ++ ("var_" ++ x) = _
  rw [← String.append_assoc]
  rfl

/-- Only the cell of a global variable has its label. -/
theorem Built.find?_global (h : program.Built r image) (x : String) :
    (x ∈ program.globals → ∃ i, r.cells[i]? = some (.var none x) ∧
        image.labels.find? ("global_var_" ++ x) = some (program.code.length + i)) ∧
      (x ∉ program.globals → image.labels.find? ("global_var_" ++ x) = none) := by
  obtain ⟨⟨sheet, hspelled⟩, hassembled⟩ := h
  rw [← label_global]
  constructor
  · intro hx
    obtain ⟨i, hi⟩ := List.getElem?_of_mem ((hspelled.globals x).2 hx)
    exact ⟨i, hi, hassembled.cell hi⟩
  · intro hx
    by_contra hfound
    obtain ⟨a, ha⟩ := Option.ne_none_iff_exists'.1 hfound
    rcases hassembled.found ha with ⟨l, ⟨entry, hentry, hplace⟩, hlabel⟩ | ⟨i, c, hc, -, hlabel⟩
    · have hl : l ∈ Mark.places program.marks := by
        rw [← program.places_code]
        exact List.mem_filterMap.2 ⟨entry, List.mem_of_getElem? hentry, hplace⟩
      obtain ⟨g, f, y, -, hvar⟩ := Place.label_eq_cell (program.formed_of_mem_places hl) hlabel
      cases hvar
    · rcases Cell.label_eq_cases hlabel with rfl | ⟨f, g, y, z, -, hvar⟩
      · exact hx ((hspelled.globals x).1 (List.mem_of_getElem? hc))
      · cases hvar

theorem Shows.shown (h : program.Shows r image config m v) (hbuilt : program.Built r image)
    {report : Report} (hlabels : report.labels = image.labels)
    (htranscript : report.transcript = m.transcript)
    (hmemory : report.snapshot.memory = m.memory) : program.Shown report v := by
  refine ⟨?_, fun x => ?_⟩
  · rw [htranscript, Machine.transcript, h.output]
  · obtain ⟨hin, hout⟩ := hbuilt.find?_global x
    unfold Report.valueOf?
    rw [hlabels, hmemory]
    split
    next hx =>
      obtain ⟨i, hi, hfind⟩ := hin hx
      rw [hfind]
      exact h.cell hi
    next hx =>
      rw [hout hx]
      rfl

section Endings

variable {inputs : List Word}

theorem Built.run_halts (hbuilt : program.Built r image) (hfree : config.maxSteps = none)
    (hruns : (program.layout image config).Runs (View.start inputs) v)
    (hturns : (program.layout image config).Turns v .halts) :
    ∃ report, image.run inputs config = .ok report ∧
      report.outcome = Outcome.ofHalt image.labels (some v.pc) ∧ program.Shown report v := by
  obtain ⟨n, hkeeps, hshows⟩ :=
    (hbuilt.assembled.shows_start inputs config).runs hbuilt hfree hruns
  obtain ⟨op, target, hat, hturn⟩ := hturns
  have hsteps := hshows.step hbuilt hat (hshows.checkLimit hfree)
  rw [hturn] at hsteps
  cases hsteps with
  | halts step =>
      have hrun := Machine.run_of_keeps hkeeps (.stopped .halted) (by simp)
        (by rw [Machine.runFor, step])
      refine ⟨_, congrArg (Report.ofEnding image.labels) hrun, ?_, ?_⟩
      · exact congrArg (fun pc => Outcome.ofHalt image.labels (some pc)) hshows.pc
      · exact hshows.shown hbuilt rfl rfl rfl

theorem Built.run_waits (hbuilt : program.Built r image) (hfree : config.maxSteps = none)
    (hruns : (program.layout image config).Runs (View.start inputs) v)
    (hturns : (program.layout image config).Turns v .waits) :
    ∃ report, image.run inputs config = .ok report ∧ report.outcome = .awaitingInput ∧
      program.Shown report v := by
  obtain ⟨n, hkeeps, hshows⟩ :=
    (hbuilt.assembled.shows_start inputs config).runs hbuilt hfree hruns
  obtain ⟨op, target, hat, hturn⟩ := hturns
  have hsteps := hshows.step hbuilt hat (hshows.checkLimit hfree)
  rw [hturn] at hsteps
  cases hsteps with
  | waits step =>
      have hrun := Machine.run_of_keeps hkeeps (.stopped .awaitingInput) (by simp)
        (by rw [Machine.runFor, step])
      exact ⟨_, congrArg (Report.ofEnding image.labels) hrun, rfl,
        hshows.shown hbuilt rfl rfl rfl⟩

theorem Built.run_faults (hbuilt : program.Built r image) (hfree : config.maxSteps = none)
    (hruns : (program.layout image config).Runs (View.start inputs) v) {cause : FaultCause}
    (hturns : (program.layout image config).Turns v (.faults cause)) :
    image.run inputs config = .error (.runtime ⟨v.pc, cause⟩) := by
  obtain ⟨n, hkeeps, hshows⟩ :=
    (hbuilt.assembled.shows_start inputs config).runs hbuilt hfree hruns
  obtain ⟨op, target, hat, hturn⟩ := hturns
  have hsteps := hshows.step hbuilt hat (hshows.checkLimit hfree)
  rw [hturn] at hsteps
  cases hsteps with
  | faults step =>
      have hrun := Machine.run_of_keeps hkeeps (.faulted ⟨_, cause⟩) (by simp)
        (by rw [Machine.runFor, step])
      rw [hshows.pc] at hrun
      exact congrArg (Report.ofEnding image.labels) hrun

/-- The labels at an address of the code are those of its places. -/
theorem Assembled.ofHalt_eq (h : program.Assembled r image) {a : Nat}
    (hlt : a < program.code.length) :
    ((∃ l, PlaceAt program.code a l ∧ Outcome.isAssertionLabel l.label = true) →
        Outcome.ofHalt image.labels (some a) = .assertionFailed a) ∧
      ((¬ ∃ l, PlaceAt program.code a l ∧ Outcome.isAssertionLabel l.label = true) →
        Outcome.ofHalt image.labels (some a) = .completed) := by
  have hany : (image.labels.entries.any fun entry =>
      entry.2 == a && Outcome.isAssertionLabel entry.1) = true ↔
      ∃ l, PlaceAt program.code a l ∧ Outcome.isAssertionLabel l.label = true := by
    simp only [List.any_eq_true, Bool.and_eq_true, beq_iff_eq, Prod.exists]
    constructor
    · rintro ⟨name, _, hmem, rfl, hname⟩
      rcases h.found (image.labels.mem_entries_iff.1 hmem) with
        ⟨l, hl, rfl⟩ | ⟨i, c, -, heq, -⟩
      · exact ⟨l, hl, hname⟩
      · omega
    · rintro ⟨l, hl, hname⟩
      exact ⟨l.label, a, image.labels.mem_entries_iff.2 (h.place hl), rfl, hname⟩
  constructor
  · intro hplace
    exact if_pos (hany.2 hplace)
  · intro hplace
    exact if_neg fun htrue => hplace (hany.1 htrue)

end Endings

end Program
end LittleMan
