import LittleMan.Proofs.Reports
import LittleMan.Proofs.Safety

/-!
# Failed assertions

A failed assertion is a halt like any other and is told by the label where the machine has
halted.  The labels tell the truth: a compiled program halts at the `HLT` of its main
program or at the `HLT` of an assertion, and it gets to the latter only by the branch of
that assertion, with a condition that is zero.
-/

namespace LittleMan

open Mark

def Machine.HaltsAt (m : Machine) (a : Nat) : Prop :=
  ∃ n, m.Keeps n ∧ (m.after n).pc = a ∧ ((m.after n).step).1 = .ok .halted

/-- The instructions from an address on are the branch of an assertion to its `HLT`, the
branch past it, and the `HLT` with its label. -/
structure Image.AssertsAt (image : Image) (n p : Nat) : Prop where
  test : ∃ i : Instruction, image.instructions[p]? = some i ∧ i.opcode = .brz ∧
    i.operand = .label ("assert_" ++ toString n ++ "_fail")
  skip : ∃ i : Instruction, image.instructions[p + 1]? = some i ∧ i.opcode = .bra ∧
    i.operand = .label ("assert_" ++ toString n ++ "_ok")
  halt : ∃ i : Instruction, image.instructions[p + 2]? = some i ∧ i.opcode = .hlt ∧
    i.label = some ("assert_" ++ toString n ++ "_fail")

theorem isAssertionLabel_failure (n : Nat) :
    Outcome.isAssertionLabel (failure n).label = true := by
  simp only [Outcome.isAssertionLabel, Bool.and_eq_true, List.isPrefixOf_iff_prefix,
    List.isSuffixOf_iff_suffix, Place.label, Family.stem, String.toList_append]
  exact ⟨List.append_assoc "assert_".toList _ _ ▸ List.prefix_append _ _,
    List.suffix_append _ _⟩

namespace Program

variable {program : Program} {r : Register} {image : Image} {config : Config}
  {inputs : List Word} {v v' : View}

/-! ## Where a program halts -/

section Halts

variable (hbuilt : program.Built r image)
include hbuilt

theorem Built.placeAt (config : Config) {p : Nat} {op : Opcode} {l : Place}
    (hat : OrderAt program.code p op (.place l)) :
    PlaceAt program.code ((program.layout image config).place l) l := by
  obtain ⟨⟨sheet, hspelled⟩, hassembled⟩ := hbuilt
  obtain ⟨a, ha⟩ := program.placeAt_of_mem (hspelled.mem_places (mem_orders_of_orderAt hat))
  rwa [hassembled.place_eq config ha]

theorem halts_cases {frames : List Frame}
    (h : Admits (program.layout image config) program.regions frames v .halts) :
    v.pc = program.mainHalt ∨ ∃ p n, v.pc = p + 2 ∧ Laid program.code p (guard n) := by
  cases h with
  | @halts ρ done rest mem here pc stack =>
      have hformed := (hbuilt.parted config).formed ρ mem
      rcases hformed.halt_cases here with ⟨hfunction, rfl⟩ | ⟨n, before, after, hbody, hwidth⟩
      · obtain rfl := eq_mainRegion mem hfunction
        obtain ⟨rfl, -⟩ := List.append_inj' here rfl
        exact .inl (pc.trans (Nat.zero_add _))
      · refine .inr ⟨ρ.start + width before, n, ?_, hformed.laid_at hbody⟩
        rw [pc, hwidth, Nat.add_assoc]

/-- The `HLT` of an assertion is reached by its branch, on a zero. -/
theorem fails_of_goes {op : Opcode} {target : Target}
    (hat : OrderAt program.code v.pc op target)
    (hturn : (program.layout image config).turn op target v = .goes v')
    {frames frames' : List Frame}
    (hway : Way (program.layout image config) program.regions frames v frames' v') {p n : Nat}
    (hguard : Laid program.code p (guard n)) (hpc : v'.pc = p + 2) : v.pc = p ∧ v.acc = 0 := by
  obtain ⟨htest, hskip, hplace, hhalt⟩ := laid_guard.1 hguard
  -- the word before the `HLT` branches past it
  have hnext : v.pc ≠ p + 1 := by
    intro hv
    obtain ⟨rfl, rfl⟩ := hat.unique (hv ▸ hskip)
    obtain rfl : v.jump ((program.layout image config).place (success n)) = v' :=
      Turn.goes.inj hturn
    have hsuccess := hbuilt.placeAt config hskip
    rw [show (program.layout image config).place (success n) = p + 2 from hpc] at hsuccess
    exact absurd (hsuccess.unique hplace) (by simp)
  cases hway with
  | next pc => exact absurd (by omega) hnext
  | store => exact absurd (Nat.succ.inj hpc) hnext
  | call mem here site pc => exact absurd (by omega) hnext
  | @branch ρ done rest op' l mem here pc =>
      have hformed := (hbuilt.parted config).formed ρ mem
      have hbranch : OrderAt program.code v.pc op' (.place l) := pc ▸ (hformed.orders here).1
      have hl := hbuilt.placeAt config hbranch
      rw [show (program.layout image config).place l = p + 2 from hpc] at hl
      obtain rfl := hl.unique hplace
      obtain ⟨after, hbody⟩ := hformed.failure_cases here
      have hlaid : Laid program.code v.pc (guard n) := pc ▸ hformed.laid_at hbody
      obtain ⟨htest', -, hplace', -⟩ := laid_guard.1 hlaid
      have hv : v.pc = p := by
        have haddress : v.pc + 2 = p + 2 :=
          (hbuilt.assembled.place_eq config hplace').symm.trans hpc
        omega
      obtain ⟨rfl, rfl⟩ := hat.unique htest'
      refine ⟨hv, ?_⟩
      by_contra hacc
      have hgoes : v.next = v.jump ((program.layout image config).place (failure n)) := by
        simpa [Layout.turn, hacc] using hturn
      have hsame : v.pc + 1 = p + 2 := (congrArg View.pc hgoes).trans hpc
      omega
  | @enter ρ f params mem here =>
      have hentry := ((hbuilt.parted config).formed ρ mem).entry here
      rw [show ρ.base = p + 2 from hpc] at hentry
      cases hentry.1.unique hplace
  | @back frame frames' rest callee result top mem here =>
      have hpop := ((hbuilt.parted config).formed frame.region mem).orderAt_returnAddress here
      rw [show frame.region.returnAddress frame.done frame.args = p + 2 from hpc] at hpop
      cases (hpop.unique hhalt).1

end Halts

/-! ## Runs -/

theorem Built.goes_of_running (hbuilt : program.Built r image) {m : Machine}
    {frames : List Frame} (shows : program.Shows r image config m v)
    (safe : Safe program.regions frames v) (h : m.step.1 = .ok .running) :
    ∃ op target frames' v', OrderAt program.code v.pc op target ∧
      (program.layout image config).turn op target v = .goes v' ∧
      program.Shows r image config m.step.2 v' ∧ Safe program.regions frames' v' ∧
      Way (program.layout image config) program.regions frames v frames' v' := by
  rcases step_cases shows safe hbuilt with ⟨limit, -, hstep⟩ |
    ⟨op, target, t, hat, hturn, hsteps, hadmits⟩
  · simp [hstep] at h
  cases hsteps with
  | goes step shows' =>
      cases hadmits with
      | goes safe' way => exact ⟨op, target, _, _, hat, hturn, step ▸ shows', safe', way⟩
  | halts step => simp [step] at h
  | waits step => simp [step] at h
  | faults step => simp [step] at h

theorem Built.halts_of_halted (hbuilt : program.Built r image) {m : Machine}
    {frames : List Frame} (shows : program.Shows r image config m v)
    (safe : Safe program.regions frames v) (h : m.step.1 = .ok .halted) :
    m.step = (.ok .halted, m.perform .halt) ∧
      Admits (program.layout image config) program.regions frames v .halts := by
  rcases step_cases shows safe hbuilt with ⟨limit, -, hstep⟩ |
    ⟨op, target, t, -, -, hsteps, hadmits⟩
  · simp [hstep] at h
  cases hsteps with
  | goes step shows' => simp [step] at h
  | halts step => exact ⟨step, hadmits⟩
  | waits step => simp [step] at h
  | faults step => simp [step] at h

theorem Built.going_after (hbuilt : program.Built r image) {n : Nat}
    (hkeeps : (image.start inputs config).Keeps n) :
    ∃ frames v, program.Shows r image config ((image.start inputs config).after n) v ∧
      Safe program.regions frames v := by
  induction n with
  | zero => exact ⟨_, _, hbuilt.assembled.shows_start inputs config, safe_start hbuilt inputs⟩
  | succ n ih =>
      obtain ⟨frames, v, shows, safe⟩ := ih fun i hi => hkeeps i (by omega)
      obtain ⟨-, -, frames', v', -, -, shows', safe', -⟩ :=
        hbuilt.goes_of_running shows safe (hkeeps n (by omega))
      exact ⟨frames', v', shows', safe'⟩

section Outcomes

variable (hbuilt : program.Built r image)
include hbuilt

theorem Built.run_of_haltsAt {a : Nat} (h : (image.start inputs config).HaltsAt a) :
    ∃ report, image.run inputs config = .ok report ∧
      report.outcome = Outcome.ofHalt image.labels (some a) := by
  obtain ⟨n, hkeeps, rfl, hhalted⟩ := h
  obtain ⟨frames, v, shows, safe⟩ := hbuilt.going_after hkeeps
  obtain ⟨hstep, -⟩ := hbuilt.halts_of_halted shows safe hhalted
  have hrun := Machine.run_of_keeps hkeeps (.stopped .halted) (by simp)
    (by rw [Machine.runFor, hstep])
  exact ⟨_, congrArg (Report.ofEnding image.labels) hrun, rfl⟩

theorem Built.haltsAt_of_run {report : Report} (h : image.run inputs config = .ok report)
    (hended : report.outcome ≠ .awaitingInput) :
    ∃ a, (image.start inputs config).HaltsAt a ∧
      report.outcome = Outcome.ofHalt image.labels (some a) := by
  obtain ⟨ending, m', hrun⟩ : ∃ ending m', (image.start inputs config).run = (ending, m') :=
    ⟨_, _, rfl⟩
  rw [Image.run, hrun] at h
  cases ending with
  | unfinished => cases h
  | faulted fault => cases h
  | stopped status =>
      obtain ⟨t, hkeeps, hstop, hlast⟩ := Machine.exists_of_run hrun (by simp)
      obtain rfl := Except.ok.inj h
      have hstatus : status ≠ .awaitingInput := by
        rintro rfl
        exact hended (by simp)
      obtain ⟨frames, v, shows, safe⟩ := hbuilt.going_after hkeeps
      have hhalted : (((image.start inputs config).after t).step).1 = .ok .halted := by
        rw [Machine.runFor] at hlast
        split at hlast
        next next hstep => simp [hstep] at hstop
        next status' next hne hstep =>
          obtain rfl : status' = status := by simpa using congrArg Prod.fst hlast
          cases status' with
          | running => exact absurd rfl hne
          | halted => rw [hstep]
          | awaitingInput => exact absurd rfl hstatus
        next => simp at hlast
      obtain ⟨hstep, -⟩ := hbuilt.halts_of_halted shows safe hhalted
      refine ⟨_, ⟨t, hkeeps, rfl, hhalted⟩, ?_⟩
      rw [Machine.runFor, hstep] at hlast
      obtain ⟨-, rfl⟩ := Prod.mk.inj hlast
      exact if_neg hstatus

/-- A run halts in the main program, or right after the branch of an assertion. -/
theorem Built.haltsAt_cases {a : Nat} (h : (image.start inputs config).HaltsAt a) :
    a = program.mainHalt ∨ ∃ k p n, a = p + 2 ∧ Laid program.code p (guard n) ∧
      (image.start inputs config).Keeps (k + 1) ∧
      ((image.start inputs config).after k).pc = p ∧
      ((image.start inputs config).after k).accumulator = 0 ∧
      ((image.start inputs config).after (k + 1)).pc = a ∧
      (((image.start inputs config).after (k + 1)).step).1 = .ok .halted := by
  obtain ⟨t, hkeeps, rfl, hhalted⟩ := h
  obtain ⟨frames', v', shows', safe'⟩ := hbuilt.going_after hkeeps
  obtain ⟨-, hadmits⟩ := hbuilt.halts_of_halted shows' safe' hhalted
  rcases halts_cases hbuilt hadmits with hmain | ⟨p, n, hpc, hguard⟩
  · exact .inl (shows'.pc.trans hmain)
  right
  cases t with
  | zero =>
      have hzero : v'.pc = 0 :=
        shows'.pc.symm.trans (hbuilt.assembled.shows_start inputs config).pc
      omega
  | succ k =>
      obtain ⟨frames, v, shows, safe⟩ :=
        hbuilt.going_after fun i hi => hkeeps i (Nat.lt_succ_of_lt hi)
      obtain ⟨op, target, framesAfter, u, hat, hturn, hshown, -, hway⟩ :=
        hbuilt.goes_of_running shows safe (hkeeps k (by omega))
      have hu : u.pc = p + 2 := by
        rw [← hshown.pc, ← hpc, ← shows'.pc]
        rfl
      obtain ⟨hv, hacc⟩ := fails_of_goes hbuilt hat hturn hway hguard hu
      exact ⟨k, p, n, shows'.pc.trans hpc, hguard, hkeeps, shows.pc.trans hv, shows.acc.trans hacc,
        rfl, hhalted⟩

theorem Built.assertsAt {p n : Nat} (h : Laid program.code p (guard n)) : image.AssertsAt n p := by
  obtain ⟨⟨place, htest⟩, ⟨place', hskip⟩, ⟨entry, hentry, hplace⟩, ⟨place'', hhalt⟩⟩ :=
    laid_guard.1 h
  obtain rfl := Option.some.inj (hentry.symm.trans hhalt)
  obtain ⟨i, hi, hparts⟩ := hbuilt.assembled.instructionAt htest
  obtain ⟨j, hj, hparts'⟩ := hbuilt.assembled.instructionAt hskip
  obtain ⟨k, hk, hparts''⟩ := hbuilt.assembled.instructionAt hhalt
  refine ⟨⟨i, hi, congrArg (·.2.1) hparts, congrArg (·.2.2) hparts⟩,
    ⟨j, hj, congrArg (·.2.1) hparts', congrArg (·.2.2) hparts'⟩,
    ⟨k, hk, congrArg (·.2.1) hparts'', ?_⟩⟩
  have hlabel : k.label = place''.map Place.label := congrArg Prod.fst hparts''
  rw [hlabel, show place'' = some (failure n) from hplace]
  rfl

theorem Built.ofHalt_guard {p n : Nat} (h : Laid program.code p (guard n)) :
    Outcome.ofHalt image.labels (some (p + 2)) = .assertionFailed (p + 2) := by
  obtain ⟨-, -, hplace, hhalt⟩ := laid_guard.1 h
  exact (hbuilt.assembled.ofHalt_eq (lt_length_of_orderAt hhalt)).1
    ⟨failure n, hplace, isAssertionLabel_failure n⟩

theorem Built.ofHalt_mainHalt :
    Outcome.ofHalt image.labels (some program.mainHalt) = .completed := by
  have hcode := program.code_mainHalt
  refine (hbuilt.assembled.ofHalt_eq (List.getElem?_eq_some_iff.1 hcode).1).2 ?_
  rintro ⟨l, ⟨entry, hentry, hplace⟩, -⟩
  obtain rfl := Option.some.inj (hentry.symm.trans hcode)
  cases hplace

end Outcomes

end Program

/-- For every input and all limits, a compiled program that halts does so at the `HLT` of
its main program or at the `HLT` of an assertion.  The outcome is a failed assertion at an
address exactly if the run went from the branch of an assertion, with zero in the
accumulator, to the `HLT` at this address.  The outcome is a completed run exactly if the
run halted in the main program. -/
theorem run_outcome {source : String} {image : Image} (hbuild : build source = .ok image) :
    ∃ program, Program.parse source = .ok program ∧
      ∀ (inputs : List Word) (config : Config) (start : Machine),
        start = image.start inputs config →
        (∀ a, start.HaltsAt a →
            a = program.mainHalt ∨ ∃ p n, a = p + 2 ∧ image.AssertsAt n p) ∧
          (∀ a, (∃ report, run source inputs config = .ok report ∧
              report.outcome = .assertionFailed a) ↔
            ∃ k p n, a = p + 2 ∧ image.AssertsAt n p ∧ start.Keeps (k + 1) ∧
              (start.after k).pc = p ∧ (start.after k).accumulator = 0 ∧
              (start.after (k + 1)).pc = a ∧
              ((start.after (k + 1)).step).1 = .ok .halted) ∧
          ((∃ report, run source inputs config = .ok report ∧ report.outcome = .completed) ↔
            start.HaltsAt program.mainHalt) := by
  obtain ⟨program, r, hparse, -, hbuilt⟩ := Program.built_of_build hbuild
  refine ⟨program, hparse, ?_⟩
  rintro inputs config start rfl
  have hrun : run source inputs config = image.run inputs config := by
    simp [run, hbuild, bind, Except.bind]
  rw [hrun]
  refine ⟨fun a ha => ?_, fun a => ⟨?_, ?_⟩, ⟨?_, ?_⟩⟩
  · rcases hbuilt.haltsAt_cases ha with hmain | ⟨k, p, n, hp, hguard, -⟩
    · exact .inl hmain
    · exact .inr ⟨p, n, hp, hbuilt.assertsAt hguard⟩
  · rintro ⟨report, hreport, houtcome⟩
    obtain ⟨b, hb, hhalt⟩ := hbuilt.haltsAt_of_run hreport (by simp [houtcome])
    rw [houtcome] at hhalt
    rcases hbuilt.haltsAt_cases hb with rfl | ⟨k, p, n, rfl, hguard, hrest⟩
    · simp [hbuilt.ofHalt_mainHalt] at hhalt
    · rw [hbuilt.ofHalt_guard hguard] at hhalt
      obtain rfl : a = p + 2 := Outcome.assertionFailed.inj hhalt
      exact ⟨k, p, n, rfl, hbuilt.assertsAt hguard, hrest⟩
  · rintro ⟨k, p, n, rfl, hasserts, hkeeps, -, -, hpc, hhalted⟩
    obtain ⟨report, hreport, houtcome⟩ := hbuilt.run_of_haltsAt ⟨k + 1, hkeeps, hpc, hhalted⟩
    refine ⟨report, hreport, houtcome.trans ?_⟩
    rcases hbuilt.haltsAt_cases ⟨k + 1, hkeeps, hpc, hhalted⟩ with hmain | ⟨_, p', n', hp, hguard, -⟩
    · -- the `HLT` of the main program has no label
      obtain ⟨i, hi, -, hlabel⟩ := hasserts.halt
      obtain ⟨j, hj, hparts⟩ := hbuilt.assembled.instructionAt (hmain ▸ program.code_mainHalt)
      obtain rfl := Option.some.inj (hi.symm.trans hj)
      cases hlabel.symm.trans (congrArg Prod.fst hparts)
    · rw [hp]
      exact hbuilt.ofHalt_guard hguard
  · rintro ⟨report, hreport, houtcome⟩
    obtain ⟨a, ha, hhalt⟩ := hbuilt.haltsAt_of_run hreport (by simp [houtcome])
    rcases hbuilt.haltsAt_cases ha with rfl | ⟨k, p, n, rfl, hguard, -⟩
    · exact ha
    · rw [hbuilt.ofHalt_guard hguard, houtcome] at hhalt
      cases hhalt
  · intro hhalts
    obtain ⟨report, hreport, houtcome⟩ := hbuilt.run_of_haltsAt hhalts
    exact ⟨report, hreport, houtcome.trans hbuilt.ofHalt_mainHalt⟩

/-- Identifiers that look like labels of an assertion. -/
def assertLike : String :=
  "function assert_0_fail(x)\nassert(x)\nendfunction\nassert_1_ok = assert_0_fail(0)\n"

theorem run_outcome_assertLike :
    ∃ image program, build assertLike = .ok image ∧ Program.parse assertLike = .ok program ∧
      ∀ inputs config, (∃ report, run assertLike inputs config = .ok report ∧
        report.outcome = .completed) ↔ (image.start inputs config).HaltsAt program.mainHalt := by
  obtain ⟨image, hbuild⟩ : ∃ image, build assertLike = .ok image :=
    exists_image_of_buildable (by decide +kernel)
  obtain ⟨program, hparse, houtcome⟩ := run_outcome hbuild
  exact ⟨image, program, hbuild, hparse, fun inputs config => (houtcome inputs config _ rfl).2.2⟩

end LittleMan
