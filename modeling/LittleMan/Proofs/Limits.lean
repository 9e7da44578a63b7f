import LittleMan.Proofs.Schedules

/-!
# Limits of steps

A limit of steps is looked at before an instruction is fetched, and nowhere else.  Below
the limit a machine therefore takes the step that it takes without one, and at the limit it
refuses to go on.  `HLT` counts as a step and a wait for input does not, so a run that comes
to its halt at the limit is still in time, while one that would wait or meet a fault there
is cut short.
-/

namespace LittleMan
namespace Machine

def withLimit (m : Machine) (limit : Option Nat) : Machine :=
  { m with config := { m.config with maxSteps := limit } }

variable {m : Machine} {n : Nat}

/-! ## One step -/

theorem withLimit_plan (m : Machine) (limit : Option Nat) (op : Opcode) (operand : Nat) :
    (m.withLimit limit).plan op operand = m.plan op operand := by
  cases op <;> rfl

theorem withLimit_perform (m : Machine) (limit : Option Nat) (action : Action) :
    (m.withLimit limit).perform action = (m.perform action).withLimit limit := by
  cases action <;> rfl

theorem withLimit_ask (m : Machine) (limit : Option Nat) :
    (m.withLimit limit).ask = (m.ask.1, m.ask.2.withLimit limit) := by
  unfold ask
  rw [show (m.withLimit limit).queue = m.queue from rfl,
    show (m.withLimit limit).keyboard = m.keyboard from rfl]
  split
  next => rfl
  next text keyboard _ _ =>
    dsimp only
    cases Word.parse? (Text.trimmed text) <;> rfl
  all_goals rfl

theorem withLimit_fetch (hfree : m.config.maxSteps = none) (hless : m.steps < n) :
    (m.withLimit (some n)).fetch = m.fetch := by
  have hlimit : (m.withLimit (some n)).checkLimit = .ok () := if_neg (Nat.not_le.2 hless)
  have hnone : m.checkLimit = .ok () := by simp [checkLimit, hfree]
  unfold fetch
  rw [hlimit, hnone]
  rfl

theorem withLimit_step (hfree : m.config.maxSteps = none) (hless : m.steps < n) :
    (m.withLimit (some n)).step = (m.step.1, m.step.2.withLimit (some n)) := by
  have hfetch := withLimit_fetch hfree hless
  have hask : ∀ {answer : Answer} {asked : Machine}, m.ask = (answer, asked) →
      (m.withLimit (some n)).ask = (answer, asked.withLimit (some n)) := by
    intro answer asked h
    rw [withLimit_ask, h]
  have hcases := m.step_cases
  generalize m.step = result at hcases
  cases hcases with
  | rests halted => exact (StepCases.rests (m := m.withLimit (some n)) halted).step_eq
  | refused going fetch =>
      exact (StepCases.refused (m := m.withLimit (some n)) going (hfetch.trans fetch)).step_eq
  | fails going fetch other plan =>
      exact (StepCases.fails (m := m.withLimit (some n)) going (hfetch.trans fetch) other
        ((withLimit_plan m _ _ _).trans plan)).step_eq
  | acts going fetch other plan =>
      have hstep := (StepCases.acts (m := m.withLimit (some n)) going (hfetch.trans fetch) other
        ((withLimit_plan m _ _ _).trans plan)).step_eq
      rwa [withLimit_perform] at hstep
  | takes going fetch ask =>
      have hstep := (StepCases.takes (m := m.withLimit (some n)) going (hfetch.trans fetch)
        (hask ask)).step_eq
      rwa [withLimit_perform] at hstep
  | waits going fetch ask =>
      exact (StepCases.waits (m := m.withLimit (some n)) going (hfetch.trans fetch)
        (hask ask)).step_eq
  | garbled going fetch ask =>
      exact (StepCases.garbled (m := m.withLimit (some n)) going (hfetch.trans fetch)
        (hask ask)).step_eq

theorem withLimit_step_of_le (hgoing : m.status ≠ .halted) (hle : n ≤ m.steps) :
    (m.withLimit (some n)).step =
      (.error ⟨m.pc, .stepLimitExceeded n⟩, m.withLimit (some n)) := by
  have hlimit : (m.withLimit (some n)).checkLimit = .error (.stepLimitExceeded n) := if_pos hle
  have hfetch : (m.withLimit (some n)).fetch = .error (.stepLimitExceeded n) := by
    unfold fetch
    rw [hlimit]
    rfl
  exact (StepCases.refused (m := m.withLimit (some n)) hgoing hfetch).step_eq

/-! ## Whole runs -/

/-- The steps that a machine makes without a limit are made under the limit too, as far as
it goes. -/
theorem Keeps.withLimit (hkeeps : m.Keeps n) (hfree : m.config.maxSteps = none) {limit : Nat}
    (hle : m.steps + n ≤ limit) :
    (m.withLimit (some limit)).Keeps n ∧
      (m.withLimit (some limit)).after n = (m.after n).withLimit (some limit) := by
  induction n with
  | zero => exact ⟨fun i hi => absurd hi (by omega), rfl⟩
  | succ n ih =>
      obtain ⟨hbefore, hstate⟩ := ih (fun i hi => hkeeps i (by omega)) (by omega)
      obtain ⟨hconfig, -, -, hsteps⟩ := hkeeps.bounds (i := n) (by omega)
      have hstep := withLimit_step (m := m.after n) (n := limit) (by rw [hconfig, hfree]) (by omega)
      refine ⟨fun i hi => ?_, ?_⟩
      · rcases Nat.lt_succ_iff_lt_or_eq.1 hi with hi | rfl
        · exact hbefore i hi
        · rw [hstate, hstep]
          exact hkeeps i (by omega)
      · rw [after, hstate, hstep]
        rfl

theorem Keeps.going (hkeeps : m.Keeps n) (hgoing : m.status ≠ .halted) :
    (m.after n).status ≠ .halted := by
  cases n with
  | zero => exact hgoing
  | succ n => simp [(hkeeps.advances (Nat.lt_succ_self n)).running]

/-- The last step of a run counts only if it halts. -/
theorem steps_of_stop (hgoing : m.status ≠ .halted) (hstop : m.step.1 ≠ .ok .running)
    {ending : Ending} {m' : Machine} (hrun : m.runFor 1 = (ending, m')) :
    m'.steps = if ending = .stopped .halted then m.steps + 1 else m.steps := by
  have hcases := m.step_cases
  rw [runFor] at hrun
  generalize m.step = result at hcases hrun hstop
  cases hcases with
  | rests halted => exact absurd halted hgoing
  | refused going fetch =>
      cases hrun
      simp
  | fails going fetch other plan =>
      cases hrun
      simp
  | @acts op operand action going fetch other plan =>
      rcases perform_cases m action with ⟨rfl, -⟩ | ⟨hrunning, -⟩
      · cases hrun
        simp [perform]
      · exact absurd (congrArg Except.ok hrunning) hstop
  | takes going fetch ask => exact absurd rfl hstop
  | waits going fetch ask =>
      cases hrun
      rw [ask_eq ask]
      simp
  | garbled going fetch ask =>
      cases hrun
      rw [ask_eq ask]
      simp

theorem withLimit_runFor_one (hfree : m.config.maxSteps = none) (hless : m.steps < n)
    {ending : Ending} {m' : Machine} (hrun : m.runFor 1 = (ending, m')) :
    (m.withLimit (some n)).runFor 1 = (ending, m'.withLimit (some n)) := by
  rw [runFor] at hrun ⊢
  rw [withLimit_step hfree hless]
  generalize m.step = result at hrun
  obtain ⟨result, next⟩ := result
  cases result with
  | error fault =>
      cases hrun
      rfl
  | ok status =>
      cases status <;> cases hrun <;> rfl

/-- A run has ended below the limit, or has halted with the last step that is allowed. -/
def EndsWithin (limit : Nat) (result : Ending × Machine) : Prop :=
  (result.1 ≠ .unfinished ∧ result.2.steps < limit) ∨
    (result.1 = .stopped .halted ∧ result.2.steps = limit)

instance (limit : Nat) (result : Ending × Machine) : Decidable (EndsWithin limit result) :=
  inferInstanceAs (Decidable (_ ∨ _))

section Fresh

variable (hgoing : m.status ≠ .halted) (hsteps : m.steps = 0)

include hgoing hsteps

theorem endsWithin_iff {t : Nat} (hkeeps : m.Keeps t) (hstop : ((m.after t).step).1 ≠ .ok .running)
    {result : Ending × Machine} (hended : result.1 ≠ .unfinished)
    (hlast : (m.after t).runFor 1 = result) : EndsWithin n result ↔ t < n := by
  have hcount : (m.after t).steps = m.steps + t := (hkeeps.bounds le_rfl).2.2.2
  have hlimit := steps_of_stop (hkeeps.going hgoing) hstop hlast
  unfold EndsWithin
  by_cases hhalted : result.1 = .stopped .halted
  · rw [if_pos hhalted] at hlimit
    simp only [hhalted, ne_eq, reduceCtorEq, not_false_eq_true, true_and]
    omega
  · rw [if_neg hhalted] at hlimit
    simp only [hhalted, hended, ne_eq, not_false_eq_true, true_and, false_and, or_false]
    omega

theorem keeps_of_not_endsWithin (hwithin : ¬ EndsWithin n m.run) : m.Keeps n := by
  by_cases hended : m.run.1 = .unfinished
  · exact run_eq_unfinished_iff.1 hended n
  obtain ⟨t, hkeeps, hstop, hlast⟩ := exists_of_run (rfl : m.run = (m.run.1, m.run.2)) hended
  have hle : n ≤ t := by
    by_contra hless
    exact hwithin ((endsWithin_iff hgoing hsteps hkeeps hstop hended hlast).2 (by omega))
  exact fun i hi => hkeeps i (hi.trans_le hle)

variable (hfree : m.config.maxSteps = none)

include hfree

theorem run_withLimit_of_endsWithin (hwithin : EndsWithin n m.run) :
    (m.withLimit (some n)).run = (m.run.1, m.run.2.withLimit (some n)) := by
  have hended : m.run.1 ≠ .unfinished := by
    rcases hwithin with ⟨hended, -⟩ | ⟨hhalted, -⟩
    · exact hended
    · simp [hhalted]
  obtain ⟨t, hkeeps, hstop, hlast⟩ := exists_of_run (rfl : m.run = (m.run.1, m.run.2)) hended
  have hless : t < n := (endsWithin_iff hgoing hsteps hkeeps hstop hended hlast).1 hwithin
  obtain ⟨hconfig, -, -, hcount⟩ := hkeeps.bounds le_rfl
  have hreach : m.steps + t ≤ n := by omega
  obtain ⟨hlimited, hstate⟩ := hkeeps.withLimit hfree hreach
  refine run_of_keeps hlimited _ hended ?_
  rw [hstate]
  exact withLimit_runFor_one (by rw [hconfig, hfree]) (by omega) hlast

theorem run_withLimit_of_keeps (hkeeps : m.Keeps n) :
    (m.withLimit (some n)).run =
      (.faulted ⟨(m.after n).pc, .stepLimitExceeded n⟩, (m.after n).withLimit (some n)) := by
  have hreach : m.steps + n ≤ n := by omega
  obtain ⟨hlimited, hstate⟩ := hkeeps.withLimit hfree hreach
  have hcount : (m.after n).steps = m.steps + n := (hkeeps.bounds le_rfl).2.2.2
  refine run_of_keeps hlimited _ (by simp) ?_
  rw [hstate, runFor, withLimit_step_of_le (hkeeps.going hgoing) (by omega)]

end Fresh

/-- Any machine loads a program and is given inputs, once without a limit of steps and once
with the limit `n`.  If the first run ends below the limit, or halts with step `n`, then the
second run returns the same and leaves the same machine, its limit apart.  Otherwise the
first machine makes `n` steps, each of which counts, and the second run is cut short in the
state after these, by a fault that names the limit and the program counter. -/
theorem run_under_limit (m : Machine) (memory : Array Word) (inputs : List Word) (n : Nat) :
    let free := ((m.withLimit none).load memory).pushInputs inputs
    let limited := ((m.withLimit (some n)).load memory).pushInputs inputs
    (free.run.1 = .unfinished ↔ ∀ k, free.Keeps k) ∧
      (EndsWithin n free.run → limited.run = (free.run.1, free.run.2.withLimit (some n))) ∧
      (¬ EndsWithin n free.run → free.Keeps n ∧ (free.after n).steps = n ∧
        limited.run =
          (.faulted ⟨(free.after n).pc, .stepLimitExceeded n⟩,
            (free.after n).withLimit (some n))) := by
  intro free limited
  have hfree : free = ((m.withLimit none).load memory).ahead inputs :=
    pushInputs_eq_ahead (by simp [load, reset]) inputs
  have hlimited : limited = free.withLimit (some n) := by
    rw [hfree]
    exact pushInputs_eq_ahead (by simp [load, reset]) inputs
  have hnone : free.config.maxSteps = none := by rw [hfree]; rfl
  have hgoing : free.status ≠ .halted := by simp [hfree, ahead, load, reset]
  have hsteps : free.steps = 0 := by rw [hfree]; rfl
  rw [hlimited]
  refine ⟨run_eq_unfinished_iff, run_withLimit_of_endsWithin hgoing hsteps hnone, fun hwithin => ?_⟩
  have hkeeps := keeps_of_not_endsWithin hgoing hsteps hwithin
  have hcount : (free.after n).steps = free.steps + n := (hkeeps.bounds le_rfl).2.2.2
  exact ⟨hkeeps, by omega, run_withLimit_of_keeps hgoing hsteps hnone hkeeps⟩

/-- With both inputs the program halts with its fifth step, which a limit of five allows.
With one of them it waits after two steps, for which a limit of two is too low. -/
theorem run_under_limit_echo :
    let start (limit : Option Nat) (inputs : List Word) :=
      (((Machine.new {}).withLimit limit).load echo).pushInputs inputs
    EndsWithin 5 (start none [5, 7]).run ∧
      (start (some 5) [5, 7]).run =
        ((start none [5, 7]).run.1, (start none [5, 7]).run.2.withLimit (some 5)) ∧
      ¬ EndsWithin 2 (start none [5]).run ∧
      (start (some 2) [5]).run.1 = .faulted ⟨2, .stepLimitExceeded 2⟩ := by
  intro start
  have hwithin : EndsWithin 5 (start none [5, 7]).run := by decide +kernel
  have hcut : ¬ EndsWithin 2 (start none [5]).run := by decide +kernel
  have hpc : ((start none [5]).after 2).pc = 2 := by decide +kernel
  refine ⟨hwithin, (run_under_limit (.new {}) echo [5, 7] 5).2.1 hwithin, hcut, ?_⟩
  obtain ⟨-, -, hrun⟩ := (run_under_limit (.new {}) echo [5] 2).2.2 hcut
  exact (congrArg Prod.fst hrun).trans (by rw [hpc])

end Machine
end LittleMan
