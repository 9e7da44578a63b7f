import LittleMan.Machine.Run
import Mathlib

/-!
# What a step does

`Machine.StepCases` lists what one step of a machine can come to.  A machine that has
halted rests.  Otherwise an instruction is fetched, which may be refused.  An instruction
other than `INP` acts, unless its plan fails; `INP` takes a value, waits for one, or finds
a line that it cannot read.

A run is a number of such steps, and keeps what each of them keeps.
-/

namespace LittleMan
namespace Machine

/-- A request for input changes nothing but the input that is left. -/
theorem ask_eq {m asked : Machine} {answer : Answer} (h : m.ask = (answer, asked)) :
    asked = { m with queue := asked.queue, keyboard := asked.keyboard } := by
  unfold ask at h
  split at h
  next => exact (Prod.mk.inj h).2 ▸ rfl
  next =>
    simp only at h
    split at h <;> exact (Prod.mk.inj h).2 ▸ rfl
  all_goals exact (Prod.mk.inj h).2 ▸ rfl

inductive StepCases (m : Machine) : Except Fault Status × Machine → Prop
  | rests (halted : m.status = .halted) : StepCases m (.ok .halted, m)
  | refused {cause : FaultCause} (going : m.status ≠ .halted) (fetch : m.fetch = .error cause) :
      StepCases m (.error ⟨m.pc, cause⟩, m)
  | fails {op : Opcode} {operand : Nat} {cause : FaultCause} (going : m.status ≠ .halted)
      (fetch : m.fetch = .ok (op, operand)) (other : op ≠ .inp)
      (plan : m.plan op operand = .error cause) : StepCases m (.error ⟨m.pc, cause⟩, m)
  | acts {op : Opcode} {operand : Nat} {action : Action} (going : m.status ≠ .halted)
      (fetch : m.fetch = .ok (op, operand)) (other : op ≠ .inp)
      (plan : m.plan op operand = .ok action) :
      StepCases m (.ok (m.perform action).status, m.perform action)
  | takes {operand : Nat} {value : Word} {asked : Machine} (going : m.status ≠ .halted)
      (fetch : m.fetch = .ok (.inp, operand)) (ask : m.ask = (.value value, asked)) :
      StepCases m (.ok .running, asked.perform (.load value))
  | waits {operand : Nat} {asked : Machine} (going : m.status ≠ .halted)
      (fetch : m.fetch = .ok (.inp, operand)) (ask : m.ask = (.nothing, asked)) :
      StepCases m (.ok .awaitingInput, { asked with status := .awaitingInput })
  | garbled {operand : Nat} {text : String} {asked : Machine} (going : m.status ≠ .halted)
      (fetch : m.fetch = .ok (.inp, operand)) (ask : m.ask = (.unreadable text, asked)) :
      StepCases m (.error ⟨m.pc, .invalidInput text⟩, asked)

theorem step_cases (m : Machine) : StepCases m m.step := by
  by_cases hstatus : m.status = .halted
  · rw [step, if_pos hstatus]
    exact .rests hstatus
  rw [step, if_neg hstatus]
  split
  next cause hfetch => exact .refused hstatus hfetch
  next op operand hfetch =>
    split
    next hop =>
      subst hop
      rw [input]
      split
      next value asked hask => exact .takes hstatus hfetch hask
      next asked hask => exact .waits hstatus hfetch hask
      next text asked hask =>
        have hpc : asked.pc = m.pc := by rw [ask_eq hask]
        rw [hpc]
        exact .garbled hstatus hfetch hask
    next hop =>
      split
      next cause hplan => exact .fails hstatus hfetch hop hplan
      next action hplan => exact .acts hstatus hfetch hop hplan

/-- The cases exclude each other. -/
theorem StepCases.step_eq {m : Machine} {result : Except Fault Status × Machine}
    (h : StepCases m result) : m.step = result := by
  cases h with
  | rests halted => rw [step, if_pos halted]
  | refused going fetch => rw [step, if_neg going, fetch]
  | fails going fetch other plan =>
      rw [step, if_neg going, fetch]
      simp only [if_neg other, plan]
  | acts going fetch other plan =>
      rw [step, if_neg going, fetch]
      simp only [if_neg other, plan]
  | takes going fetch ask =>
      rw [step, if_neg going, fetch]
      simp only [if_true, input, ask]
  | waits going fetch ask =>
      rw [step, if_neg going, fetch]
      simp only [if_true, input, ask]
  | garbled going fetch ask =>
      have hpc := congrArg Machine.pc (ask_eq ask)
      rw [step, if_neg going, fetch]
      simp only [if_true, input, ask, hpc]

theorem checkLimit_error {m : Machine} {cause : FaultCause} (h : m.checkLimit = .error cause) :
    ∃ limit, m.config.maxSteps = some limit ∧ cause = .stepLimitExceeded limit := by
  unfold checkLimit at h
  cases hlimit : m.config.maxSteps with
  | none => simp [hlimit] at h
  | some limit =>
      simp only [hlimit] at h
      split at h
      · exact ⟨limit, rfl, (Except.error.inj h).symm⟩
      · cases h

theorem fetch_ok {m : Machine} {op : Opcode} {operand : Nat} (h : m.fetch = .ok (op, operand)) :
    m.checkLimit = .ok () ∧ m.pc < m.memory.size := by
  cases hlimit : m.checkLimit with
  | error cause => simp [fetch, hlimit, bind, Except.bind] at h
  | ok _ =>
      refine ⟨rfl, ?_⟩
      by_contra hpc
      have hread : m.memory[m.pc]? = none := Array.getElem?_eq_none (by omega)
      simp [fetch, hlimit, read, hread, bind, Except.bind] at h

/-- The word at the program counter decodes to the instruction that is fetched. -/
theorem decode_of_fetch {m : Machine} {op : Opcode} {operand : Nat}
    (h : m.fetch = .ok (op, operand)) :
    ∃ word, m.memory[m.pc]? = some word ∧ Opcode.decode word = some (op, operand) := by
  obtain ⟨hlimit, hpc⟩ := fetch_ok h
  have hread : m.memory[m.pc]? = some m.memory[m.pc] := Array.getElem?_eq_getElem hpc
  refine ⟨_, hread, ?_⟩
  simp only [fetch, hlimit, read, hread, bind, Except.bind] at h
  split at h
  next instruction hdecode => rw [hdecode, Except.ok.inj h]
  next => cases h

theorem steps_lt_of_fetch {m : Machine} {op : Opcode} {operand : Nat}
    (h : m.fetch = .ok (op, operand)) {limit : Nat} (hlimit : m.config.maxSteps = some limit) :
    m.steps < limit := by
  have hchecked := (fetch_ok h).1
  simp only [checkLimit, hlimit] at hchecked
  split at hchecked
  · cases hchecked
  · omega

/-- What is performed ends with `HLT`, or goes on. -/
theorem perform_cases (m : Machine) (action : Action) :
    (action = .halt ∧ (m.perform action).status = .halted ∧ (m.perform action).pc = m.pc ∧
        (m.perform action).haltedAt = some m.pc) ∨
      ((m.perform action).status = .running ∧ (m.perform action).haltedAt = m.haltedAt) := by
  cases action with
  | halt => exact .inl ⟨rfl, rfl, rfl, rfl⟩
  | _ => exact .inr ⟨rfl, rfl⟩

theorem advances_perform (m : Machine) (action : Action) :
    (m.perform action).config = m.config ∧ (m.perform action).memory.size = m.memory.size ∧
      (m.perform action).steps = m.steps + 1 ∧ (m.perform action).queue = m.queue ∧
      (m.perform action).keyboard = m.keyboard := by
  cases action <;> simp [perform, proceed, put]

/-- At most one word of the memory is written. -/
theorem perform_memory (m : Machine) (action : Action) :
    ∃ a : Nat, ∀ b : Nat, b ≠ a → (m.perform action).memory[b]? = m.memory[b]? := by
  cases action with
  | store address =>
      refine ⟨address, fun b hb => ?_⟩
      exact Array.getElem?_setIfInBounds_ne (Ne.symm hb)
  | _ => exact ⟨0, fun _ _ => rfl⟩

theorem step_memory (m : Machine) :
    m.step.2.memory.size = m.memory.size ∧
      ∃ a : Nat, ∀ b : Nat, b ≠ a → m.step.2.memory[b]? = m.memory[b]? := by
  have hcases := m.step_cases
  generalize m.step = result at hcases
  cases hcases with
  | acts going fetch other plan =>
      exact ⟨(advances_perform m _).2.1, perform_memory m _⟩
  | takes going fetch ask =>
      rw [ask_eq ask]
      exact ⟨rfl, 0, fun _ _ => rfl⟩
  | waits going fetch ask =>
      rw [ask_eq ask]
      exact ⟨rfl, 0, fun _ _ => rfl⟩
  | garbled going fetch ask =>
      rw [ask_eq ask]
      exact ⟨rfl, 0, fun _ _ => rfl⟩
  | _ => exact ⟨rfl, 0, fun _ _ => rfl⟩

/-- No step changes the limits of a machine. -/
theorem step_config (m : Machine) : m.step.2.config = m.config := by
  have hcases := m.step_cases
  generalize m.step = result at hcases
  cases hcases with
  | acts going fetch other plan => exact (advances_perform m _).1
  | takes going fetch ask =>
      rw [ask_eq ask]
      rfl
  | waits going fetch ask => rw [ask_eq ask]
  | garbled going fetch ask => rw [ask_eq ask]
  | _ => rfl

/-! ## Runs -/

theorem runFor_running {m : Machine} (h : m.step.1 = .ok .running) (n : Nat) :
    m.runFor (n + 1) = m.step.2.runFor n := by
  rw [runFor, show m.step = (.ok .running, m.step.2) from Prod.ext h rfl]

theorem runFor_stopped {m : Machine} (h : m.step.1 ≠ .ok .running) (n : Nat) :
    (m.runFor (n + 1)).2 = m.step.2 := by
  rw [runFor]
  split
  next next hstep => exact absurd (by rw [hstep]) h
  next hstep => rw [hstep]
  next hstep => rw [hstep]

/-- What every step keeps, a run keeps. -/
theorem runFor_induct {P : Machine → Prop} (hstep : ∀ m, P m → P m.step.2) (n : Nat) {m : Machine}
    (h : P m) : P (m.runFor n).2 := by
  induction n generalizing m with
  | zero => exact h
  | succ n ih =>
      by_cases hrunning : m.step.1 = .ok .running
      · rw [runFor_running hrunning]
        exact ih (hstep m h)
      · rw [runFor_stopped hrunning]
        exact hstep m h

end Machine
end LittleMan
