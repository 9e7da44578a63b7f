import LittleMan.Proofs.Horizon

/-!
# Sessions

A session is what somebody does with one machine: programs are loaded, inputs are pushed,
steps and runs are made, snapshots are taken and restored.  Requests come in any order, and
one that fails leaves the machine as it was returned.

Status, program counter and the address of the halt are written by many requests.
`Machine.Sound` says how they fit together; it holds from the start, every request keeps it,
and so do the snapshots that a session has taken.
-/

namespace LittleMan

/-- What can be asked of a machine.  The last one goes back to a snapshot of the session. -/
inductive Request where
  | load (memory : Array Word)
  | assemble (source : String)
  | push (value : Word)
  | connect (keyboard : Keyboard)
  | listen
  | step
  | run
  | reset
  | snapshot
  | restore (number : Nat)
deriving DecidableEq, Repr

/-- A machine and the snapshots that were taken of it, the last one first. -/
structure Session where
  machine : Machine
  taken : List Snapshot := []
deriving DecidableEq, Repr

namespace Session

def new (config : Config) : Session :=
  { machine := .new config }

def serve (s : Session) : Request → Session
  | .load memory => { s with machine := s.machine.load memory }
  | .assemble source =>
      match s.machine.loadSource source with
      | .ok (_, machine) => { s with machine }
      | .error _ => s
  | .push value => { s with machine := s.machine.pushInput value }
  | .connect keyboard => { s with machine := s.machine.withKeyboard keyboard }
  | .listen => { s with machine := s.machine.listen }
  | .step => { s with machine := s.machine.step.2 }
  | .run => { s with machine := s.machine.run.2 }
  | .reset => { s with machine := s.machine.reset }
  | .snapshot => { s with taken := s.machine.snapshot :: s.taken }
  | .restore number =>
      match s.taken[number]? with
      | some snapshot => { s with machine := s.machine.restore snapshot }
      | none => s

def serveAll (s : Session) (requests : List Request) : Session :=
  requests.foldl serve s

end Session

/-! ## Sound machines -/

/-- A machine that waits is at an `INP`, and the stack has not outgrown its limit. -/
structure Snapshot.Sound (config : Config) (s : Snapshot) : Prop where
  waits : s.status = .awaitingInput → ∃ word operand, s.memory[s.pc]? = some word ∧
    Opcode.decode word = some (.inp, operand)
  stack : s.stack.length ≤ config.maxStack

structure Machine.Sound (m : Machine) : Prop where
  snapshot : m.snapshot.Sound m.config
  haltedAt : m.haltedAt = if m.status = .halted then some m.pc else none
  steps : ∀ limit, m.config.maxSteps = some limit → m.steps ≤ limit

namespace Machine

/-- A machine that goes on at the start, or after a step. -/
theorem sound_running {m : Machine} (hstatus : m.status = .running) (hhalted : m.haltedAt = none)
    (hstack : m.stack.length ≤ m.config.maxStack)
    (hsteps : ∀ limit, m.config.maxSteps = some limit → m.steps ≤ limit) : m.Sound where
  snapshot := ⟨fun hwaits => absurd (hstatus.symm.trans hwaits) (by decide), hstack⟩
  haltedAt := by simp [hstatus, hhalted]
  steps := hsteps

theorem sound_reset (m : Machine) : m.reset.Sound :=
  sound_running rfl rfl (Nat.zero_le _) fun _ _ => Nat.zero_le _

namespace Sound

variable {m : Machine}

theorem haltedAt_none (h : m.Sound) (hgoing : m.status ≠ .halted) : m.haltedAt = none := by
  rw [h.haltedAt, if_neg hgoing]

/-- Input and output do not matter. -/
theorem congr (h : m.Sound) (queue : List Word) (keyboard : Option Keyboard)
    (heard : Option (Array Output)) : { m with queue, keyboard, heard }.Sound :=
  ⟨⟨h.snapshot.waits, h.snapshot.stack⟩, h.haltedAt, h.steps⟩

theorem perform (h : m.Sound) (hgoing : m.status ≠ .halted) {op : Opcode} {operand : Nat}
    {action : Action} (hfetch : m.fetch = .ok (op, operand))
    (hplan : m.plan op operand = .ok action) : (m.perform action).Sound := by
  obtain ⟨hconfig, -, hsteps, -⟩ := advances_perform m action
  have hstack : (m.perform action).stack.length ≤ (m.perform action).config.maxStack := by
    have hbefore : m.stack.length ≤ m.config.maxStack := h.snapshot.stack
    rw [hconfig]
    rcases stack_of_plan hplan with ⟨rfl, hroom⟩ | ⟨top, rest, rfl, hstack⟩ | hsame
    · exact hroom
    · rw [hstack, List.length_cons] at hbefore
      exact Nat.le_of_succ_le hbefore
    · rwa [hsame]
  have hlimit : ∀ limit, (m.perform action).config.maxSteps = some limit →
      (m.perform action).steps ≤ limit := by
    intro limit hlimit
    rw [hconfig] at hlimit
    rw [hsteps]
    exact steps_lt_of_fetch hfetch hlimit
  rcases perform_cases m action with ⟨-, hhalted, hpc, hat⟩ | ⟨hrunning, hat⟩
  · refine ⟨⟨fun hwaits => ?_, hstack⟩, ?_, hlimit⟩
    · cases hhalted.symm.trans hwaits
    · rw [hat, hhalted, hpc, if_pos rfl]
  · exact sound_running hrunning (hat.trans (h.haltedAt_none hgoing)) hstack hlimit

theorem step (h : m.Sound) : m.step.2.Sound := by
  have hcases := m.step_cases
  generalize m.step = result at hcases
  cases hcases with
  | rests halted => exact h
  | refused going fetch => exact h
  | fails going fetch other plan => exact h
  | acts going fetch other plan => exact h.perform going fetch plan
  | takes going fetch ask =>
      rw [ask_eq ask]
      exact sound_running rfl (h.haltedAt_none going) h.snapshot.stack
        fun limit hlimit => steps_lt_of_fetch fetch hlimit
  | waits going fetch ask =>
      rw [ask_eq ask]
      exact ⟨⟨fun _ => (decode_of_fetch fetch).imp fun word hword => ⟨_, hword⟩, h.snapshot.stack⟩,
        h.haltedAt_none going, h.steps⟩
  | garbled going fetch ask =>
      rw [ask_eq ask]
      exact h.congr _ _ m.heard

theorem run (h : m.Sound) : m.run.2.Sound := by
  rw [run_eq_runFor]
  exact runFor_induct (fun _ => step) _ h

theorem pushInput (h : m.Sound) (value : Word) : (m.pushInput value).Sound := by
  by_cases hwaits : m.status = .awaitingInput
  · have hrunning : (m.pushInput value).status = .running := if_pos hwaits
    exact sound_running hrunning (h.haltedAt_none (by simp [hwaits])) h.snapshot.stack h.steps
  · have hsame : (m.pushInput value).status = m.status := if_neg hwaits
    refine ⟨⟨fun hwaits' => absurd (hsame.symm.trans hwaits') hwaits, h.snapshot.stack⟩, ?_,
      h.steps⟩
    rw [hsame]
    exact h.haltedAt

theorem restore (h : m.Sound) {s : Snapshot} (hs : s.Sound m.config) : (m.restore s).Sound :=
  ⟨⟨hs.waits, hs.stack⟩, rfl, h.steps⟩

end Sound

end Machine

/-! ## Sound sessions -/

namespace Session

/-- The machine is sound, and so are the snapshots of its past. -/
structure Sound (config : Config) (s : Session) : Prop where
  limits : s.machine.config = config
  machine : s.machine.Sound
  taken : ∀ snapshot ∈ s.taken, snapshot.Sound config

theorem sound_new (config : Config) : (Session.new config).Sound config where
  limits := rfl
  machine := Machine.sound_reset (.new config)
  taken := by simp [new]

theorem Sound.serve {config : Config} {s : Session} (h : s.Sound config) (request : Request) :
    (s.serve request).Sound config := by
  cases request with
  | load memory => exact ⟨h.limits, Machine.sound_reset _, h.taken⟩
  | assemble source =>
      simp only [Session.serve, Machine.loadSource]
      cases Image.assemble source with
      | ok image => exact ⟨h.limits, Machine.sound_reset _, h.taken⟩
      | error error => exact h
  | push value => exact ⟨h.limits, h.machine.pushInput value, h.taken⟩
  | connect keyboard => exact ⟨h.limits, h.machine.congr _ _ _, h.taken⟩
  | listen => exact ⟨h.limits, h.machine.congr _ _ _, h.taken⟩
  | step => exact ⟨s.machine.step_config.trans h.limits, h.machine.step, h.taken⟩
  | run => exact ⟨s.machine.run_config.trans h.limits, h.machine.run, h.taken⟩
  | reset => exact ⟨h.limits, Machine.sound_reset _, h.taken⟩
  | snapshot =>
      refine ⟨h.limits, h.machine, List.forall_mem_cons.2 ⟨?_, h.taken⟩⟩
      exact h.limits ▸ h.machine.snapshot
  | restore number =>
      simp only [Session.serve]
      split
      next snapshot hsnapshot =>
        have hsound := h.taken snapshot (List.mem_of_getElem? hsnapshot)
        exact ⟨h.limits, h.machine.restore (h.limits ▸ hsound), h.taken⟩
      next => exact h

theorem Sound.serveAll {config : Config} {s : Session} (h : s.Sound config)
    (requests : List Request) : (s.serveAll requests).Sound config := by
  induction requests generalizing s with
  | nil => exact h
  | cons request requests ih => exact ih (h.serve request)

/-- After any requests to a new machine: it has the address of a halt exactly if it has
halted, and this address is its program counter; if it waits for input, its program counter
is at an `INP`; neither the stack nor the count of steps has passed its limit; and a step
keeps the size of the memory and writes at most one word. -/
theorem machine_serveAll (config : Config) (requests : List Request) :
    let m := ((Session.new config).serveAll requests).machine
    m.haltedAt = (if m.status = .halted then some m.pc else none) ∧
      (m.status = .awaitingInput → m.pc < m.memory.size ∧ ∃ word operand,
        m.memory[m.pc]? = some word ∧ Opcode.decode word = some (.inp, operand)) ∧
      m.stack.length ≤ config.maxStack ∧
      (∀ limit, config.maxSteps = some limit → m.steps ≤ limit) ∧
      m.step.2.memory.size = m.memory.size ∧
      ∃ a : Nat, ∀ b : Nat, b ≠ a → m.step.2.memory[b]? = m.memory[b]? := by
  intro m
  obtain ⟨hconfig, hsound, -⟩ := (sound_new config).serveAll requests
  refine ⟨hsound.haltedAt, fun hwaits => ?_, ?_, ?_, m.step_memory⟩
  · obtain ⟨word, operand, hword, hdecode⟩ := hsound.snapshot.waits hwaits
    exact ⟨(Array.getElem?_eq_some_iff.1 hword).1, word, operand, hword, hdecode⟩
  · rw [← hconfig]
    exact hsound.snapshot.stack
  · intro limit hlimit
    rw [← hconfig] at hlimit
    exact hsound.steps limit hlimit

end Session
end LittleMan
