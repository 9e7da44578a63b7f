import LittleMan.Proofs.Schedules

/-!
# Rewinding a machine

A snapshot keeps five fields of a machine.  The address of the halt is not one of them:
it is made up from the status and the program counter when the snapshot is restored, which
is right because every operation keeps the three in step.  Steps, output, input and listener
stay with the machine that is rewound.

`Machine.Twin` relates two machines that agree in everything but these, and have put out the
same since a certain moment.  Without a limit of steps it is a bisimulation: twins return the
same for every call, and stay twins.
-/

namespace LittleMan
namespace Machine

/-- The machines that operations can lead to.  Any snapshot may be restored, from wherever
it comes. -/
inductive Reachable (config : Config) : Machine → Prop
  | new : Reachable config (.new config)
  | load {m : Machine} (h : Reachable config m) (memory : Array Word) :
      Reachable config (m.load memory)
  | loadSource {m loaded : Machine} {source : String} {image : Image} (h : Reachable config m)
      (assembles : m.loadSource source = .ok (image, loaded)) : Reachable config loaded
  | pushInput {m : Machine} (h : Reachable config m) (value : Word) :
      Reachable config (m.pushInput value)
  | withKeyboard {m : Machine} (h : Reachable config m) (keyboard : Keyboard) :
      Reachable config (m.withKeyboard keyboard)
  | listen {m : Machine} (h : Reachable config m) : Reachable config m.listen
  | step {m : Machine} (h : Reachable config m) : Reachable config m.step.2
  | run {m : Machine} (h : Reachable config m) : Reachable config m.run.2
  | reset {m : Machine} (h : Reachable config m) : Reachable config m.reset
  | restore {m : Machine} (h : Reachable config m) (snapshot : Snapshot) :
      Reachable config (m.restore snapshot)

/-- The address of the halt is the program counter of a machine that has halted. -/
def HaltMarked (m : Machine) : Prop :=
  m.haltedAt = if m.status = .halted then some m.pc else none

theorem loadSource_ok {m loaded : Machine} {source : String} {image : Image}
    (h : m.loadSource source = .ok (image, loaded)) : loaded = m.load image.memory := by
  unfold loadSource at h
  cases hassemble : Image.assemble source with
  | error error =>
      rw [hassemble] at h
      cases h
  | ok assembled =>
      rw [hassemble] at h
      obtain ⟨rfl, rfl⟩ := Prod.mk.inj (Except.ok.inj h)
      rfl

namespace HaltMarked

variable {m : Machine}

theorem of_going (hgoing : m.status ≠ .halted) (hnone : m.haltedAt = none) : m.HaltMarked := by
  rw [HaltMarked, if_neg hgoing, hnone]

theorem haltedAt_none (h : m.HaltMarked) (hgoing : m.status ≠ .halted) : m.haltedAt = none := by
  rw [h, if_neg hgoing]

theorem perform (h : m.HaltMarked) (hgoing : m.status ≠ .halted) (action : Action) :
    (m.perform action).HaltMarked := by
  have hnone := h.haltedAt_none hgoing
  rcases perform_cases m action with ⟨-, hhalted, hpc, hat⟩ | ⟨hrunning, hat⟩
  · rw [HaltMarked, if_pos hhalted, hpc, hat]
  · apply of_going
    · simp [hrunning]
    · rw [hat, hnone]

theorem step (h : m.HaltMarked) : m.step.2.HaltMarked := by
  have hcases := m.step_cases
  generalize m.step = result at hcases
  cases hcases with
  | rests halted => exact h
  | refused going fetch => exact h
  | fails going fetch other plan => exact h
  | acts going fetch other plan => exact h.perform going _
  | takes going fetch ask =>
      rw [ask_eq ask]
      apply of_going
      · simp [Machine.perform, proceed]
      · exact h.haltedAt_none going
  | waits going fetch ask =>
      rw [ask_eq ask]
      apply of_going
      · simp
      · exact h.haltedAt_none going
  | garbled going fetch ask =>
      rw [ask_eq ask]
      exact h

theorem run (h : m.HaltMarked) : m.run.2.HaltMarked := by
  rw [run_eq_runFor]
  exact runFor_induct (fun _ => step) _ h

/-- A push changes the status only of a machine that waits, which has not halted. -/
theorem pushInput (h : m.HaltMarked) (value : Word) : (m.pushInput value).HaltMarked := by
  by_cases hwaits : m.status = .awaitingInput
  · have hrunning : (m.pushInput value).status = .running := if_pos hwaits
    apply of_going
    · simp [hrunning]
    · exact h.haltedAt_none (by simp [hwaits])
  · have hsame : (m.pushInput value).status = m.status := if_neg hwaits
    rw [HaltMarked, hsame]
    exact h

end HaltMarked

theorem Reachable.config_eq {config : Config} {m : Machine} (h : Reachable config m) :
    m.config = config := by
  induction h with
  | new => rfl
  | loadSource h assembles ih =>
      rw [loadSource_ok assembles]
      exact ih
  | @step m h ih => exact m.step_config.trans ih
  | @run m h ih => exact m.run_config.trans ih
  | _ => assumption

theorem Reachable.haltMarked {config : Config} {m : Machine} (h : Reachable config m) :
    m.HaltMarked := by
  induction h with
  | new => exact HaltMarked.of_going (by simp [Machine.new]) rfl
  | load h memory ih => exact HaltMarked.of_going (by simp [Machine.load, Machine.reset]) rfl
  | loadSource h assembles ih =>
      rw [loadSource_ok assembles]
      exact HaltMarked.of_going (by simp [Machine.load, Machine.reset]) rfl
  | pushInput h value ih => exact ih.pushInput value
  | withKeyboard h keyboard ih => exact ih
  | listen h ih => exact ih
  | step h ih => exact ih.step
  | run h ih => exact ih.run
  | reset h ih => exact HaltMarked.of_going (by simp [Machine.reset]) rfl
  | restore h snapshot ih => rfl

/-! ## Twins -/

/-- The machines agree in all that decides what they do and say.  The first one has put out
`a`, the second one `b`, and then both the same. -/
structure Twin (a b : Array Output) (v w : Machine) : Prop extends Alike v w where
  status : w.status = v.status
  haltedAt : w.haltedAt = v.haltedAt
  output : ∃ more, v.output = a ++ more ∧ w.output = b ++ more

namespace Twin

variable {a b : Array Output} {v w : Machine}

theorem perform (h : Twin a b v w) (action : Action) :
    Twin a b (v.perform action) (w.perform action) where
  toAlike := h.toAlike.perform action
  status := by cases action <;> rfl
  haltedAt := by
    cases action with
    | halt => exact congrArg some h.pc
    | _ => exact h.haltedAt
  output := by
    obtain ⟨more, hv, hw⟩ := h.output
    cases action with
    | put output => exact ⟨more.push output, by simp [Machine.perform, proceed, put, hv, hw]⟩
    | _ => exact ⟨more, hv, hw⟩

/-- Twins get the same answer when they ask for input, and are twins after it. -/
theorem ask (h : Twin a b v w) {answer : Answer} {asked : Machine}
    (hask : v.ask = (answer, asked)) :
    ∃ asked', w.ask = (answer, asked') ∧ Twin a b asked asked' := by
  obtain ⟨hanswer, halike⟩ := h.toAlike.ask
  have hw : w.ask = (answer, w.ask.2) := by
    rw [hask] at hanswer
    exact Prod.ext hanswer rfl
  rw [hask] at halike
  have hv' := ask_eq hask
  have hw' := ask_eq hw
  refine ⟨w.ask.2, hw, halike, ?_, ?_, ?_⟩
  · rw [hv', hw']
    exact h.status
  · rw [hv', hw']
    exact h.haltedAt
  · rw [hv', hw']
    exact h.output

theorem step (h : Twin a b v w) (hfree : v.config.maxSteps = none) :
    w.step.1 = v.step.1 ∧ Twin a b v.step.2 w.step.2 := by
  have hfetch := h.fetch hfree
  have hgoing : v.status ≠ .halted → w.status ≠ .halted := by
    rw [h.status]
    exact id
  have hcases := v.step_cases
  generalize v.step = result at hcases
  cases hcases with
  | rests halted =>
      rw [(StepCases.rests (h.status.trans halted)).step_eq]
      exact ⟨rfl, h⟩
  | refused going fetch =>
      rw [(StepCases.refused (hgoing going) (hfetch.trans fetch)).step_eq, h.pc]
      exact ⟨rfl, h⟩
  | fails going fetch other plan =>
      rw [(StepCases.fails (hgoing going) (hfetch.trans fetch) other
        ((h.plan _ _).trans plan)).step_eq, h.pc]
      exact ⟨rfl, h⟩
  | acts going fetch other plan =>
      rw [(StepCases.acts (hgoing going) (hfetch.trans fetch) other
        ((h.plan _ _).trans plan)).step_eq, (h.perform _).status]
      exact ⟨rfl, h.perform _⟩
  | @takes operand value asked going fetch ask =>
      obtain ⟨asked', hask, htwin⟩ := h.ask ask
      rw [(StepCases.takes (hgoing going) (hfetch.trans fetch) hask).step_eq]
      exact ⟨rfl, htwin.perform (.load value)⟩
  | waits going fetch ask =>
      obtain ⟨asked', hask, htwin⟩ := h.ask ask
      rw [(StepCases.waits (hgoing going) (hfetch.trans fetch) hask).step_eq]
      exact ⟨rfl, { htwin with status := rfl }⟩
  | garbled going fetch ask =>
      obtain ⟨asked', hask, htwin⟩ := h.ask ask
      rw [(StepCases.garbled (hgoing going) (hfetch.trans fetch) hask).step_eq, h.pc]
      exact ⟨rfl, htwin⟩

theorem runFor (h : Twin a b v w) (hfree : v.config.maxSteps = none) (n : Nat) :
    (w.runFor n).1 = (v.runFor n).1 ∧ Twin a b (v.runFor n).2 (w.runFor n).2 := by
  induction n generalizing v w with
  | zero => exact ⟨rfl, h⟩
  | succ n ih =>
      obtain ⟨hreply, hnext⟩ := h.step hfree
      have hfree' : v.step.2.config.maxSteps = none := by rw [step_config, hfree]
      have hwstep : w.step = (v.step.1, w.step.2) := Prod.ext hreply rfl
      rw [Machine.runFor, Machine.runFor, hwstep]
      generalize v.step = result at hnext hfree'
      obtain ⟨reply, next⟩ := result
      cases reply with
      | error fault => exact ⟨rfl, hnext⟩
      | ok status =>
          cases status with
          | running => exact ih hnext hfree'
          | halted => exact ⟨rfl, hnext⟩
          | awaitingInput => exact ⟨rfl, hnext⟩

theorem horizon_eq (h : Twin a b v w) (hfree : v.config.maxSteps = none) :
    w.horizon = v.horizon := by
  simp only [horizon, inputsLeft, stateCount, stackBound, h.config, h.memory, h.stack, h.queue,
    h.keyboard, hfree]

/-- Twins count the same states, so neither of them gives up before the other. -/
theorem run (h : Twin a b v w) (hfree : v.config.maxSteps = none) :
    w.run.1 = v.run.1 ∧ Twin a b v.run.2 w.run.2 := by
  have htries : w.tries = v.tries := by
    have hlater : (v.runFor stretch).2.config.maxSteps = none := by
      have hconfig := runFor_induct (P := fun n => n.config = v.config)
        (fun n hn => n.step_config.trans hn) stretch rfl
      rw [hconfig, hfree]
    rw [tries, tries, (h.runFor hfree stretch).2.horizon_eq hlater]
  rw [run_eq_runFor, run_eq_runFor, htries]
  exact h.runFor hfree _

theorem pushInput (h : Twin a b v w) (value : Word) :
    Twin a b (v.pushInput value) (w.pushInput value) where
  config := h.config
  memory := h.memory
  accumulator := h.accumulator
  pc := h.pc
  stack := h.stack
  queue := congrArg (· ++ [value]) h.queue
  keyboard := h.keyboard
  status := by simp only [Machine.pushInput, h.status]
  haltedAt := h.haltedAt
  output := h.output

theorem snapshot_eq (h : Twin a b v w) : w.snapshot = v.snapshot := by
  simp only [snapshot, h.memory, h.accumulator, h.pc, h.stack, h.status]

end Twin

/-! ## Replies -/

/-- What a call returns. -/
inductive Reply where
  | pushed
  | stepped (result : Except Fault Status)
  | ended (ending : Ending)

def reply (m : Machine) : Call → Reply
  | .push _ => .pushed
  | .step => .stepped m.step.1
  | .run => .ended m.run.1

/-- What the calls of a schedule return, one after the other. -/
def replies (m : Machine) : List Call → List Reply
  | [] => []
  | call :: calls => m.reply call :: (m.serve call).replies calls

theorem serve_config (m : Machine) (call : Call) : (m.serve call).config = m.config := by
  cases call with
  | push value => rfl
  | step => exact m.step_config
  | run => exact m.run_config

theorem Twin.serve {a b : Array Output} {v w : Machine} (h : Twin a b v w)
    (hfree : v.config.maxSteps = none) (call : Call) :
    w.reply call = v.reply call ∧ Twin a b (v.serve call) (w.serve call) := by
  cases call with
  | push value => exact ⟨rfl, h.pushInput value⟩
  | step =>
      obtain ⟨hreply, hnext⟩ := h.step hfree
      exact ⟨congrArg Reply.stepped hreply, hnext⟩
  | run =>
      obtain ⟨hreply, hnext⟩ := h.run hfree
      exact ⟨congrArg Reply.ended hreply, hnext⟩

theorem Twin.serveAll {a b : Array Output} {v w : Machine} (h : Twin a b v w)
    (hfree : v.config.maxSteps = none) (calls : List Call) :
    w.replies calls = v.replies calls ∧ Twin a b (v.serveAll calls) (w.serveAll calls) := by
  induction calls generalizing v w with
  | nil => exact ⟨rfl, h⟩
  | cons call calls ih =>
      obtain ⟨hreply, hnext⟩ := h.serve hfree call
      have hfree' : (v.serve call).config.maxSteps = none := by rw [serve_config, hfree]
      obtain ⟨hreplies, hlast⟩ := ih hnext hfree'
      constructor
      · rw [replies, replies, hreply, hreplies]
      · exact hlast

/-- A machine that goes back to a snapshot of a reachable machine is its twin, if they have
the same input to come. -/
theorem Reachable.twin_restore {config : Config} {v w : Machine} (hv : Reachable config v)
    (hw : Reachable config w) (hqueue : w.queue = v.queue) (hkeyboard : w.keyboard = v.keyboard) :
    Twin v.output w.output v (w.restore v.snapshot) where
  config := hw.config_eq.trans hv.config_eq.symm
  memory := rfl
  accumulator := rfl
  pc := rfl
  stack := rfl
  queue := hqueue
  keyboard := hkeyboard
  status := rfl
  haltedAt := hv.haltMarked.symm
  output := ⟨#[], by simp, by simp [Machine.restore]⟩

/-- Any reachable machine may go back to a snapshot of any other one with the same limits.
It then has this snapshot and this address of the halt, and keeps its steps, output, input
and listener.  If no limit of steps is set and the input to come is the same, then whatever
is pushed, stepped and run from there on returns the same on both machines, leaves them with
the same snapshot and address of the halt, and puts out the same. -/
theorem restore_replays {config : Config} {v w : Machine} (hfree : config.maxSteps = none)
    (hv : Reachable config v) (hw : Reachable config w) :
    let r := w.restore v.snapshot
    r.snapshot = v.snapshot ∧ r.haltedAt = v.haltedAt ∧ r.steps = w.steps ∧
      r.output = w.output ∧ r.queue = w.queue ∧ r.keyboard = w.keyboard ∧ r.heard = w.heard ∧
      (w.queue = v.queue → w.keyboard = v.keyboard → ∀ calls : List Call,
        r.replies calls = v.replies calls ∧
          (r.serveAll calls).snapshot = (v.serveAll calls).snapshot ∧
          (r.serveAll calls).haltedAt = (v.serveAll calls).haltedAt ∧
          ∃ more, (v.serveAll calls).output = v.output ++ more ∧
            (r.serveAll calls).output = w.output ++ more) := by
  intro r
  refine ⟨rfl, hv.haltMarked.symm, rfl, rfl, rfl, rfl, rfl, ?_⟩
  intro hqueue hkeyboard calls
  have hfree' : v.config.maxSteps = none := by rw [hv.config_eq, hfree]
  obtain ⟨hreplies, htwin⟩ := (hv.twin_restore hw hqueue hkeyboard).serveAll hfree' calls
  exact ⟨hreplies, htwin.snapshot_eq, htwin.haltedAt, htwin.output⟩

/-- A machine that waits for its second value, and the same machine after it has halted. -/
theorem restore_replays_echo :
    let v := (((Machine.new {}).load echo).pushInput 5).run.2
    let w := (v.pushInput 7).run.2
    let calls := [.run, .push 9, .step, .run]
    v.status = .awaitingInput ∧ w.status = .halted ∧ Reachable {} v ∧ Reachable {} w ∧
      (w.restore v.snapshot).replies calls = v.replies calls ∧
      ((w.restore v.snapshot).serveAll calls).snapshot = (v.serveAll calls).snapshot ∧
      ((w.restore v.snapshot).serveAll calls).output =
        #[.number 5, .number 7, .number 9] := by
  intro v w calls
  have hv : Reachable {} v := ((Reachable.new.load echo).pushInput 5).run
  have hw : Reachable {} w := (hv.pushInput 7).run
  have hqueue : w.queue = v.queue := by decide +kernel
  have hkeyboard : w.keyboard = v.keyboard := by decide +kernel
  obtain ⟨-, -, -, -, -, -, -, hreplays⟩ := restore_replays rfl hv hw
  obtain ⟨hreplies, hsnapshot, -, -⟩ := hreplays hqueue hkeyboard calls
  exact ⟨by decide +kernel, by decide +kernel, hv, hw, hreplies, hsnapshot, by decide +kernel⟩

end Machine
end LittleMan
