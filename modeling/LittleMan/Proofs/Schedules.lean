import LittleMan.Proofs.Horizon

/-!
# Schedules of input

Inputs may be pushed before a program reads them, while it runs, or each time it waits for
one.  Without a keyboard this makes no difference: `Machine.ahead` gives a machine the
inputs that are still to be pushed, and a step of the machine is a step of the machine that
is ahead, unless it waits.  So a machine that is fed by any schedule is, step for step, the
machine that had all inputs in its queue from the start.
-/

namespace LittleMan

inductive Call where
  | push (value : Word)
  | step
  | run
deriving DecidableEq, Repr

def Call.pushed (calls : List Call) : List Word :=
  calls.filterMap fun
    | .push value => some value
    | _ => none

namespace Machine

def serve (m : Machine) : Call → Machine
  | .push value => m.pushInput value
  | .step => m.step.2
  | .run => m.run.2

def serveAll (m : Machine) (calls : List Call) : Machine :=
  calls.foldl serve m

/-! ## Values that are received -/

/-- The value that the next step reads with `INP`, if it does so. -/
def received (m : Machine) : List Word :=
  match m.fetch, m.step with
  | .ok (.inp, _), (.ok .running, next) => [next.accumulator]
  | _, _ => []

/-- The values that the steps of a run read. -/
def receivedFor : Nat → Machine → List Word
  | 0, _ => []
  | tries + 1, m =>
      m.received ++ match m.step with
        | (.ok .running, next) => receivedFor tries next
        | _ => []

def receives (m : Machine) : Call → List Word
  | .push _ => []
  | .step => m.received
  | .run => m.receivedFor m.tries

def receivesAll (m : Machine) : List Call → List Word
  | [] => []
  | call :: calls => m.receives call ++ (m.serve call).receivesAll calls

theorem ask_of_unplugged {m asked : Machine} {answer : Answer} (h : m.keyboard = none)
    (hask : m.ask = (answer, asked)) :
    (∃ value queue, m.queue = value :: queue ∧ answer = .value value ∧
        asked = { m with queue }) ∨
      (m.queue = [] ∧ answer = .nothing ∧ asked = m) := by
  unfold ask at hask
  rw [h] at hask
  split at hask
  next value queue hqueue =>
    obtain ⟨rfl, rfl⟩ := Prod.mk.inj hask
    exact .inl ⟨value, queue, hqueue, rfl, by rw [h]⟩
  next hkeyboard => cases hkeyboard
  next hkeyboard => cases hkeyboard
  next hkeyboard => cases hkeyboard
  next hqueue _ =>
    obtain ⟨rfl, rfl⟩ := Prod.mk.inj hask
    exact .inr ⟨hqueue, rfl, rfl⟩

theorem step_keyboard {m : Machine} (h : m.keyboard = none) : m.step.2.keyboard = none := by
  have hcases := m.step_cases
  generalize m.step = result at hcases
  cases hcases with
  | acts going fetch other plan => exact (advances_perform m _).2.2.2.2.trans h
  | takes going fetch ask =>
      rcases ask_of_unplugged h ask with ⟨value, queue, -, -, rfl⟩ | ⟨-, -, rfl⟩ <;> exact h
  | waits going fetch ask =>
      rcases ask_of_unplugged h ask with ⟨value, queue, -, -, rfl⟩ | ⟨-, -, rfl⟩ <;> exact h
  | garbled going fetch ask =>
      rcases ask_of_unplugged h ask with ⟨value, queue, -, -, rfl⟩ | ⟨-, -, rfl⟩ <;> exact h
  | _ => exact h

theorem received_of_stopped {m : Machine} (h : m.step.1 ≠ .ok .running) : m.received = [] := by
  unfold received
  split
  next operand next hfetch hstep => exact absurd (by rw [hstep]) h
  next => rfl

theorem received_append {m : Machine} (h : m.keyboard = none) :
    m.received ++ m.step.2.queue = m.queue := by
  have hstopped := received_of_stopped (m := m)
  have hcases := m.step_cases
  generalize hstep : m.step = result at hcases hstopped
  cases hcases with
  | rests halted => rw [hstopped (by simp), List.nil_append]
  | refused going fetch => rw [hstopped (by simp), List.nil_append]
  | fails going fetch other plan => rw [hstopped (by simp), List.nil_append]
  | @acts op operand action going fetch other plan =>
      have hreceived : m.received = [] := by
        rw [received, fetch]
        split
        next hfetch hnext => exact absurd (Prod.mk.inj (Except.ok.inj hfetch)).1 other
        next => rfl
      rw [hreceived, List.nil_append]
      exact (advances_perform m action).2.2.2.1
  | takes going fetch ask =>
      rcases ask_of_unplugged h ask with ⟨value, queue, hqueue, hvalue, rfl⟩ | ⟨-, hvalue, -⟩
      · cases hvalue
        rw [received, fetch, hstep, hqueue]
        rfl
      · cases hvalue
  | waits going fetch ask =>
      rcases ask_of_unplugged h ask with ⟨value, queue, -, hvalue, -⟩ | ⟨-, -, rfl⟩
      · cases hvalue
      · rw [hstopped (by simp), List.nil_append]
  | garbled going fetch ask =>
      rcases ask_of_unplugged h ask with ⟨value, queue, -, hvalue, -⟩ | ⟨-, hvalue, -⟩ <;>
        cases hvalue

theorem receivedFor_running {m : Machine} (h : m.step.1 = .ok .running) (tries : Nat) :
    m.receivedFor (tries + 1) = m.received ++ m.step.2.receivedFor tries := by
  rw [receivedFor, show m.step = (.ok .running, m.step.2) from Prod.ext h rfl]

theorem receivedFor_stopped {m : Machine} (h : m.step.1 ≠ .ok .running) (tries : Nat) :
    m.receivedFor (tries + 1) = m.received := by
  rw [receivedFor]
  split
  next next hstep => exact absurd (by rw [hstep]) h
  next => exact List.append_nil _

theorem receivedFor_append (tries : Nat) {m : Machine} (h : m.keyboard = none) :
    m.receivedFor tries ++ (m.runFor tries).2.queue = m.queue := by
  induction tries generalizing m with
  | zero => rfl
  | succ tries ih =>
      by_cases hrunning : m.step.1 = .ok .running
      · rw [receivedFor_running hrunning, runFor_running hrunning, List.append_assoc,
          ih (step_keyboard h)]
        exact received_append h
      · rw [receivedFor_stopped hrunning, runFor_stopped hrunning]
        exact received_append h

theorem serve_keyboard {m : Machine} (h : m.keyboard = none) (call : Call) :
    (m.serve call).keyboard = none := by
  cases call with
  | push value => exact h
  | step => exact step_keyboard h
  | run =>
      rw [serve, run_eq_runFor]
      exact runFor_induct (P := fun n => n.keyboard = none) (fun _ => step_keyboard) _ h

theorem receives_append {m : Machine} (h : m.keyboard = none) (call : Call) :
    m.receives call ++ (m.serve call).queue = m.queue ++ Call.pushed [call] := by
  cases call with
  | push value => rfl
  | step => exact (received_append h).trans (List.append_nil _).symm
  | run =>
      rw [receives, serve, run_eq_runFor]
      exact (receivedFor_append m.tries h).trans (List.append_nil _).symm

/-- What a schedule makes a machine receive is what was in the queue and what was pushed, up
to what is still there. -/
theorem receivesAll_append {m : Machine} (h : m.keyboard = none) (calls : List Call) :
    m.receivesAll calls ++ (m.serveAll calls).queue = m.queue ++ Call.pushed calls := by
  induction calls generalizing m with
  | nil => exact (List.append_nil _).symm
  | cons call calls ih =>
      have hrest : (m.serve call).receivesAll calls ++ (m.serveAll (call :: calls)).queue =
          (m.serve call).queue ++ Call.pushed calls := ih (serve_keyboard h call)
      rw [receivesAll, List.append_assoc, hrest, ← List.append_assoc, receives_append h,
        List.append_assoc]
      exact congrArg (m.queue ++ ·) (List.filterMap_append ..).symm

/-! ## Machines that are ahead -/

/-- The machine, with these inputs in its queue and not waiting for one. -/
def ahead (m : Machine) (more : List Word) : Machine :=
  { m with
    queue := m.queue ++ more
    status := if m.status = .awaitingInput then .running else m.status }

section Ahead

variable {m : Machine} {more : List Word}

theorem ahead_halted (m : Machine) (more : List Word) :
    (m.ahead more).status = .halted ↔ m.status = .halted := by
  simp only [ahead]
  split
  next hwaits => simp [hwaits]
  next => rfl

theorem ahead_snapshot (h : m.status ≠ .awaitingInput) : (m.ahead more).snapshot = m.snapshot := by
  simp [ahead, snapshot, h]

theorem pushInput_ahead (m : Machine) (value : Word) (more : List Word) :
    (m.pushInput value).ahead more = m.ahead (value :: more) := by
  by_cases hwaits : m.status = .awaitingInput <;> simp [pushInput, ahead, hwaits]

theorem pushInputs_eq_ahead (h : m.status ≠ .awaitingInput) (values : List Word) :
    m.pushInputs values = m.ahead values := by
  induction values generalizing m with
  | nil => simp [pushInputs, ahead, h]
  | cons value values ih =>
      have hpushed : (m.pushInput value).status ≠ .awaitingInput := by simp [pushInput, h]
      rw [← pushInput_ahead]
      exact ih hpushed

theorem ahead_plan (m : Machine) (more : List Word) (op : Opcode) (operand : Nat) :
    (m.ahead more).plan op operand = m.plan op operand := by
  cases op <;> rfl

theorem ahead_perform (m : Machine) (more : List Word) (action : Action) :
    (m.ahead more).perform action = (m.perform action).ahead more := by
  cases action <;> rfl

theorem ahead_ask (more : List Word) {value : Word} {queue : List Word}
    (hqueue : m.queue = value :: queue) :
    (m.ahead more).ask = (.value value, { m with queue }.ahead more) := by
  have hahead : (m.ahead more).queue = value :: (queue ++ more) := by simp [ahead, hqueue]
  unfold ask
  rw [hahead]
  rfl

inductive AheadCases (m : Machine) (more : List Word) : Prop
  | runs {next : Machine} (going : m.status ≠ .halted) (step : m.step = (.ok .running, next))
      (ahead : (m.ahead more).step = (.ok .running, next.ahead more))
      (steps : next.steps = m.steps + 1) (running : next.status = .running)
  | halts {next : Machine} (going : m.status ≠ .halted) (step : m.step = (.ok .halted, next))
      (ahead : (m.ahead more).step = (.ok .halted, next.ahead more))
      (steps : next.steps = m.steps + 1) (halted : next.status = .halted)
  | rests (halted : m.status = .halted) (step : m.step = (.ok .halted, m))
  | faults {fault : Fault} (going : m.status ≠ .halted) (step : m.step = (.error fault, m))
      (ahead : (m.ahead more).step = (.error fault, m.ahead more))
      (other : ∀ operand, m.fetch ≠ .ok (.inp, operand))
  | waits {operand : Nat} (going : m.status ≠ .halted) (fetch : m.fetch = .ok (.inp, operand))
      (queue : m.queue = [])
      (step : m.step = (.ok .awaitingInput, { m with status := .awaitingInput }))

theorem ahead_cases (h : m.keyboard = none) (more : List Word) : AheadCases m more := by
  have hgoing : m.status ≠ .halted → (m.ahead more).status ≠ .halted := (ahead_halted m more).not.2
  have hfetch : (m.ahead more).fetch = m.fetch := rfl
  have hcases := m.step_cases
  generalize hstep : m.step = result at hcases
  cases hcases with
  | rests halted => exact .rests halted hstep
  | refused going fetch =>
      have hahead := (StepCases.refused (hgoing going) (hfetch.trans fetch)).step_eq
      exact .faults going hstep hahead fun operand hinp => nomatch fetch.symm.trans hinp
  | fails going fetch other plan =>
      have hahead := (StepCases.fails (hgoing going) (hfetch.trans fetch) other
        ((ahead_plan m more _ _).trans plan)).step_eq
      refine .faults going hstep hahead fun operand hinp => other ?_
      exact (Prod.mk.inj (Except.ok.inj (fetch.symm.trans hinp))).1
  | @acts op operand action going fetch other plan =>
      have hahead := (StepCases.acts (hgoing going) (hfetch.trans fetch) other
        ((ahead_plan m more _ _).trans plan)).step_eq
      have hsteps : (m.perform action).steps = m.steps + 1 := (advances_perform m action).2.2.1
      rw [ahead_perform] at hahead
      rcases perform_cases m action with ⟨rfl, -⟩ | ⟨hrunning, -⟩
      · exact .halts going hstep hahead hsteps rfl
      · have hrunning' : ((m.perform action).ahead more).status = .running := by
          simp [ahead, hrunning]
        rw [hrunning] at hstep
        rw [hrunning'] at hahead
        exact .runs going hstep hahead hsteps hrunning
  | takes going fetch ask =>
      rcases ask_of_unplugged h ask with ⟨value, queue, hqueue, hvalue, rfl⟩ | ⟨-, hvalue, -⟩
      · cases hvalue
        have hahead := (StepCases.takes (hgoing going) (hfetch.trans fetch)
          (ahead_ask more hqueue)).step_eq
        exact .runs going hstep (by rw [hahead, ahead_perform]) rfl rfl
      · cases hvalue
  | waits going fetch ask =>
      rcases ask_of_unplugged h ask with ⟨value, queue, -, hvalue, -⟩ | ⟨hqueue, -, rfl⟩
      · cases hvalue
      · exact .waits going fetch hqueue hstep
  | garbled going fetch ask =>
      rcases ask_of_unplugged h ask with ⟨value, queue, -, hvalue, -⟩ | ⟨-, hvalue, -⟩ <;>
        cases hvalue

end Ahead

/-! ## Machines that follow -/

/-- A machine that has not been given some inputs follows a machine `r` that began with all
of them: after as many steps, `r` is the machine that is ahead. -/
structure Follows (r m : Machine) (more : List Word) : Prop where
  unplugged : m.keyboard = none
  state : r.after m.steps = m.ahead more
  keeps : m.status ≠ .halted → r.Keeps m.steps
  halts : m.status = .halted → r.run = (.stopped .halted, m.ahead more)
  waits : m.status = .awaitingInput → ∃ operand, m.fetch = .ok (.inp, operand)

namespace Follows

variable {r m : Machine} {more : List Word}

theorem start (hunplugged : m.keyboard = none) (hsteps : m.steps = 0)
    (hstatus : m.status = .running) (more : List Word) : Follows (m.ahead more) m more where
  unplugged := hunplugged
  state := by rw [hsteps, after]
  keeps := fun _ i hi => absurd hi (by omega)
  halts := by simp [hstatus]
  waits := by simp [hstatus]

theorem push {value : Word} (h : Follows r m (value :: more)) :
    Follows r (m.pushInput value) more := by
  have hhalted : (m.pushInput value).status = .halted ↔ m.status = .halted :=
    ahead_halted m [value]
  refine ⟨h.unplugged, h.state.trans (pushInput_ahead m value more).symm,
    fun hgoing => h.keeps (hhalted.not.1 hgoing), fun hhalted' => ?_, fun hwaits => ?_⟩
  · rw [pushInput_ahead]
    exact h.halts (hhalted.1 hhalted')
  · simp only [pushInput] at hwaits
    split at hwaits
    · cases hwaits
    · contradiction

theorem step (h : Follows r m more) : Follows r m.step.2 more := by
  cases ahead_cases h.unplugged more with
  | @runs next going step ahead steps running =>
      have hstate : r.after next.steps = next.ahead more := by
        rw [steps, after, h.state, ahead]
      have hkeeps : r.Keeps next.steps := by
        intro i hi
        rw [steps, Nat.lt_succ_iff_lt_or_eq] at hi
        rcases hi with hlt | rfl
        · exact h.keeps going i hlt
        · rw [h.state, ahead]
      have hunplugged := step_keyboard h.unplugged
      rw [step] at hunplugged ⊢
      exact ⟨hunplugged, hstate, fun _ => hkeeps, by simp [running], by simp [running]⟩
  | @halts next going step ahead steps halted =>
      have hstate : r.after next.steps = next.ahead more := by
        rw [steps, after, h.state, ahead]
      have hrun : r.run = (.stopped .halted, next.ahead more) :=
        run_of_keeps (h.keeps going) _ (by simp) (by rw [h.state, runFor, ahead])
      have hunplugged := step_keyboard h.unplugged
      rw [step] at hunplugged ⊢
      exact ⟨hunplugged, hstate, by simp [halted], fun _ => hrun, by simp [halted]⟩
  | rests halted step => rwa [step]
  | faults going step ahead other => rwa [step]
  | waits going fetch queue step =>
      rw [step]
      refine ⟨h.unplugged, h.state.trans ?_, fun _ => h.keeps going, by simp, fun _ => ⟨_, fetch⟩⟩
      cases hstatus : m.status <;> simp_all [Machine.ahead]

theorem run (h : Follows r m more) : Follows r m.run.2 more := by
  rw [run_eq_runFor]
  exact runFor_induct (P := fun n => Follows r n more) (fun _ => step) _ h

theorem after (h : Follows r m more) (n : Nat) : Follows r (m.after n) more := by
  induction n with
  | zero => exact h
  | succ n ih => exact ih.step

theorem serveAll {calls : List Call} (h : Follows r m (Call.pushed calls ++ more)) :
    Follows r (m.serveAll calls) more := by
  induction calls generalizing m with
  | nil => exact h
  | cons call calls ih =>
      cases call with
      | push value => exact ih (push h)
      | step => exact ih (step h)
      | run => exact ih (run h)

theorem run_of_fault (h : Follows r m more) {fault : Fault} (hfault : m.step.1 = .error fault) :
    r.run = (.faulted fault, m.ahead more) ∧ m.status ≠ .awaitingInput := by
  cases ahead_cases h.unplugged more with
  | runs going step ahead steps running => simp [step] at hfault
  | halts going step ahead steps halted => simp [step] at hfault
  | rests halted step => simp [step] at hfault
  | waits going fetch queue step => simp [step] at hfault
  | faults going step ahead other =>
      rw [step] at hfault
      cases hfault
      refine ⟨run_of_keeps (h.keeps going) _ (by simp) (by rw [h.state, runFor, ahead]), ?_⟩
      intro hwaits
      obtain ⟨operand, hfetch⟩ := h.waits hwaits
      exact other operand hfetch

theorem run_of_waiting (h : Follows r m []) (hwaits : m.status = .awaitingInput)
    (hqueue : m.queue = []) :
    r.run = (.stopped .awaitingInput, { m.ahead [] with status := .awaitingInput }) := by
  obtain ⟨operand, hfetch⟩ := h.waits hwaits
  have hgoing : (m.ahead []).status ≠ .halted := (ahead_halted m []).not.2 (by simp [hwaits])
  have hask : (m.ahead []).ask = (.nothing, m.ahead []) := by
    simp [ask, ahead, hqueue, h.unplugged]
  have hstep := (StepCases.waits hgoing hfetch hask).step_eq
  exact run_of_keeps (h.keeps (by simp [hwaits])) _ (by simp) (by rw [h.state, runFor, hstep])

/-- A run of the machine ends as the run that it follows, unless it waits for an input. -/
theorem run_cases (h : Follows r m more) {m' : Machine} {ending : Ending}
    (hrun : m.run = (ending, m')) (hended : ending ≠ .unfinished) :
    (r.run = (ending, m'.ahead more) ∧ m'.status ≠ .awaitingInput ∧
        ending ≠ .stopped .awaitingInput) ∨
      (ending = .stopped .awaitingInput ∧ Follows r m' more ∧ m'.status = .awaitingInput ∧
        m'.queue = []) := by
  obtain ⟨t, -, hstop, hlast⟩ := exists_of_run hrun hended
  have hfollows := h.after t
  generalize m.after t = n at hstop hlast hfollows
  have hnext := hfollows.step
  rw [runFor] at hlast
  cases ahead_cases hfollows.unplugged more with
  | runs going step ahead steps running => simp [step] at hstop
  | halts going step ahead steps halted =>
      rw [step] at hlast hnext
      cases hlast
      exact .inl ⟨hnext.halts halted, by simp [halted], by simp⟩
  | rests halted step =>
      rw [step] at hlast
      cases hlast
      exact .inl ⟨hfollows.halts halted, by simp [halted], by simp⟩
  | faults going step ahead other =>
      obtain ⟨hrun', hstatus⟩ := hfollows.run_of_fault (congrArg Prod.fst step)
      rw [step] at hlast
      cases hlast
      exact .inl ⟨hrun', hstatus, by simp⟩
  | waits going fetch queue step =>
      rw [step] at hlast hnext
      cases hlast
      exact .inr ⟨rfl, hnext, rfl, queue⟩

theorem run_unfinished (h : Follows r m more) (hrun : m.run.1 = .unfinished) :
    r.run.1 = .unfinished := by
  have hkeeps := run_eq_unfinished_iff.1 hrun
  by_contra hended
  obtain ⟨t, -, hstop, -⟩ := exists_of_run (rfl : r.run = (r.run.1, r.run.2)) hended
  have hsteps : (m.after (t + 1)).steps = m.steps + (t + 1) := ((hkeeps (t + 1)).bounds le_rfl).2.2.2
  have hgoing : (m.after (t + 1)).status ≠ .halted := by
    rw [((hkeeps (t + 1)).advances (Nat.lt_succ_self t)).running]
    simp
  exact hstop ((h.after (t + 1)).keeps hgoing t (by omega))

end Follows

/-! ## Feeding -/

/-- Runs the machine, and gives it the next input each time it waits for one. -/
def feed (m : Machine) : List Word → Ending × Machine
  | [] => m.run
  | value :: values =>
      match m.run with
      | (.stopped .awaitingInput, waiting) => (waiting.pushInput value).feed values
      | ended => ended

/-- Two runs end in the same way, in the same state and with the same output, or never. -/
def SameEnd (a b : Ending × Machine) : Prop :=
  a.1 = b.1 ∧ (b.1 ≠ .unfinished → a.2.snapshot = b.2.snapshot ∧ a.2.output = b.2.output)

namespace Follows

variable {r m : Machine} {more : List Word}

theorem run_sameEnd (h : Follows r m more) :
    (SameEnd m.run r.run ∧ m.run.1 ≠ .stopped .awaitingInput) ∨
      ∃ waiting, m.run = (.stopped .awaitingInput, waiting) ∧ Follows r waiting more ∧
        waiting.status = .awaitingInput ∧ waiting.queue = [] := by
  cases hrun : m.run with
  | mk ending m' =>
      by_cases hended : ending = .unfinished
      · have hnever := h.run_unfinished (by rw [hrun, hended])
        exact .inl ⟨⟨hended.trans hnever.symm, fun hnot => absurd hnever hnot⟩, by simp [hended]⟩
      rcases h.run_cases hrun hended with ⟨hrun', hstatus, hother⟩ | ⟨rfl, hfollows⟩
      · refine .inl ⟨?_, hother⟩
        rw [hrun']
        exact ⟨rfl, fun _ => ⟨(ahead_snapshot hstatus).symm, rfl⟩⟩
      · exact .inr ⟨m', rfl, hfollows⟩

theorem feed_sameEnd (h : Follows r m more) : SameEnd (m.feed more) r.run := by
  induction more generalizing m with
  | nil =>
      rw [feed]
      rcases h.run_sameEnd with ⟨hend, -⟩ | ⟨waiting, hrun, hfollows, hwaits, hqueue⟩
      · exact hend
      · rw [hrun, hfollows.run_of_waiting hwaits hqueue]
        refine ⟨rfl, fun _ => ⟨?_, rfl⟩⟩
        simp [snapshot, ahead, hwaits]
  | cons value more ih =>
      rw [feed]
      rcases h.run_sameEnd with ⟨hend, hother⟩ | ⟨waiting, hrun, hfollows, -⟩
      · split
        next waiting hrun => exact absurd (by rw [hrun]) hother
        next => exact hend
      · rw [hrun]
        exact ih hfollows.push

end Follows

def progress (m : Machine) : Array Word × Word × Nat × List Word × Nat × Array Output :=
  (m.memory, m.accumulator, m.pc, m.stack, m.steps, m.output)

/-- A new machine without a keyboard loads a program.  However it is stepped, run and given
the first of some inputs, it has done the same as the machine that had all of them from the
start did in as many steps.  What it has received and what is in its queue are the inputs it
was given.  If it has halted or meets a fault, so does the run of the other machine, in the
same state and with the same output.  Giving the inputs on demand comes to the same end as
giving them beforehand. -/
theorem schedule_agrees (config : Config) (memory : Array Word) {inputs : List Word}
    {calls : List Call} (hpushed : Call.pushed calls <+: inputs) :
    let start := (Machine.new config).load memory
    let full := start.pushInputs inputs
    let m := start.serveAll calls
    (full.after m.steps).progress = m.progress ∧
      start.receivesAll calls ++ m.queue = Call.pushed calls ∧
      (m.status = .halted → full.run.1 = .stopped .halted ∧ full.run.2.snapshot = m.snapshot ∧
        full.run.2.transcript = m.transcript) ∧
      (∀ fault, m.step.1 = .error fault → full.run.1 = .faulted fault ∧
        full.run.2.snapshot = m.snapshot ∧ full.run.2.transcript = m.transcript) ∧
      (start.feed inputs).1 = full.run.1 ∧
      (full.run.1 ≠ .unfinished → (start.feed inputs).2.snapshot = full.run.2.snapshot ∧
        (start.feed inputs).2.transcript = full.run.2.transcript) := by
  intro start full m
  obtain ⟨more, rfl⟩ := hpushed
  have hfull : full = start.ahead (Call.pushed calls ++ more) :=
    pushInputs_eq_ahead (m := start) (by simp [start, load, reset]) _
  have hstart : Follows full start (Call.pushed calls ++ more) := by
    rw [hfull]
    exact .start rfl rfl rfl _
  have hfollows : Follows full m more := hstart.serveAll
  refine ⟨?_, receivesAll_append (m := start) rfl calls, fun hhalted => ?_, fun fault hfault => ?_, ?_⟩
  · rw [hfollows.state]
    rfl
  · rw [hfollows.halts hhalted]
    exact ⟨rfl, ahead_snapshot (by simp [hhalted]), rfl⟩
  · obtain ⟨hrun, hstatus⟩ := hfollows.run_of_fault hfault
    rw [hrun]
    exact ⟨rfl, ahead_snapshot hstatus, rfl⟩
  · obtain ⟨hend, hsame⟩ := hstart.feed_sameEnd
    refine ⟨hend, fun hended => ⟨(hsame hended).1, ?_⟩⟩
    rw [transcript, transcript, (hsame hended).2]

def echo : Array Word :=
  #[9001, 9002, 9001, 9002, 0]

theorem schedule_agrees_echo :
    let start := (Machine.new {}).load echo
    let m := start.serveAll [.run, .push 5, .step, .run]
    Call.pushed [.run, .push 5, .step, .run] <+: [5, 7] ∧ m.steps = 2 ∧
      ((start.pushInputs [5, 7]).after 2).progress = m.progress := by
  intro start m
  have hpushed : Call.pushed [.run, .push 5, .step, .run] <+: [5, 7] := by decide
  have hsteps : m.steps = 2 := by decide +kernel
  refine ⟨hpushed, hsteps, ?_⟩
  rw [← hsteps]
  exact (schedule_agrees {} echo hpushed).1

end Machine
end LittleMan
