import LittleMan.Proofs.Steps

/-!
# Runs that end

A run is unfinished only if it never ends: `Machine.run_of_runFor` takes any number of
tries after which a run has ended and says that `Machine.run` ends in the same way.

Under a step limit the number of steps decides.  Without one, two machines that agree in
their memory, registers, stack and input go on in the same way, so a run that ends meets
no such state twice.  A state is coded by the input that is left, the program counter and
one number whose digits are the words of the memory, the accumulator and the stack; there
are as many codes as the horizon counts.
-/

namespace LittleMan
namespace Machine

/-- The machine after a number of steps, whatever they return. -/
def after (m : Machine) : Nat → Machine
  | 0 => m
  | n + 1 => ((m.after n).step).2

theorem after_step (m : Machine) (n : Nat) : (m.step.2).after n = m.after (n + 1) := by
  induction n with
  | zero => rfl
  | succ n ih => simp only [after] at ih ⊢; rw [ih]

def Keeps (m : Machine) (n : Nat) : Prop :=
  ∀ i < n, ((m.after i).step).1 = .ok .running

theorem Keeps.step {m : Machine} {n : Nat} (h : m.Keeps (n + 1)) :
    m.step = (.ok .running, m.step.2) ∧ (m.step.2).Keeps n := by
  refine ⟨Prod.ext (h 0 (by omega)) rfl, fun i hi => ?_⟩
  rw [after_step]
  exact h (i + 1) (by omega)

theorem runFor_of_keeps {m : Machine} {n : Nat} (h : m.Keeps n) (tries : Nat) :
    m.runFor (n + tries) = (m.after n).runFor tries := by
  induction n generalizing m with
  | zero => simp [after]
  | succ n ih =>
      obtain ⟨hstep, hrest⟩ := h.step
      rw [Nat.add_right_comm, runFor, hstep, ← after_step]
      exact ih hrest

theorem exists_of_runFor {m m' : Machine} {n : Nat} {ending : Ending}
    (h : m.runFor n = (ending, m')) (hended : ending ≠ .unfinished) :
    ∃ t < n, m.Keeps t ∧ ((m.after t).step).1 ≠ .ok .running ∧
      ∀ tries, (m.after t).runFor (tries + 1) = (ending, m') := by
  induction n generalizing m with
  | zero =>
      rw [runFor, Prod.mk.injEq] at h
      exact absurd h.1.symm hended
  | succ n ih =>
      rw [runFor] at h
      split at h
      next next hstep =>
        obtain ⟨t, ht, hkeeps, hstop, hrun⟩ := ih h
        have hnext : m.step.2 = next := by rw [hstep]
        refine ⟨t + 1, by omega, fun i hi => ?_, ?_, ?_⟩
        · cases i with
          | zero => simp [after, hstep]
          | succ i =>
              rw [← after_step, hnext]
              exact hkeeps i (by omega)
        · rwa [← after_step, hnext]
        · rwa [← after_step, hnext]
      next status next hstatus hstep =>
        refine ⟨0, by omega, fun i hi => absurd hi (by omega), ?_, fun tries => ?_⟩
        · simpa [after, hstep] using hstatus
        · simp only [after, runFor]
          cases status <;> simp_all
      next fault next hstep =>
        refine ⟨0, by omega, fun i hi => absurd hi (by omega), ?_, fun tries => ?_⟩
        · simp [after, hstep]
        · simp [after, runFor, hstep, ← h]

/-! ## What a step keeps -/

theorem running_cases {m m' : Machine} (h : m.step = (.ok .running, m')) :
    m.status ≠ .halted ∧ m'.status = .running ∧ ∃ op operand, m.fetch = .ok (op, operand) ∧
      ((∃ action, m.plan op operand = .ok action ∧ m' = m.perform action) ∨
        ∃ value asked, m.ask = (.value value, asked) ∧ m' = asked.perform (.load value)) := by
  have hcases := m.step_cases
  generalize m.step = result at h hcases
  cases hcases with
  | acts going fetch other plan =>
      obtain ⟨hrunning, rfl⟩ := Prod.mk.inj h
      exact ⟨going, Except.ok.inj hrunning, _, _, fetch, .inl ⟨_, plan, rfl⟩⟩
  | takes going fetch ask =>
      obtain ⟨-, rfl⟩ := Prod.mk.inj h
      exact ⟨going, rfl, _, _, fetch, .inr ⟨_, _, ask, rfl⟩⟩
  | _ => simp at h

theorem exists_of_map {α : Type} {x : Except FaultCause α} {f : α → Action} {action : Action}
    (h : x.map f = .ok action) : ∃ y, action = f y := by
  cases x with
  | error cause => cases h
  | ok y => exact ⟨y, (Except.ok.inj h).symm⟩

theorem exists_of_loadSum {x : Except FaultCause Word} {f : Word → Option Word}
    {action : Action} (h : (x >>= fun y => loadSum (f y)) = .ok action) :
    ∃ value, action = .load value := by
  cases x with
  | error cause => cases h
  | ok y =>
      change loadSum (f y) = .ok action at h
      cases hy : f y with
      | none => simp [loadSum, hy] at h
      | some value => exact ⟨value, by simpa [loadSum, hy, eq_comm] using h⟩

/-- What is planned, for the sake of the stack: a push that has room, a pop of what is
there, or an action that leaves the stack alone. -/
theorem stack_of_plan {m : Machine} {op : Opcode} {operand : Nat} {action : Action}
    (h : m.plan op operand = .ok action) :
    (action = .push ∧ m.stack.length < m.config.maxStack) ∨
      (∃ top rest, action = .pop top rest ∧ m.stack = top :: rest) ∨
      (m.perform action).stack = m.stack := by
  have hmap : ∀ {α : Type} {x : Except FaultCause α} {f : α → Action},
      (∀ y, (m.perform (f y)).stack = m.stack) → x.map f = .ok action →
      (m.perform action).stack = m.stack := by
    intro α x f hf hx
    obtain ⟨y, rfl⟩ := exists_of_map hx
    exact hf y
  have hsum : ∀ {x : Except FaultCause Word} {f : Word → Option Word},
      (x >>= fun y => loadSum (f y)) = .ok action → (m.perform action).stack = m.stack := by
    intro x f hx
    obtain ⟨value, rfl⟩ := exists_of_loadSum hx
    rfl
  have hok : ∀ {other : Action}, (m.perform other).stack = m.stack →
      (.ok other : Except FaultCause Action) = .ok action → (m.perform action).stack = m.stack := by
    intro other hother heq
    rwa [← Except.ok.inj heq]
  cases op with
  | psh =>
      rw [plan] at h
      split at h
      · cases h
      · exact .inl ⟨(Except.ok.inj h).symm, by omega⟩
  | pop =>
      rw [plan] at h
      split at h
      next top rest hstack => exact .inr (.inl ⟨top, rest, (Except.ok.inj h).symm, hstack⟩)
      next => cases h
  | add => exact .inr (.inr (hsum h))
  | sub => exact .inr (.inr (hsum h))
  | sta => exact .inr (.inr (hmap (fun _ => rfl) h))
  | lda => exact .inr (.inr (hmap (fun _ => rfl) h))
  | bra => exact .inr (.inr (hmap (fun _ => rfl) h))
  | ret => exact .inr (.inr (hmap (fun _ => rfl) h))
  | brz =>
      rw [plan] at h
      split at h
      · exact .inr (.inr (hmap (fun _ => rfl) h))
      · exact .inr (.inr (hok rfl h))
  | brp =>
      rw [plan] at h
      split at h
      · exact .inr (.inr (hmap (fun _ => rfl) h))
      · exact .inr (.inr (hok rfl h))
  | ldaAcc =>
      rw [plan] at h
      cases haddress : m.locate m.accumulator with
      | error cause =>
          rw [haddress] at h
          cases h
      | ok address =>
          rw [haddress] at h
          exact .inr (.inr (hmap (fun _ => rfl) h))
  | hlt => exact .inr (.inr (hok rfl h))
  | nop => exact .inr (.inr (hok rfl h))
  | ldaPc => exact .inr (.inr (hok rfl h))
  | inp => exact .inr (.inr (hok rfl h))
  | out => exact .inr (.inr (hok rfl h))
  | outC => exact .inr (.inr (hok rfl h))
  | dat => exact .inr (.inr (hok rfl h))

structure Advances (m m' : Machine) : Prop where
  limit : m.checkLimit = .ok ()
  pc : m.pc < m.memory.size
  going : m.status ≠ .halted
  running : m'.status = .running
  config : m'.config = m.config
  size : m'.memory.size = m.memory.size
  steps : m'.steps = m.steps + 1
  stack : m'.stack.length ≤ max m.stack.length m.config.maxStack
  input : (m'.queue = m.queue ∧ m'.keyboard = m.keyboard) ∨ m'.inputsLeft < m.inputsLeft

theorem inputsLeft_of_ask {m asked : Machine} {value : Word}
    (h : m.ask = (.value value, asked)) : asked.inputsLeft < m.inputsLeft := by
  unfold ask at h
  split at h
  next first queue hqueue =>
    obtain ⟨-, rfl⟩ := Prod.mk.inj h
    simp [inputsLeft, hqueue]
  next text keyboard hqueue hkeyboard =>
    simp only at h
    split at h
    · obtain ⟨-, rfl⟩ := Prod.mk.inj h
      simp [inputsLeft, hqueue, hkeyboard]
    · cases h
  all_goals cases h

theorem advances {m m' : Machine} (h : m.step = (.ok .running, m')) : Advances m m' := by
  obtain ⟨hgoing, hrunning, op, operand, hfetch, hcases⟩ := running_cases h
  obtain ⟨hlimit, hpc⟩ := fetch_ok hfetch
  rcases hcases with ⟨action, hplan, rfl⟩ | ⟨value, asked, hask, rfl⟩
  · obtain ⟨hconfig, hsize, hsteps, hqueue, hkeyboard⟩ := advances_perform m action
    refine ⟨hlimit, hpc, hgoing, hrunning, hconfig, hsize, hsteps, ?_, .inl ⟨hqueue, hkeyboard⟩⟩
    rcases stack_of_plan hplan with ⟨rfl, hroom⟩ | ⟨top, rest, rfl, hstack⟩ | hsame
    · simp only [perform, proceed, List.length_cons]
      omega
    · simp only [perform, proceed, hstack, List.length_cons]
      omega
    · rw [hsame]
      exact le_max_left _ _
  · have hless := inputsLeft_of_ask hask
    have heq := ask_eq hask
    have hstack : asked.stack = m.stack := by rw [heq]
    refine ⟨hlimit, hpc, hgoing, hrunning, ?_, ?_, ?_, ?_, .inr hless⟩
    · rw [heq]; rfl
    · rw [heq]; rfl
    · rw [heq]; rfl
    · change asked.stack.length ≤ _
      rw [hstack]
      exact le_max_left _ _

/-! ## States that recur -/

/-- The machines agree in all that decides how they go on. -/
structure Alike (m n : Machine) : Prop where
  config : n.config = m.config
  memory : n.memory = m.memory
  accumulator : n.accumulator = m.accumulator
  pc : n.pc = m.pc
  stack : n.stack = m.stack
  queue : n.queue = m.queue
  keyboard : n.keyboard = m.keyboard

theorem Alike.perform {m n : Machine} (h : Alike m n) (action : Action) :
    Alike (m.perform action) (n.perform action) := by
  cases action <;>
    constructor <;>
    simp [Machine.perform, proceed, put, h.config, h.memory, h.accumulator, h.pc, h.stack,
      h.queue, h.keyboard]

theorem Alike.read {m n : Machine} (h : Alike m n) (address : Nat) :
    n.read address = m.read address := by
  simp [Machine.read, h.memory]

theorem Alike.fetch {m n : Machine} (h : Alike m n) (hlimit : m.config.maxSteps = none) :
    n.fetch = m.fetch := by
  simp [Machine.fetch, checkLimit, h.config, hlimit, h.pc, h.read]

theorem Alike.plan {m n : Machine} (h : Alike m n) (op : Opcode) (operand : Nat) :
    n.plan op operand = m.plan op operand := by
  cases op <;>
    simp [Machine.plan, h.read, within, locate, h.config, h.memory, h.accumulator, h.pc, h.stack]

theorem Alike.ask {m n : Machine} (h : Alike m n) :
    (n.ask).1 = (m.ask).1 ∧ Alike m.ask.2 n.ask.2 := by
  unfold Machine.ask
  rw [h.queue, h.keyboard]
  split
  · exact ⟨rfl, { h with queue := rfl, keyboard := rfl }⟩
  · dsimp only
    split
    · exact ⟨rfl, { h with queue := rfl, keyboard := rfl }⟩
    · exact ⟨rfl, { h with queue := rfl, keyboard := rfl }⟩
  · exact ⟨rfl, { h with queue := rfl, keyboard := rfl }⟩
  · exact ⟨rfl, h⟩
  · exact ⟨rfl, h⟩

theorem Alike.step {m n : Machine} (h : Alike m n) (hlimit : m.config.maxSteps = none)
    (hm : m.status ≠ .halted) (hn : n.status ≠ .halted) :
    (n.step).1 = (m.step).1 ∧ Alike m.step.2 n.step.2 := by
  rw [Machine.step, Machine.step, if_neg hm, if_neg hn, h.fetch hlimit]
  split
  next cause hfetch => exact ⟨by rw [h.pc], h⟩
  next op operand hfetch =>
    split
    next =>
      obtain ⟨hanswer, hasked⟩ := h.ask
      unfold input
      generalize hother : n.ask = other at hanswer hasked
      generalize hask : m.ask = asked at hanswer hasked
      obtain ⟨answer, asked⟩ := asked
      obtain ⟨answer', other⟩ := other
      obtain rfl : answer' = answer := hanswer
      change Alike asked other at hasked
      cases answer' with
      | value value => exact ⟨rfl, hasked.perform (.load value)⟩
      | nothing => exact ⟨rfl, { hasked with }⟩
      | unreadable text => exact ⟨by simp [hasked.pc], hasked⟩
    next =>
      rw [h.plan]
      split
      next cause hplan => exact ⟨by rw [h.pc], h⟩
      next action hplan =>
        refine ⟨?_, h.perform action⟩
        cases action <;> rfl

theorem Keeps.advances {m : Machine} {t i : Nat} (h : m.Keeps t) (hi : i < t) :
    Advances (m.after i) (m.after (i + 1)) :=
  Machine.advances (Prod.ext (h i hi) rfl)

/-- A run that ends is in no state twice. -/
theorem not_alike_of_keeps {m : Machine} (hlimit : m.config.maxSteps = none) {t : Nat}
    (hkeeps : m.Keeps t) (hstop : ((m.after t).step).1 ≠ .ok .running) {i j : Nat}
    (hij : i < j) (hj : j < t) : ¬ Alike (m.after i) (m.after j) := by
  intro halike
  have hfree : ∀ k ≤ t, (m.after k).config.maxSteps = none := by
    intro k hk
    induction k with
    | zero => exact hlimit
    | succ k ih =>
        rw [(hkeeps.advances (by omega)).config]
        exact ih (by omega)
  have hstep : ∀ k, j + k ≤ t → Alike (m.after (i + k)) (m.after (j + k)) := by
    intro k hk
    induction k with
    | zero => exact halike
    | succ k ih =>
        have hi : i + k < t := by omega
        have hj : j + k < t := by omega
        exact ((ih hj.le).step (hfree _ hi.le) (hkeeps.advances hi).going
          (hkeeps.advances hj).going).2
  have hlast := hstep (t - j) (by omega)
  rw [Nat.add_sub_of_le hj.le] at hlast
  have hrunning : (m.after t).status = .running := by
    obtain ⟨s, rfl⟩ : ∃ s, t = s + 1 := ⟨t - 1, by omega⟩
    exact (hkeeps.advances (by omega)).running
  have hi : i + (t - j) < t := by omega
  have hsame := (hlast.step (hfree _ hi.le) (hkeeps.advances hi).going (by simp [hrunning])).1
  exact hstop (hsame.trans (hkeeps _ hi))

/-! ## Codes of states -/

def digits (m : Machine) : List Nat :=
  (m.memory.toList ++ m.accumulator :: m.stack).map (fun w => w.toUInt64.toNat) ++ [1]

def code (m : Machine) : Nat :=
  Nat.ofDigits 0x10000000000000000 m.digits

theorem digits_lt {m : Machine} {d : Nat} (hd : d ∈ m.digits) : d < 0x10000000000000000 := by
  simp only [digits, List.mem_append, List.mem_map, List.mem_singleton] at hd
  rcases hd with ⟨w, -, rfl⟩ | rfl
  · exact w.toUInt64.toNat_lt
  · decide

theorem digits_code (m : Machine) : Nat.digits 0x10000000000000000 m.code = m.digits := by
  refine Nat.digits_ofDigits _ (by decide) _ (fun d hd => digits_lt hd) fun h => ?_
  simp [digits]

/-- The code tells memory, accumulator and stack, if the size of the memory is known. -/
theorem code_injective {m n : Machine} (hsize : n.memory.size = m.memory.size)
    (h : n.code = m.code) :
    n.memory = m.memory ∧ n.accumulator = m.accumulator ∧ n.stack = m.stack := by
  have hdigits : n.digits = m.digits := by rw [← digits_code, h, digits_code]
  have hinjective : Function.Injective fun w : Word => w.toUInt64.toNat := by
    rintro ⟨v⟩ ⟨w⟩ hvw
    exact congrArg Int64.ofUInt64 (UInt64.toNat_inj.1 hvw)
  have hwords := List.map_injective_iff.2 hinjective (List.append_cancel_right hdigits)
  obtain ⟨hmemory, hrest⟩ := List.append_inj hwords (by simpa using hsize)
  rw [List.cons.injEq] at hrest
  exact ⟨Array.toList_inj.1 hmemory, hrest.1, hrest.2⟩

theorem code_lt {m : Machine} {size bound : Nat} (hsize : m.memory.size = size)
    (hbound : m.stack.length ≤ bound) :
    m.code < Nat.pow 0x10000000000000000 (size + bound + 2) := by
  have hlength : m.digits.length ≤ size + bound + 2 := by
    simp only [digits, List.length_append, List.length_map, List.length_cons, List.length_nil,
      Array.length_toList, hsize]
    omega
  refine (Nat.ofDigits_lt_base_pow_length (by decide) fun d hd => digits_lt hd).trans_le ?_
  exact Nat.pow_le_pow_right (by decide) hlength

/-! ## The horizon -/

theorem Keeps.bounds {m : Machine} {t : Nat} (h : m.Keeps t) {i : Nat} (hi : i ≤ t) :
    (m.after i).config = m.config ∧ (m.after i).memory.size = m.memory.size ∧
      (m.after i).stack.length ≤ m.stackBound ∧ (m.after i).steps = m.steps + i := by
  induction i with
  | zero => exact ⟨rfl, rfl, le_max_left _ _, rfl⟩
  | succ i ih =>
      obtain ⟨hconfig, hsize, hstack, hsteps⟩ := ih (by omega)
      have hadvances := h.advances hi
      refine ⟨hadvances.config.trans hconfig, hadvances.size.trans hsize, ?_, ?_⟩
      · refine hadvances.stack.trans (max_le hstack ?_)
        rw [hconfig]
        exact le_max_right _ _
      · rw [hadvances.steps, hsteps, Nat.add_assoc]

/-- The input that is left never grows, and stays the same only if none is taken. -/
theorem Keeps.input {m : Machine} {t : Nat} (h : m.Keeps t) {i k : Nat} (hi : i + k ≤ t) :
    (m.after (i + k)).inputsLeft < (m.after i).inputsLeft ∨
      ((m.after (i + k)).queue = (m.after i).queue ∧
        (m.after (i + k)).keyboard = (m.after i).keyboard) := by
  induction k with
  | zero => exact .inr ⟨rfl, rfl⟩
  | succ k ih =>
      have hstep := (h.advances (i := i + k) (by omega)).input
      have hless : ∀ {n n' : Machine}, n'.queue = n.queue ∧ n'.keyboard = n.keyboard →
          n'.inputsLeft = n.inputsLeft := by
        rintro n n' ⟨hqueue, hkeyboard⟩
        rw [inputsLeft, inputsLeft, hqueue, hkeyboard]
      rcases ih (by omega), hstep with ⟨hbefore | hbefore, hstep | hstep⟩
      · exact .inl ((hless hstep).trans_lt hbefore)
      · exact .inl (hstep.trans hbefore)
      · exact .inr ⟨hstep.1.trans hbefore.1, hstep.2.trans hbefore.2⟩
      · exact .inl (hstep.trans_eq (hless hbefore))

theorem Keeps.le_of_limit {m : Machine} {t limit : Nat} (h : m.Keeps t)
    (hlimit : m.config.maxSteps = some limit) : t ≤ limit - m.steps := by
  by_contra hlong
  obtain ⟨s, rfl⟩ : ∃ s, t = s + 1 := ⟨t - 1, by omega⟩
  obtain ⟨hconfig, -, -, hsteps⟩ := h.bounds (i := s) (by omega)
  have hchecked := (h.advances (i := s) (by omega)).limit
  have hover : limit ≤ (m.after s).steps := by omega
  simp [checkLimit, hconfig, hlimit, hover] at hchecked

/-- Without a limit of steps, there are no more steps than states. -/
theorem Keeps.le_of_free {m : Machine} {t : Nat} (hkeeps : m.Keeps t)
    (hlimit : m.config.maxSteps = none) (hstop : ((m.after t).step).1 ≠ .ok .running) :
    t ≤ (m.inputsLeft + 1) * m.stateCount := by
  by_contra hlong
  let power := Nat.pow 0x10000000000000000 (m.memory.size + m.stackBound + 2)
  let codes := Finset.range (m.inputsLeft + 1) ×ˢ Finset.range m.memory.size ×ˢ Finset.range power
  have hcard : codes.card < (Finset.range t).card := by
    simp only [codes, Finset.card_product, Finset.card_range]
    exact Nat.not_le.1 hlong
  have hmaps : ∀ i ∈ Finset.range t,
      ((m.after i).inputsLeft, (m.after i).pc, (m.after i).code) ∈ codes := by
    intro i hi
    rw [Finset.mem_range] at hi
    obtain ⟨-, hsize, hstack, -⟩ := hkeeps.bounds hi.le
    have hinput : (m.after i).inputsLeft ≤ m.inputsLeft := by
      rcases hkeeps.input (i := 0) (k := i) (by omega) with hless | ⟨hqueue, hkeyboard⟩
      · rw [Nat.zero_add] at hless
        exact hless.le
      · rw [Nat.zero_add] at hqueue hkeyboard
        rw [inputsLeft, inputsLeft, hqueue, hkeyboard]
        rfl
    simp only [codes, Finset.mem_product, Finset.mem_range]
    exact ⟨Nat.lt_succ_of_le hinput, hsize ▸ (hkeeps.advances hi).pc, code_lt hsize hstack⟩
  obtain ⟨x, hx, y, hy, hne, heq⟩ :=
    Finset.exists_ne_map_eq_of_card_lt_of_maps_to hcard hmaps
  obtain ⟨i, j, hij, hj, heq⟩ : ∃ i j, i < j ∧ j < t ∧
      ((m.after i).inputsLeft, (m.after i).pc, (m.after i).code) =
        ((m.after j).inputsLeft, (m.after j).pc, (m.after j).code) := by
    rw [Finset.mem_range] at hx hy
    rcases Nat.lt_or_gt_of_ne hne with hlt | hlt
    · exact ⟨x, y, hlt, hy, heq⟩
    · exact ⟨y, x, hlt, hx, heq.symm⟩
  simp only [Prod.mk.injEq] at heq
  obtain ⟨hinput, hpc, hcode⟩ := heq
  obtain ⟨hconfig, hsize, -, -⟩ := hkeeps.bounds (hij.trans hj).le
  obtain ⟨hconfig', hsize', -, -⟩ := hkeeps.bounds hj.le
  obtain ⟨hmemory, haccumulator, hstack⟩ :=
    code_injective (hsize'.trans hsize.symm) hcode.symm
  have hsame := hkeeps.input (i := i) (k := j - i) (by omega)
  rw [Nat.add_sub_of_le hij.le, ← hinput] at hsame
  obtain ⟨hqueue, hkeyboard⟩ := hsame.resolve_left (lt_irrefl _)
  exact not_alike_of_keeps hlimit hkeeps hstop hij hj
    ⟨hconfig'.trans hconfig.symm, hmemory, haccumulator, hpc.symm, hstack, hqueue, hkeyboard⟩

theorem runFor_horizon {m m' : Machine} {n : Nat} {ending : Ending}
    (h : m.runFor n = (ending, m')) (hended : ending ≠ .unfinished) :
    m.runFor m.horizon = (ending, m') := by
  obtain ⟨t, -, hkeeps, hstop, hrun⟩ := exists_of_runFor h hended
  have hle : t < m.horizon := by
    unfold horizon
    split
    next limit hlimit => exact Nat.lt_succ_of_le (hkeeps.le_of_limit hlimit)
    next hlimit => exact Nat.lt_succ_of_le (hkeeps.le_of_free hlimit hstop)
  obtain ⟨tries, htries⟩ : ∃ tries, m.horizon = t + (tries + 1) :=
    ⟨m.horizon - t - 1, by omega⟩
  rw [htries, runFor_of_keeps hkeeps]
  exact hrun tries

/-- A run that ends after any number of tries is a whole run. -/
theorem run_of_runFor {m m' : Machine} {n : Nat} {ending : Ending}
    (h : m.runFor n = (ending, m')) (hended : ending ≠ .unfinished) :
    m.run = (ending, m') := by
  obtain ⟨t, -, hkeeps, hstop, hrun⟩ := exists_of_runFor h hended
  unfold run
  generalize stretch = s
  by_cases hshort : t < s
  · obtain ⟨tries, rfl⟩ : ∃ tries, s = t + (tries + 1) := ⟨s - t - 1, by omega⟩
    rw [runFor_of_keeps hkeeps, hrun tries]
    cases ending <;> simp_all
  · have hfirst : m.Keeps s := fun i hi => hkeeps i (by omega)
    have hstretch : m.runFor s = (.unfinished, m.after s) := runFor_of_keeps hfirst 0
    have hlater : (m.after s).runFor (t - s + 1) = (ending, m') := by
      rw [← runFor_of_keeps hfirst, ← hrun 0, ← runFor_of_keeps hkeeps]
      congr 1
      omega
    rw [hstretch]
    exact runFor_horizon hlater hended

theorem run_of_keeps {m m' : Machine} {n : Nat} (hkeeps : m.Keeps n) (ending : Ending)
    (hended : ending ≠ .unfinished) (hlast : (m.after n).runFor 1 = (ending, m')) :
    m.run = (ending, m') :=
  run_of_runFor ((runFor_of_keeps hkeeps 1).trans hlast) hended

theorem keeps_of_unfinished {m m' : Machine} {n : Nat} (h : m.runFor n = (.unfinished, m')) :
    m.Keeps n ∧ m' = m.after n := by
  induction n generalizing m with
  | zero =>
      obtain ⟨-, rfl⟩ := Prod.mk.inj h
      exact ⟨fun i hi => absurd hi (by omega), rfl⟩
  | succ n ih =>
      rw [runFor] at h
      split at h
      next next hstep =>
        obtain ⟨hkeeps, rfl⟩ := ih h
        have hnext : m.step.2 = next := by rw [hstep]
        rw [← hnext] at hkeeps ⊢
        refine ⟨fun i hi => ?_, m.after_step n⟩
        cases i with
        | zero => simp [after, hstep]
        | succ i =>
            rw [← after_step]
            exact hkeeps i (by omega)
      next => simp at h
      next => simp at h

def tries (m : Machine) : Nat :=
  stretch + (m.runFor stretch).2.horizon

theorem runFor_add {m m' : Machine} {n : Nat} {ending : Ending} (h : m.runFor n = (ending, m'))
    (more : Nat) :
    m.runFor (n + more) = if ending = .unfinished then m'.runFor more else (ending, m') := by
  split
  next hending =>
    subst hending
    obtain ⟨hkeeps, rfl⟩ := keeps_of_unfinished h
    exact runFor_of_keeps hkeeps more
  next hending =>
    obtain ⟨t, ht, hkeeps, -, hrun⟩ := exists_of_runFor h hending
    obtain ⟨rest, hrest⟩ : ∃ rest, n + more = t + (rest + 1) := ⟨n + more - t - 1, by omega⟩
    rw [hrest, runFor_of_keeps hkeeps, hrun]

theorem run_eq_runFor (m : Machine) : m.run = m.runFor m.tries := by
  unfold run tries
  generalize stretch = s
  split
  next later hfirst => rw [runFor_add hfirst, hfirst, if_pos rfl]
  next hfirst =>
    have hended : (m.runFor s).1 ≠ .unfinished := fun h => hfirst _ (Prod.ext h rfl)
    have hsame : m.runFor s = ((m.runFor s).1, (m.runFor s).2) := rfl
    rw [runFor_add hsame, if_neg hended]

/-- A run that ends does so at the first step that does not leave the machine running. -/
theorem exists_of_run {m m' : Machine} {ending : Ending} (h : m.run = (ending, m'))
    (hended : ending ≠ .unfinished) :
    ∃ t, m.Keeps t ∧ ((m.after t).step).1 ≠ .ok .running ∧
      (m.after t).runFor 1 = (ending, m') := by
  rw [run_eq_runFor] at h
  obtain ⟨t, -, hkeeps, hstop, hrun⟩ := exists_of_runFor h hended
  exact ⟨t, hkeeps, hstop, hrun 0⟩

/-- A run is unfinished exactly if every step leaves the machine running. -/
theorem run_eq_unfinished_iff {m : Machine} : m.run.1 = .unfinished ↔ ∀ n, m.Keeps n := by
  constructor
  · intro hrun n
    cases hfor : m.runFor n with
    | mk ending m' =>
        by_cases hended : ending = .unfinished
        · rw [hended] at hfor
          exact (keeps_of_unfinished hfor).1
        · rw [run_of_runFor hfor hended] at hrun
          exact absurd hrun hended
  · intro hkeeps
    rw [run_eq_runFor]
    exact congrArg Prod.fst (runFor_of_keeps (hkeeps m.tries) 0)

theorem run_config (m : Machine) : m.run.2.config = m.config := by
  rw [run_eq_runFor]
  exact runFor_induct (P := fun n => n.config = m.config)
    (fun n hn => n.step_config.trans hn) _ rfl

end Machine
end LittleMan
