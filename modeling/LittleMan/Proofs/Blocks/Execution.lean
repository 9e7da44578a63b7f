import LittleMan.Proofs.Blocks
import LittleMan.Proofs.Horizon

/-!
# Blocks in a machine

What is known of a block is known of runs of a view.  Here it is taken to a machine that has
the words of the block in its memory, whatever else is there: `Machine.Hosts` says where the
words and the cells are, and `Machine.Displays` that a view gives the accumulator, the
program counter and the cells.  Only cells that the block stores into are changed.

To say that a run stays in the block until it overflows or comes to its limit of steps, the
orders outside of the block are taken out of the code.  A run that could leave the block would
be stuck.
-/

namespace LittleMan

open Mark

namespace Layout

variable {L : Layout} {p n a : Nat} {op : Opcode} {target : Target} {l : Place}

/-- The code without the orders outside of a stretch.  The places stay. -/
def only (L : Layout) (p n : Nat) : Layout :=
  { L with
    code := L.code.mapIdx fun a entry =>
      if p ≤ a ∧ a < p + n then entry else { entry with op := .dat, target := .none } }

theorem getElem?_only (L : Layout) (p n a : Nat) :
    (L.only p n).code[a]? = L.code[a]?.map fun entry =>
      if p ≤ a ∧ a < p + n then entry else { entry with op := .dat, target := .none } :=
  List.getElem?_mapIdx

theorem placeAt_only : PlaceAt (L.only p n).code a l ↔ PlaceAt L.code a l := by
  unfold PlaceAt
  rw [getElem?_only]
  cases L.code[a]? with
  | none => simp
  | some entry => by_cases hin : p ≤ a ∧ a < p + n <;> simp [hin]

theorem orderAt_only (hop : op ≠ .dat ∨ target ≠ .none) :
    OrderAt (L.only p n).code a op target ↔ (p ≤ a ∧ a < p + n) ∧ OrderAt L.code a op target := by
  unfold OrderAt
  rw [getElem?_only]
  cases L.code[a]? with
  | none => simp
  | some entry =>
      by_cases hin : p ≤ a ∧ a < p + n
      · simp [hin]
      · simp only [hin, if_false, false_and, iff_false, not_exists, Option.map_some,
          Option.some.injEq, Entry.mk.injEq]
        intro place hentry
        rcases hop with hop | htarget
        · exact hop hentry.2.1.symm
        · exact htarget hentry.2.2.symm

theorem orderAt_of_only (h : OrderAt (L.only p n).code a op target)
    (hop : op ≠ .dat ∨ target ≠ .none) : OrderAt L.code a op target :=
  ((orderAt_only hop).1 h).2

theorem Placed.only (hL : L.Placed) : (L.only p n).Placed :=
  fun _ _ hl => hL (placeAt_only.1 hl)

theorem ordersAt_only {orders : List (Opcode × Target)} (h : OrdersAt L.code a orders)
    (hbare : ∀ order ∈ orders, order.1 ≠ .dat) (hp : p ≤ a) (hn : a + orders.length ≤ p + n) :
    OrdersAt (L.only p n).code a orders := by
  induction orders generalizing a with
  | nil => trivial
  | cons order rest ih =>
      obtain ⟨hop, hrest⟩ := List.forall_mem_cons.1 hbare
      rw [List.length_cons] at hn
      constructor
      · exact (orderAt_only (.inl hop)).2 ⟨⟨hp, by omega⟩, h.1⟩
      · exact ih h.2 hrest (by omega) (by omega)

theorem laid_only {marks : List Mark} (h : Laid L.code a marks)
    (hbare : ∀ order ∈ marks.flatMap orders, order.1 ≠ .dat) (hp : p ≤ a)
    (hn : a + width marks ≤ p + n) : Laid (L.only p n).code a marks := by
  induction marks generalizing a with
  | nil => trivial
  | cons m rest ih =>
      rw [List.flatMap_cons] at hbare
      obtain ⟨hhead, hrest⟩ := List.forall_mem_append.1 hbare
      rw [width_cons] at hn
      refine ⟨?_, ?_, ?_⟩
      · intro l hl
        exact placeAt_only.2 (h.1 l hl)
      · exact ordersAt_only h.2.1 hhead hp (by omega)
      · exact ih h.2.2 hrest (by omega) (by omega)

theorem turn_dat (L : Layout) (target : Target) (v : View) : L.turn .dat target v = .stuck := by
  cases target <;> rfl

section Last

variable {e : Nat} (hend : OrderAt L.code e .nop .none)
  (hlast : ∀ {op target}, OrderAt L.code (e + 1) op target → op = .dat)

include hend hlast

/-- A run that comes by a `NOP` after which nothing stands is stuck after it. -/
theorem pc_of_last {v v' w : View} (hpc : v.pc = e) (hgoes : L.Goes v w) (hruns : L.Runs w v') :
    v' = w ∧ w.pc = e + 1 ∧ ∀ {t}, L.Turns w t → t = .stuck := by
  have hnop : L.Turns v (.goes v.next) := ⟨_, _, hpc ▸ hend, rfl⟩
  obtain rfl : v.next = w := Turn.goes.inj (hnop.unique hgoes)
  have hnext : v.next.pc = e + 1 := congrArg (· + 1) hpc
  have hstuck : ∀ {t}, L.Turns v.next t → t = .stuck := by
    rintro t ⟨op, target, hat, rfl⟩
    rw [hnext] at hat
    rw [hlast hat, turn_dat]
  refine ⟨?_, hnext, hstuck⟩
  rcases Relation.ReflTransGen.cases_head hruns with rfl | ⟨w', hgoes', -⟩
  · rfl
  · cases hstuck hgoes'

theorem Overflows.pc_ne {v : View} (h : L.Overflows v) : v.pc ≠ e := by
  intro hpc
  obtain ⟨u, hruns, hfaults⟩ := h
  rcases Relation.ReflTransGen.cases_head hruns with rfl | ⟨w, hgoes, hrest⟩
  · have hnop : L.Turns v (.goes v.next) := ⟨_, _, hpc ▸ hend, rfl⟩
    cases hnop.unique hfaults
  · obtain ⟨rfl, -, hstuck⟩ := pc_of_last hend hlast hpc hgoes hrest
    cases hstuck hfaults

theorem pc_ne_of_transGen {v v' : View} (h : Relation.TransGen L.Goes v v') (hpc : v'.pc = e) :
    v.pc ≠ e := by
  intro hv
  obtain ⟨w, hgoes, hruns⟩ := Relation.TransGen.head'_iff.1 h
  obtain ⟨rfl, hnext, -⟩ := pc_of_last hend hlast hv hgoes hruns
  omega

end Last

end Layout

namespace Machine

/-- Orders that work on the accumulator, on cells and on the program counter. -/
def isPlain : Opcode → Target → Bool
  | .lda, .cell _ | .add, .cell _ | .sub, .cell _ | .sta, .cell _ => true
  | .bra, .place _ | .brz, .place _ | .brp, .place _ => true
  | .nop, .none => true
  | _, _ => false

def Names (L : Layout) (address : Cell → Nat) : Target → Nat → Prop
  | .none, _ => True
  | .cell c, operand => operand = address c
  | .place l, operand => operand = L.place l

/-- The machine has the words of the code in its memory, and the cells are at these
addresses.  A cell that is stored into is no other cell of the code and no word of it. -/
structure Hosts (L : Layout) (address : Cell → Nat) (m : Machine) : Prop where
  order : ∀ {a : Nat} {op : Opcode} {target : Target}, OrderAt L.code a op target → op ≠ .dat →
    isPlain op target = true ∧ ∃ word operand, m.memory[a]? = some word ∧
      Opcode.decode word = some (op, operand) ∧ Names L address target operand
  place : ∀ {a : Nat} {op : Opcode} {l : Place}, OrderAt L.code a op (.place l) →
    L.place l < m.memory.size
  cell : ∀ {a : Nat} {op : Opcode} {c : Cell}, OrderAt L.code a op (.cell c) →
    address c < m.memory.size
  apart : ∀ {a b : Nat} {op : Opcode} {c d : Cell}, OrderAt L.code a .sta (.cell c) →
    OrderAt L.code b op (.cell d) → address c = address d → c = d
  clear : ∀ {a b : Nat} {op : Opcode} {target : Target} {c : Cell},
    OrderAt L.code a .sta (.cell c) → OrderAt L.code b op target → op ≠ .dat → address c ≠ b

/-- The view gives the state of a machine that has come from another one by the orders of the
code. -/
structure Displays (L : Layout) (address : Cell → Nat) (first m : Machine) (v : View) : Prop where
  config : m.config = first.config
  going : m.status ≠ .halted
  pc : m.pc = v.pc
  acc : m.accumulator = v.acc
  size : m.memory.size = first.memory.size
  cells : ∀ {a : Nat} {op : Opcode} {c : Cell}, OrderAt L.code a op (.cell c) →
    m.memory[address c]? = some (v.cells c)
  frame : ∀ b : Nat, (∀ {a : Nat} {c : Cell}, OrderAt L.code a .sta (.cell c) → address c ≠ b) →
    m.memory[b]? = first.memory[b]?

variable {L : Layout} {address : Cell → Nat} {first m : Machine} {v v' : View} {op : Opcode}
  {target : Target}

namespace Displays

theorem fetch (hosts : Hosts L address first) (h : Displays L address first m v)
    (hat : OrderAt L.code v.pc op target) (hop : op ≠ .dat) (hlimit : m.checkLimit = .ok ()) :
    ∃ operand, m.fetch = .ok (op, operand) ∧ Names L address target operand := by
  obtain ⟨-, word, operand, hword, hdecode, hnames⟩ := hosts.order hat hop
  have hread : m.read m.pc = .ok word := by
    rw [Machine.read, h.pc, h.frame v.pc fun hstore => hosts.clear hstore hat hop, hword]
  refine ⟨operand, ?_, hnames⟩
  simp [Machine.fetch, hlimit, hread, hdecode, bind, Except.bind, pure, Except.pure]

theorem idle (h : Displays L address first m v) :
    Displays L address first (m.perform .idle) v.next :=
  { h with
    going := by simp [perform, proceed]
    pc := congrArg (· + 1) h.pc }

theorem load (h : Displays L address first m v) (value : Word) :
    Displays L address first (m.perform (.load value)) (v.load value) :=
  { h with
    going := by simp [perform, proceed]
    pc := congrArg (· + 1) h.pc
    acc := rfl }

theorem jump (h : Displays L address first m v) (a : Nat) :
    Displays L address first (m.perform (.jump a)) (v.jump a) :=
  { h with
    going := by simp [perform, proceed]
    pc := rfl }

theorem store (hosts : Hosts L address first) (h : Displays L address first m v) {a : Nat} {c : Cell}
    (hat : OrderAt L.code a .sta (.cell c)) :
    Displays L address first (m.perform (.store (address c))) (v.store c) where
  config := h.config
  going := by simp [perform, proceed]
  pc := congrArg (· + 1) h.pc
  acc := h.acc
  size := by simpa [perform, proceed] using h.size
  cells := by
    intro b op d hd
    simp only [perform, proceed, View.store]
    by_cases hcd : c = d
    · subst hcd
      have hlt : address c < m.memory.size := by
        rw [h.size]
        exact hosts.cell hat
      rw [Array.getElem?_setIfInBounds_self_of_lt hlt, Function.update_self, h.acc]
    · have hne : address c ≠ address d := fun heq => hcd (hosts.apart hat hd heq)
      rw [Array.getElem?_setIfInBounds_ne hne, Function.update_of_ne (Ne.symm hcd)]
      exact h.cells hd
  frame := by
    intro b hb
    simp only [perform, proceed]
    rw [Array.getElem?_setIfInBounds_ne (hb hat)]
    exact h.frame b hb

inductive Steps (L : Layout) (address : Cell → Nat) (first m : Machine) : Turn → Prop
  | goes {v' : View} (running : m.step.1 = .ok .running)
      (displays : Displays L address first m.step.2 v') : Steps L address first m (.goes v')
  | overflows (step : m.step = (.error ⟨m.pc, .arithmeticOverflow⟩, m)) :
      Steps L address first m (.faults .arithmeticOverflow)

theorem steps_of_plan (h : Displays L address first m v) {operand : Nat} {action : Action}
    (hfetch : m.fetch = .ok (op, operand)) (hop : op ≠ .inp)
    (hplan : m.plan op operand = .ok action) (hrunning : (m.perform action).status = .running)
    (hdisplays : Displays L address first (m.perform action) v') :
    Steps L address first m (.goes v') := by
  have hstep := (StepCases.acts h.going hfetch hop hplan).step_eq
  apply Steps.goes
  · rw [hstep, hrunning]
  · rw [hstep]
    exact hdisplays

theorem steps_of_sum (h : Displays L address first m v) {operand : Nat} {sum : Option Word}
    (hfetch : m.fetch = .ok (op, operand)) (hop : op ≠ .inp)
    (hplan : m.plan op operand = loadSum sum) :
    Steps L address first m (Layout.calculate v sum) := by
  cases sum with
  | none => exact .overflows (StepCases.fails h.going hfetch hop hplan).step_eq
  | some value => exact h.steps_of_plan hfetch hop hplan rfl (h.load value)

theorem steps_of_jump (h : Displays L address first m v) {a : Nat}
    (hfetch : m.fetch = .ok (op, a)) (hop : op ≠ .inp) (hlt : a < m.memory.size)
    (hplan : m.plan op a = (m.within a).map .jump) :
    Steps L address first m (.goes (v.jump a)) := by
  have hwithin : m.within a = .ok a := if_pos hlt
  rw [hwithin] at hplan
  exact h.steps_of_plan hfetch hop hplan rfl (h.jump a)

/-- A step does to the view what its order says. -/
theorem step (hosts : Hosts L address first) (h : Displays L address first m v)
    (hat : OrderAt L.code v.pc op target) (hop : op ≠ .dat) (hlimit : m.checkLimit = .ok ()) :
    Steps L address first m (L.turn op target v) := by
  obtain ⟨operand, hfetch, hnames⟩ := h.fetch hosts hat hop hlimit
  have hplain := (hosts.order hat hop).1
  cases target with
  | none =>
      cases op <;> simp only [isPlain, Bool.false_eq_true] at hplain
      case nop => exact h.steps_of_plan hfetch (by simp) rfl rfl h.idle
  | cell c =>
      obtain rfl : operand = address c := hnames
      have hread : m.read (address c) = .ok (v.cells c) := by rw [Machine.read, h.cells hat]
      have hwithin : m.within (address c) = .ok (address c) := by
        apply if_pos
        rw [h.size]
        exact hosts.cell hat
      cases op <;> simp only [isPlain, Bool.false_eq_true] at hplain
      case lda =>
        have hplan : m.plan .lda (address c) = .ok (.load (v.cells c)) := by
          rw [Machine.plan, hread]
          rfl
        exact h.steps_of_plan hfetch (by simp) hplan rfl (h.load _)
      case sta =>
        have hplan : m.plan .sta (address c) = .ok (.store (address c)) := by
          rw [Machine.plan, hwithin]
          rfl
        exact h.steps_of_plan hfetch (by simp) hplan rfl (h.store hosts hat)
      case add =>
        apply h.steps_of_sum hfetch (by simp)
        rw [Machine.plan, hread, h.acc]
        rfl
      case sub =>
        apply h.steps_of_sum hfetch (by simp)
        rw [Machine.plan, hread, h.acc]
        rfl
  | place l =>
      obtain rfl : operand = L.place l := hnames
      have hlt : L.place l < m.memory.size := by
        rw [h.size]
        exact hosts.place hat
      cases op <;> simp only [isPlain, Bool.false_eq_true] at hplain
      case bra => exact h.steps_of_jump hfetch (by simp) hlt rfl
      case brz =>
        simp only [Layout.turn]
        split
        next hzero =>
          apply h.steps_of_jump hfetch (by simp) hlt
          rw [Machine.plan, h.acc, if_pos hzero]
        next hzero =>
          have hplan : m.plan .brz (L.place l) = .ok .idle := by
            rw [Machine.plan, h.acc, if_neg hzero]
          exact h.steps_of_plan hfetch (by simp) hplan rfl h.idle
      case brp =>
        simp only [Layout.turn]
        split
        next hsign =>
          apply h.steps_of_jump hfetch (by simp) hlt
          rw [Machine.plan, h.acc, if_pos hsign]
        next hsign =>
          have hplan : m.plan .brp (L.place l) = .ok .idle := by
            rw [Machine.plan, h.acc, if_neg hsign]
          exact h.steps_of_plan hfetch (by simp) hplan rfl h.idle

end Displays

/-! ## Runs -/

def Allows (m : Machine) (n : Nat) : Prop :=
  ∀ limit, m.config.maxSteps = some limit → m.steps + n ≤ limit

theorem Allows.checkLimit {n : Nat} (h : m.Allows (n + 1)) : m.checkLimit = .ok () := by
  unfold Machine.checkLimit
  split
  next limit hlimit =>
    have hle := h limit hlimit
    rw [if_neg (by omega)]
  next => rfl

theorem Keeps.succ {n : Nat} (hstep : m.step.1 = .ok .running) (h : m.step.2.Keeps n) :
    m.Keeps (n + 1) := by
  intro i hi
  cases i with
  | zero => exact hstep
  | succ i =>
      rw [← after_step]
      exact h i (by omega)

theorem Displays.goes (hosts : Hosts L address first) (h : Displays L address first m v)
    (hgoes : L.Goes v v') (hlimit : m.checkLimit = .ok ()) :
    m.step.1 = .ok .running ∧ Displays L address first m.step.2 v' := by
  obtain ⟨op, target, hat, hturn⟩ := hgoes
  have hop : op ≠ .dat := by
    rintro rfl
    cases (L.turn_dat target v).symm.trans hturn
  have hsteps := h.step hosts hat hop hlimit
  rw [hturn] at hsteps
  cases hsteps with
  | goes running displays => exact ⟨running, displays⟩

theorem Allows.step {n : Nat} (h : m.Allows (n + 1)) (hrunning : m.step.1 = .ok .running) :
    m.step.2.Allows n := by
  have hadvances := advances (Prod.ext hrunning rfl : m.step = (.ok .running, m.step.2))
  intro limit hlimit
  rw [hadvances.config] at hlimit
  have hle := h limit hlimit
  rw [hadvances.steps]
  omega

def Exhausts (m : Machine) (cause : FaultCause) : Prop :=
  cause = .arithmeticOverflow ∨
    ∃ limit, m.config.maxSteps = some limit ∧ cause = .stepLimitExceeded limit

/-- The machine runs until a fault at which it stays, and comes by views of one kind. -/
structure Fails (P : View → Prop) (m : Machine) (n : Nat) (cause : FaultCause) : Prop where
  keeps : m.Keeps n
  path : ∀ i ≤ n, ∃ u, P u ∧ (m.after i).pc = u.pc
  fault : (m.after n).step = (.error ⟨(m.after n).pc, cause⟩, m.after n)

section Fails

variable {P : View → Prop} {n : Nat} {cause : FaultCause} {u : View} (hu : P u) (hpc : m.pc = u.pc)

include hu hpc

theorem Fails.zero (hstep : m.step = (.error ⟨m.pc, cause⟩, m)) : Fails P m 0 cause where
  keeps := fun i hi => absurd hi (by omega)
  path := by
    intro i hi
    obtain rfl := Nat.le_zero.1 hi
    exact ⟨u, hu, hpc⟩
  fault := hstep

theorem Fails.succ (hrunning : m.step.1 = .ok .running) (h : Fails P m.step.2 n cause) :
    Fails P m (n + 1) cause where
  keeps := h.keeps.succ hrunning
  path := by
    intro i hi
    cases i with
    | zero => exact ⟨u, hu, hpc⟩
    | succ i =>
        rw [← after_step]
        exact h.path i (by omega)
  fault := by
    have hfault := h.fault
    rw [after_step] at hfault
    exact hfault

end Fails

theorem Displays.fails_of_limit (h : Displays L address first m v) {P : View → Prop} (hv : P v)
    {cause : FaultCause} (hlimit : m.checkLimit = .error cause) :
    Fails P m 0 cause ∧
      ∃ limit, m.config.maxSteps = some limit ∧ cause = .stepLimitExceeded limit := by
  refine ⟨.zero hv h.pc ((StepCases.refused h.going ?_).step_eq), checkLimit_error hlimit⟩
  simp [Machine.fetch, hlimit, bind, Except.bind]

/-- A run of the view is a run of every machine that it displays, unless the machine comes to
its limit on the way. -/
theorem Displays.runs (hosts : Hosts L address first) (hruns : L.Runs v v')
    (h : Displays L address first m v) :
    (∃ n, m.Keeps n ∧ Displays L address first (m.after n) v') ∨
      ∃ n limit, m.config.maxSteps = some limit ∧
        Fails (Relation.TransGen L.Goes · v') m n (.stepLimitExceeded limit) := by
  induction hruns using Relation.ReflTransGen.head_induction_on generalizing m with
  | refl => exact .inl ⟨0, fun i hi => absurd hi (by omega), h⟩
  | @head v w hgoes hrest ih =>
      have hv : Relation.TransGen L.Goes v v' := .head' hgoes hrest
      cases hlimit : m.checkLimit with
      | error cause =>
          obtain ⟨hfails, limit, hmax, rfl⟩ :=
            h.fails_of_limit (P := (Relation.TransGen L.Goes · v')) hv hlimit
          exact .inr ⟨0, limit, hmax, hfails⟩
      | ok _ =>
          obtain ⟨hrunning, hnext⟩ := h.goes hosts hgoes hlimit
          rcases ih hnext with ⟨n, hkeeps, hlast⟩ | ⟨n, limit, hmax, hfails⟩
          · rw [after_step] at hlast
            exact .inl ⟨n + 1, hkeeps.succ hrunning, hlast⟩
          · rw [step_config] at hmax
            exact .inr ⟨n + 1, limit, hmax, hfails.succ hv h.pc hrunning⟩

/-- A view that overflows displays machines that do so, or reach their limit before. -/
theorem Displays.overflows (hosts : Hosts L address first) (hv : L.Overflows v)
    (h : Displays L address first m v) :
    ∃ n cause, Fails L.Overflows m n cause ∧ m.Exhausts cause := by
  obtain ⟨u, hruns, hfaults⟩ := hv
  induction hruns using Relation.ReflTransGen.head_induction_on generalizing m with
  | refl =>
      have hu : L.Overflows u := ⟨u, .refl, hfaults⟩
      cases hlimit : m.checkLimit with
      | error cause =>
          obtain ⟨hfails, hcause⟩ := h.fails_of_limit hu hlimit
          exact ⟨0, cause, hfails, .inr hcause⟩
      | ok _ =>
          obtain ⟨op, target, hat, hturn⟩ := hfaults
          have hop : op ≠ .dat := by
            rintro rfl
            cases (L.turn_dat target u).symm.trans hturn
          have hsteps := h.step hosts hat hop hlimit
          rw [hturn] at hsteps
          cases hsteps with
          | overflows step => exact ⟨0, _, .zero hu h.pc step, .inl rfl⟩
  | @head v w hgoes hrest ih =>
      have hv : L.Overflows v := ⟨u, .head hgoes hrest, hfaults⟩
      cases hlimit : m.checkLimit with
      | error cause =>
          obtain ⟨hfails, hcause⟩ := h.fails_of_limit hv hlimit
          exact ⟨0, cause, hfails, .inr hcause⟩
      | ok _ =>
          obtain ⟨hrunning, hnext⟩ := h.goes hosts hgoes hlimit
          obtain ⟨n, cause, hfails, hcause⟩ := ih hnext
          rw [Exhausts, step_config] at hcause
          exact ⟨n + 1, cause, hfails.succ hv h.pc hrunning, hcause⟩

section Fails

variable {P : View → Prop} {n : Nat} {cause : FaultCause} (h : Fails P m n cause)

include h

/-- A machine that stays at a fault has come by all of its states. -/
theorem Fails.after_le (i : Nat) : ∃ j ≤ n, m.after i = m.after j := by
  induction i with
  | zero => exact ⟨0, Nat.zero_le _, rfl⟩
  | succ i ih =>
      obtain ⟨j, hj, heq⟩ := ih
      rcases Nat.lt_or_eq_of_le hj with hlt | rfl
      · refine ⟨j + 1, hlt, ?_⟩
        rw [after, heq]
        rfl
      · refine ⟨j, le_rfl, ?_⟩
        rw [after, heq, h.fault]

theorem Fails.within {p q : Nat} (hP : ∀ u, P u → p ≤ u.pc ∧ u.pc < q) (i : Nat) :
    p ≤ (m.after i).pc ∧ (m.after i).pc < q := by
  obtain ⟨j, hj, heq⟩ := h.after_le i
  obtain ⟨u, hu, hpc⟩ := h.path j hj
  rw [heq, hpc]
  exact hP u hu

theorem Fails.run : m.run.1 = .faulted ⟨(m.after n).pc, cause⟩ := by
  have hlast : (m.after n).runFor 1 = (.faulted ⟨(m.after n).pc, cause⟩, m.after n) := by
    rw [runFor, h.fault]
  rw [run_of_keeps h.keeps _ (by simp) hlast]

end Fails

end Machine
end LittleMan
