import LittleMan.Proofs.Blocks.Programs
import LittleMan.Proofs.Frames.Calls

/-!
# Activations of functions

A call opens a frame when it pushes its return address, and the `RET` of its function closes
the frame.  Which call a `RET` belongs to is told by the instructions that are executed:
`Image.depth` counts the calls that have been opened and not been left since a function has
begun, and a return belongs to the call of the function where this number is zero.  Then the
frame of the call is the first one again.
-/

namespace LittleMan

open Mark

namespace Machine

def Unfailing (m : Machine) (n : Nat) : Prop :=
  ∀ i < n, ∀ fault, (m.after i).step.1 ≠ .error fault

theorem after_add (m : Machine) (n k : Nat) : (m.after n).after k = m.after (n + k) := by
  induction k with
  | zero => rfl
  | succ k ih => exact congrArg (·.step.2) ih

variable {m : Machine} {n k : Nat}

theorem Unfailing.mono (h : m.Unfailing n) (hle : k ≤ n) : m.Unfailing k :=
  fun i hi => h i (by omega)

theorem Unfailing.after (h : m.Unfailing (n + k)) : (m.after n).Unfailing k := by
  intro i hi
  rw [after_add]
  exact h (n + i) (by omega)

theorem Unfailing.append (h : m.Unfailing n) (hafter : (m.after n).Unfailing k) :
    m.Unfailing (n + k) := by
  intro i hi
  by_cases hlt : i < n
  · exact h i hlt
  · obtain ⟨j, rfl⟩ := Nat.exists_eq_add_of_le (Nat.le_of_not_lt hlt)
    rw [← after_add]
    exact hafter j (by omega)

/-- The next steps meet no fault, or there is no limit of steps and the stack may become as long
as `top`. -/
def Unhindered (m : Machine) (config : Config) (n top : Nat) : Prop :=
  m.Unfailing n ∨ config.maxSteps = none ∧ top ≤ config.maxStack

theorem Unhindered.first {config : Config} {top : Nat} (h : m.Unhindered config (n + k) top) :
    m.Unhindered config n top :=
  h.imp_left fun hok => hok.mono (Nat.le_add_right n k)

theorem Unhindered.after {config : Config} {top : Nat} (h : m.Unhindered config (n + k) top) :
    (m.after n).Unhindered config k top :=
  h.imp_left Unfailing.after

end Machine

namespace Image

variable (image : Image) (a : Nat)

def opcode? : Option Opcode :=
  image.instructions[a]?.map Instruction.opcode

def OpensCall : Prop :=
  image.opcode? a = some .psh ∧ 2 ≤ a ∧ image.opcode? (a - 2) = some .ldaPc

instance : Decidable (image.OpensCall a) :=
  inferInstanceAs (Decidable (_ ∧ _ ∧ _))

/-- The number of calls that have been opened within a number of steps and not been left again.
There is none if a call has been left that was open before. -/
def depth (m : Machine) : Nat → Option Nat
  | 0 => some 0
  | n + 1 =>
      (depth m n).bind fun d =>
        if image.OpensCall (m.after n).pc then some (d + 1)
        else if image.opcode? (m.after n).pc = some .ret then
          if d = 0 then none else some (d - 1)
        else some d

end Image

theorem Layout.levels_of_stays {L : Layout} {op : Opcode} {target : Target} {v : View}
    (hat : OrderAt L.code v.pc op target)
    (hstays : L.turn op target v = .halts ∨ L.turn op target v = .waits) : L.Levels v.pc := by
  constructor
  · intro hopens
    obtain ⟨rfl, rfl⟩ := hat.unique hopens.1
    simp only [Layout.turn] at hstays
    split at hstays <;> simp at hstays
  · intro hret
    obtain ⟨rfl, rfl⟩ := hat.unique hret
    simp only [Layout.turn] at hstays
    split at hstays
    · split at hstays <;> simp at hstays
    · simp at hstays

namespace Program

variable {program : Program} {r : Register} {image : Image} {config : Config} {m : Machine}
  {frames frames' : List Frame} {v v' w : View} {op : Opcode} {target : Target}

/-! ## Steps and frames -/

theorem StandsAt.stack_eq (h : program.StandsAt r image config frames v m) :
    m.stack = v.stack := by
  cases h with
  | going shows safe => exact shows.stack
  | halted shows safe admits => exact shows.stack

theorem StandsAt.safe (h : program.StandsAt r image config frames v m) :
    Safe program.regions frames v := by
  cases h with
  | going shows safe => exact safe
  | halted shows safe admits => exact safe

section Steps

variable (hbuilt : program.Built r image)
include hbuilt

/-- A step without a fault goes on by the order at the program counter, or the machine stays
where it is. -/
theorem StandsAt.advance (h : program.StandsAt r image config frames v m)
    (hok : ∀ fault, m.step.1 ≠ .error fault) :
    ∃ op target, OrderAt program.code v.pc op target ∧
      ((∃ frames' v', (program.layout image config).turn op target v = .goes v' ∧
          program.StandsAt r image config frames' v' m.step.2 ∧
          Shifts (program.layout image config) program.regions frames v.pc frames') ∨
        ((program.layout image config).turn op target v = .halts ∨
            (program.layout image config).turn op target v = .waits) ∧
          program.StandsAt r image config frames v m.step.2) := by
  have hparted := hbuilt.parted config
  cases h with
  | @halted m shows safe admits =>
      have hstep : (m.perform .halt).step = (.ok .halted, m.perform .halt) := by
        simp [Machine.step, Machine.perform]
      have hstands : program.StandsAt r image config frames v (m.perform .halt) :=
        .halted shows safe admits
      rw [hstep]
      cases admits with
      | halts mem here pc stack =>
          obtain ⟨hat, -⟩ := (hparted.formed _ mem).orders here
          exact ⟨_, _, pc ▸ hat, .inr ⟨.inl rfl, hstands⟩⟩
  | going shows safe =>
      rcases step_cases shows safe hbuilt with ⟨limit, hmax, hstep⟩ |
        ⟨op, target, t, hat, hturn, hsteps, hadmits⟩
      · exact absurd (congrArg Prod.fst hstep) (hok _)
      refine ⟨op, target, hat, ?_⟩
      cases hsteps with
      | goes step shows' =>
          rw [step]
          cases hadmits with
          | goes safe' way => exact .inl ⟨_, _, hturn, .going shows' safe', way.shifts hparted⟩
      | halts step =>
          rw [step]
          exact .inr ⟨.inl hturn, .halted shows safe hadmits⟩
      | waits step =>
          rw [step]
          exact .inr ⟨.inr hturn, .going { shows with going := by simp } safe⟩
      | faults step => exact absurd (congrArg Prod.fst step) (hok _)

theorem StandsAt.goes (h : program.StandsAt r image config frames v m)
    (hok : ∀ fault, m.step.1 ≠ .error fault) (hat : OrderAt program.code v.pc op target)
    (hturn : (program.layout image config).turn op target v = .goes v' ∨
      ∃ cause, (program.layout image config).turn op target v = .faults cause) :
    ∃ frames', program.StandsAt r image config frames' v' m.step.2 ∧
      Shifts (program.layout image config) program.regions frames v.pc frames' := by
  obtain ⟨op', target', hat', hcases⟩ := h.advance hbuilt hok
  obtain ⟨rfl, rfl⟩ := hat.unique hat'
  rcases hcases with ⟨frames', w, hgoes, hstands, hshifts⟩ | ⟨hstays, -⟩
  · rcases hturn with hturn | ⟨cause, hturn⟩
    · obtain rfl : v' = w := by simpa using hturn.symm.trans hgoes
      exact ⟨frames', hstands, hshifts⟩
    · cases hturn.symm.trans hgoes
  · rcases hturn with hturn | ⟨cause, hturn⟩ <;> rcases hstays with hstays | hstays <;>
      cases hturn.symm.trans hstays

/-- An order that goes on meets no fault but the limit of steps. -/
theorem StandsAt.step_ne_error (h : program.StandsAt r image config frames v m)
    (hlimit : config.maxSteps = none) (hat : OrderAt program.code v.pc op target)
    (hturn : (program.layout image config).turn op target v = .goes v') (fault : Fault) :
    m.step.1 ≠ .error fault := by
  cases h with
  | halted shows safe admits => simp [Machine.step, Machine.perform]
  | going shows safe =>
      rcases step_cases shows safe hbuilt with ⟨limit, hmax, -⟩ |
        ⟨op', target', t, hat', hturn', hsteps, -⟩
      · cases hlimit.symm.trans hmax
      · obtain ⟨rfl, rfl⟩ := hat.unique hat'
        obtain rfl := hturn.symm.trans hturn'
        cases hsteps with
        | goes step => simp [step]

theorem StandsAt.proceeds {top : Nat} (h : program.StandsAt r image config frames v m)
    (hat : OrderAt program.code v.pc op target)
    (hturn : (program.layout image config).GoesBelow top op target v v')
    (hfree : m.Unhindered config 1 top) :
    m.Unfailing 1 ∧ ∃ frames', program.StandsAt r image config frames' v' (m.after 1) ∧
      Shifts (program.layout image config) program.regions frames v.pc frames' := by
  have hok : m.Unfailing 1 := by
    rcases hfree with hok | ⟨hlimit, hroom⟩
    · exact hok
    rcases hturn with hturn | ⟨hfull, hbelow, -⟩
    · intro i hi
      obtain rfl : i = 0 := by omega
      exact h.step_ne_error hbuilt hlimit hat hturn
    · -- the stack is not full
      exact absurd (hfull.trans_lt hbelow) (Nat.not_lt.2 hroom)
  exact ⟨hok, h.goes hbuilt (hok 0 (by omega)) hat (hturn.imp_right fun hfaults => hfaults.2.2)⟩

/-- The frames stay while the machine passes through words that leave them alone. -/
theorem StandsAt.passes {n top : Nat} (h : program.StandsAt r image config frames v m)
    (hpasses : (program.layout image config).Passes top v n w)
    (hfree : m.Unhindered config n top) :
    m.Unfailing n ∧ program.StandsAt r image config frames w (m.after n) := by
  induction hpasses generalizing m with
  | done v => exact ⟨fun i hi => absurd hi (Nat.not_lt_zero i), h⟩
  | @goes v v' w n op target order levels turn more ih =>
      rw [Nat.add_comm] at hfree ⊢
      obtain ⟨hok, frames', hstands, hshifts⟩ := h.proceeds hbuilt order turn hfree.first
      have hsame : program.StandsAt r image config frames v' (m.after 1) := by
        cases hshifts with
        | levels => exact hstands
        | opens mem here site opens => exact absurd opens levels.1
        | closes top leaves => exact absurd leaves levels.2
      obtain ⟨hrest, hlast⟩ := ih hsame hfree.after
      rw [Machine.after_add] at hlast
      exact ⟨hok.append hrest, hlast⟩

end Steps

/-! ## Calls that are open -/

section Depth

variable (hbuilt : program.Built r image)
include hbuilt

theorem Built.opcode?_of_orderAt {a : Nat} (hat : OrderAt program.code a op target) :
    image.opcode? a = some op := by
  obtain ⟨instruction, hget, rfl, -⟩ := hbuilt.assembled.instruction_of_orderAt hat
  rw [Image.opcode?, hget, Option.map_some]

theorem Built.exists_orderAt {a : Nat} (h : image.opcode? a = some op) (hop : op ≠ .dat) :
    ∃ target, OrderAt program.code a op target := by
  obtain ⟨instruction, hget, rfl⟩ := Option.map_eq_some_iff.1 h
  have hlt := hbuilt.assembled.lt_of_instruction hget
  by_cases hcode : a < program.code.length
  · have hat : OrderAt program.code a program.code[a].op program.code[a].target :=
      ⟨_, List.getElem?_eq_getElem hcode⟩
    have heq := (hbuilt.opcode?_of_orderAt hat).symm.trans h
    exact ⟨_, Option.some.inj heq ▸ hat⟩
  · -- behind the code there are the cells
    obtain ⟨i, rfl⟩ := Nat.exists_eq_add_of_le (Nat.le_of_not_lt hcode)
    have hi : i < r.cells.length := by omega
    obtain ⟨instruction', hget', hdat, -⟩ :=
      hbuilt.assembled.instruction_cell (List.getElem?_eq_getElem hi)
    obtain rfl := Option.some.inj (hget.symm.trans hget')
    exact absurd hdat hop

theorem Built.opcode?_eq_some_iff {a : Nat} (hop : op = .psh ∨ op = .ldaPc ∨ op = .ret) :
    image.opcode? a = some op ↔ OrderAt program.code a op .none := by
  refine ⟨fun h => ?_, hbuilt.opcode?_of_orderAt⟩
  obtain ⟨target, hat⟩ := hbuilt.exists_orderAt h (by rcases hop with rfl | rfl | rfl <;> simp)
  have hlegal := isLegal_of_orderAt hat
  cases target with
  | none => exact hat
  | cell c => rcases hop with rfl | rfl | rfl <;> cases hlegal
  | place l => rcases hop with rfl | rfl | rfl <;> cases hlegal

theorem Built.opensCall_iff (config : Config) {a : Nat} :
    image.OpensCall a ↔ (program.layout image config).Opens a := by
  have hpush : image.opcode? a = some .psh ↔ OrderAt program.code a .psh .none :=
    hbuilt.opcode?_eq_some_iff (by simp)
  constructor
  · rintro ⟨hpsh, hle, hlocate⟩
    exact ⟨hpush.1 hpsh, a - 2, by omega, (hbuilt.opcode?_eq_some_iff (by simp)).1 hlocate⟩
  · rintro ⟨hpsh, q, rfl, hlocate⟩
    exact ⟨hpush.2 hpsh, by omega, hbuilt.opcode?_of_orderAt hlocate⟩

/-- The frames of the calls that have been opened are on top of those that were there before. -/
theorem StandsAt.depth {n d : Nat} (h : program.StandsAt r image config frames v m)
    (hok : m.Unfailing n) (hdepth : image.depth m n = some d) :
    ∃ upper v', upper.length = d ∧
      program.StandsAt r image config (upper ++ frames) v' (m.after n) := by
  induction n generalizing d with
  | zero => exact ⟨[], v, Option.some.inj hdepth, h⟩
  | succ n ih =>
      obtain ⟨d₀, hbefore, hdepth⟩ := Option.bind_eq_some_iff.1 hdepth
      obtain ⟨upper, v₀, rfl, hstands⟩ := ih (hok.mono (Nat.le_succ n)) hbefore
      obtain ⟨op, target, hat, hcases⟩ := hstands.advance hbuilt (hok n (Nat.lt_succ_self n))
      have hopens := hbuilt.opensCall_iff config (a := v₀.pc)
      have hleaves : image.opcode? v₀.pc = some .ret ↔ OrderAt program.code v₀.pc .ret .none :=
        hbuilt.opcode?_eq_some_iff (by simp)
      rw [hstands.pc_eq] at hdepth
      have hkeeps : (program.layout image config).Levels v₀.pc → upper.length = d := by
        intro hlevels
        rw [if_neg (mt hopens.1 hlevels.1), if_neg (mt hleaves.1 hlevels.2)] at hdepth
        exact Option.some.inj hdepth
      rcases hcases with ⟨frames', v', -, hstands', hshifts⟩ | ⟨hstays, hstands'⟩
      · cases hshifts with
        | levels levels => exact ⟨upper, v', hkeeps levels, hstands'⟩
        | opens mem here site opens =>
            rw [if_pos (hopens.2 opens)] at hdepth
            exact ⟨_ :: upper, v', Option.some.inj hdepth, hstands'⟩
        | closes top leaves =>
            have hnot : ¬ image.OpensCall v₀.pc := by
              intro hcall
              cases ((hopens.1 hcall).1.unique leaves).1
            rw [if_neg hnot, if_pos (hleaves.2 leaves)] at hdepth
            cases upper with
            | nil => simp at hdepth
            | cons frame upper =>
                obtain ⟨-, rfl⟩ := List.cons.inj top
                exact ⟨upper, v', by simpa using hdepth, hstands'⟩
      · exact ⟨upper, v₀, hkeeps (Layout.levels_of_stays hat hstays), hstands'⟩

end Depth

/-! ## One call -/

section Calls

variable {ρ : Region} {done rest : List Mark} {callee : String} {args : List Cell} {result : Cell}
  (hbuilt : program.Built r image) (mem : ρ ∈ program.regions)
  (here : ρ.body = done ++ .call callee args result :: rest)
include hbuilt mem here

theorem StandsAt.opens {top : Nat} (h : program.StandsAt r image config frames v m)
    (hpc : v.pc = ρ.start + width done + 2) (hroom : v.stack.length < top)
    (hfree : m.Unhindered config 1 top) :
    m.Unfailing 1 ∧ ∃ frame, frame.word = Frame.word ⟨ρ, done, args⟩ ∧
      program.StandsAt r image config (frame :: frames) v.push (m.after 1) := by
  have hparted := hbuilt.parted config
  have hopens := (hparted.formed ρ mem).opens here
  rw [← hpc] at hopens
  obtain ⟨hok, frames', hstands, hshifts⟩ :=
    h.proceeds hbuilt hopens.1 (Layout.goesBelow_psh hroom) hfree
  refine ⟨hok, ?_⟩
  cases hshifts with
  | levels levels => exact absurd hopens levels.1
  | opens mem' here' site opens =>
      exact ⟨_, word_eq_of_site hparted mem here mem' here' (by omega), hstands⟩
  | closes top leaves => cases (hopens.1.unique leaves).1

/-- A call comes to the body of its function.  The return address is on the stack. -/
theorem StandsAt.enters (h : program.StandsAt r image config frames v m)
    (hpc : v.pc = ρ.start + width done) {g : Region} {params : List Cell}
    (hg : g ∈ program.regions) (hfunction : g.function = some (callee, params))
    (hlength : params.length = args.length)
    (hfree : m.Unhindered config (5 + 4 * args.length) (v.stack.length + (1 + args.length))) :
    m.Unfailing (5 + 4 * args.length) ∧ v.stack = frames.map Frame.word ∧
      ∃ frame w, frame.word = Frame.word ⟨ρ, done, args⟩ ∧
        program.StandsAt r image config (frame :: frames) w (m.after (5 + 4 * args.length)) ∧
        w.pc = g.base + (1 + 2 * args.length) ∧ w.stack = frame.word :: v.stack ∧
        w.cells = received params (args.map v.cells).reverse v.cells := by
  have hparted := hbuilt.parted config
  have hformed := hparted.formed ρ mem
  obtain ⟨hfirst, hpushes, hbranch, -⟩ := orders_call hformed here
  obtain ⟨hplace, hnop, hpops⟩ := (hparted.formed g hg).entry hfunction
  have hstack := (h.safe.point.settles hparted (hpc ▸ hfirst.1)).1 rfl
  have hsmall : ρ.start + width done + (4 + 2 * args.length) < 0x8000000000000000 :=
    (lt_length_of_orderAt (hformed.orderAt_returnAddress here)).trans hparted.small
  rw [show 5 + 4 * args.length = 2 + (1 + (2 * args.length + 2 + 2 * args.length)) by omega]
    at hfree ⊢
  obtain ⟨w₁, hlocates, hpc₁, hacc, hstack₁, hcells₁⟩ :=
    Layout.Passes.locate hfirst h.safe.literals hpc hsmall
  obtain ⟨hok₁, h₁⟩ := h.passes hbuilt hlocates hfree.first
  obtain ⟨hok₂, frame, hword, h₂⟩ :=
    h₁.opens hbuilt mem here hpc₁ (by rw [hstack₁]; omega) hfree.after.first
  obtain ⟨w, henters, hwpc, hwstack, hwcells⟩ := Layout.Passes.enter (v := w₁.push)
    (L := program.layout image config) hfirst.2.2.1 hpushes hbranch (hparted.placed hplace)
    hnop hpops hlength (congrArg (· + 1) hpc₁) (by
      change w₁.stack.length + 1 + args.length ≤ v.stack.length + (1 + args.length)
      rw [hstack₁, Nat.add_assoc])
  obtain ⟨hok₃, h₃⟩ := h₂.passes hbuilt henters hfree.after.after
  refine ⟨hok₁.append (hok₂.append hok₃), hstack, frame, w, hword, ?_, hwpc, ?_, ?_⟩
  · rw [← Machine.after_add, ← Machine.after_add]
    exact h₃
  · rw [hwstack, hword, ← hstack₁]
    exact congrArg (· :: w₁.stack) hacc
  · rw [hwcells]
    change received params (args.map w₁.cells).reverse w₁.cells = _
    rw [hcells₁]

omit mem here in
theorem StandsAt.exists_stack (h : program.StandsAt r image config frames v m)
    (hpop : OrderAt program.code v.pc .pop .none) : ∃ word below, v.stack = word :: below := by
  obtain ⟨op, target, hat, hadmits⟩ := h.safe.turn (hbuilt.parted config)
  obtain ⟨rfl, rfl⟩ := hat.unique hpop
  cases hstack : v.stack with
  | nil =>
      simp only [Layout.turn, hstack] at hadmits
      cases hadmits
  | cons word below => exact ⟨word, below, rfl⟩

theorem StandsAt.returns {frame : Frame} {q : Nat} {value address : Cell}
    (h : program.StandsAt r image config (frame :: frames) v m) (hpc : v.pc = q)
    (horders : OrdersAt program.code q (Mark.giveBack value address).orders)
    (hne : value ≠ address) (hword : frame.word = Frame.word ⟨ρ, done, args⟩)
    (hfree : m.Unhindered config 8 v.stack.length) :
    m.Unfailing 8 ∧ (m.after 6).pc = ρ.returnAddress done args ∧
      ∃ frames' w, program.StandsAt r image config frames' w (m.after 8) ∧
        w.pc = ρ.returnAddress done args + 2 ∧ w.stack = frames.map Frame.word ∧
        w.cells result = v.cells value := by
  have hparted := hbuilt.parted config
  have hformed := hparted.formed ρ mem
  have hpop := hformed.orderAt_returnAddress here
  have hstore := hformed.orderAt_result here
  have hlt := lt_length_of_orderAt hpop
  obtain ⟨word, below, hstack⟩ := h.exists_stack hbuilt (hpc ▸ horders.1)
  have hbelow : below.length < v.stack.length := by simp [hstack]
  change m.Unhindered config (5 + (1 + 2)) v.stack.length at hfree
  obtain ⟨w₁, hgives, hpc₁, hacc, hstack₁⟩ :=
    Layout.Passes.giveBack (L := program.layout image config) horders hne hpc hstack hbelow
  obtain ⟨hok₁, h₁⟩ := h.passes hbuilt hgives hfree.first
  have hret : OrderAt program.code w₁.pc .ret .none := hpc₁ ▸ horders.2.2.2.2.2.1
  obtain ⟨top, below', hbelow', hframes⟩ := (h₁.safe.point.settles hparted hret).2 rfl
  obtain ⟨-, rfl⟩ := List.cons.inj (hstack₁.symm.trans hbelow')
  obtain ⟨htop, hrest⟩ := List.cons.inj hframes
  have haddress : w₁.acc.address? = some (ρ.returnAddress done args) := by
    rw [htop, hword]
    exact Word.address?_ofAddress (hlt.trans hparted.small)
  have hturn : (program.layout image config).turn .ret .none w₁ =
      .goes (w₁.jump (ρ.returnAddress done args)) := by
    simp only [Layout.turn, haddress]
    exact if_pos (hlt.trans_le hparted.size)
  obtain ⟨hok₂, frames', h₂, -⟩ := h₁.proceeds hbuilt hret (.inl hturn) hfree.after.first
  obtain ⟨w, hcollects, hwpc, hwstack, hresult⟩ :=
    Layout.Passes.collect (L := program.layout image config)
      (v := w₁.jump (ρ.returnAddress done args)) hpop hstore rfl hstack₁
  obtain ⟨hok₃, h₃⟩ := h₂.passes hbuilt hcollects hfree.after.after
  rw [Machine.after_add] at h₂ h₃
  rw [Machine.after_add] at h₃
  exact ⟨hok₁.append (hok₂.append hok₃), h₂.pc_eq, frames', w, h₃, hwpc, hwstack.trans hrest,
    hresult⟩

end Calls

end Program
end LittleMan
