import LittleMan.Proofs.Clashes
import LittleMan.Proofs.Frames.Programs
import LittleMan.Proofs.Horizon

/-!
# Compiled programs run safely

Every state of a machine that has loaded a program shows a safe view, or the machine has
halted in such a state.  So the program counter stays in the code, the code and the
literals stay as they are, and of all faults only three can occur.  When the `HLT` of the
main program is reached, the stack is empty.
-/

namespace LittleMan

open Mark

/-! ## Halts -/

namespace Region.Formed

variable {code : List Entry} {ρ : Region} {done rest : List Mark}

/-- A mark that does not belong to the flow of a body is its last one or in a guard. -/
theorem unflow_cases (h : ρ.Formed code) {m : Mark} (here : ρ.body = done ++ m :: rest)
    (hm : m.isFlow = false) :
    (ρ.function = none ∧ m = bare .hlt ∧ rest = []) ∨
      ∃ n before within after, ρ.body = before ++ guard n ++ after ∧
        done = before ++ within ∧ within ++ m :: rest = guard n ++ after ∧ within.length < 4 := by
  obtain ⟨init, last, hbody, hguarded, hlast⟩ := h.last
  rcases List.eq_nil_or_concat rest with rfl | ⟨rest', x, rfl⟩
  · obtain ⟨-, rfl⟩ : done = init ∧ m = last := by
      rw [here] at hbody
      simpa using List.append_inj' hbody rfl
    rcases hlast with ⟨hfunction, rfl⟩ | ⟨-, value, address, rfl⟩
    · exact .inl ⟨hfunction, rfl, rfl⟩
    · cases hm
  · have hsplit : (done ++ m :: rest') ++ [x] = init ++ [last] := by
      rw [← hbody, here]
      simp
    obtain ⟨hinit, -⟩ := List.append_inj' hsplit rfl
    rcases hguarded.cases_at hinit.symm with hflow | ⟨n, before, after, within, heq, rfl, hwithin, hlt⟩
    · rw [hm] at hflow
      cases hflow
    · refine .inr ⟨n, before, within, after ++ [x], ?_, rfl, ?_, hlt⟩
      · rw [here, ← List.append_assoc, ← heq, ← hinit]
        simp
      · rw [← List.append_assoc, ← hwithin]
        simp

theorem halt_cases (h : ρ.Formed code) (here : ρ.body = done ++ bare .hlt :: rest) :
    (ρ.function = none ∧ rest = []) ∨
      ∃ n before after, ρ.body = before ++ guard n ++ after ∧ width done = width before + 2 := by
  rcases h.unflow_cases here rfl with ⟨hfunction, -, rfl⟩ | ⟨n, before, within, after, hbody, rfl, hwithin, hlt⟩
  · exact .inl ⟨hfunction, rfl⟩
  · refine .inr ⟨n, before, after, hbody, ?_⟩
    rcases within with _ | ⟨a, _ | ⟨b, _ | ⟨c, _ | ⟨d, more⟩⟩⟩⟩ <;>
      simp [Mark.guard] at hwithin hlt
    · obtain ⟨rfl, rfl, rfl, -⟩ := hwithin
      simp [Mark.orders]
    · omega

theorem failure_cases (h : ρ.Formed code) {op : Opcode} {n : Nat}
    (here : ρ.body = done ++ .order op (.place (failure n)) :: rest) :
    ∃ after, ρ.body = done ++ guard n ++ after := by
  have hflow : (Mark.order op (.place (failure n))).isFlow = false := by
    cases op <;> rfl
  rcases h.unflow_cases here hflow with ⟨-, hmark, -⟩ | ⟨n', before, within, after, hbody, rfl, hwithin, hlt⟩
  · simp at hmark
  · refine ⟨after, ?_⟩
    rcases within with _ | ⟨a, _ | ⟨b, _ | ⟨c, _ | ⟨d, more⟩⟩⟩⟩ <;>
      simp [Mark.guard] at hwithin hlt
    · obtain ⟨⟨rfl, rfl⟩, -⟩ := hwithin
      simpa using hbody
    · omega

end Region.Formed

theorem laid_guard {code : List Entry} {p n : Nat} :
    Laid code p (guard n) ↔
      OrderAt code p .brz (.place (failure n)) ∧ OrderAt code (p + 1) .bra (.place (success n)) ∧
        PlaceAt code (p + 2) (failure n) ∧ OrderAt code (p + 2) .hlt .none := by
  simp [Mark.guard, Nat.add_assoc]

namespace Program

variable {program : Program} {r : Register} {image : Image} {config : Config} {m : Machine}

def mainHalt (program : Program) : Nat :=
  width program.emitMain.marks

theorem code_mainHalt (program : Program) :
    program.code[program.mainHalt]? = some ⟨none, .hlt, .none⟩ := by
  let main := ({} : Tablet).lay program.emitMain.marks
  have hbegins : ((main.write (.hlt, .none)).lay (emitFunctions program.globals
      program.functions program.emitMain.counters).marks).Begins program.code := by
    refine ⟨?_, by simp [pending_emitFunctions (t := main.write (.hlt, .none)) rfl]⟩
    simp only [code, marks, Tablet.lay_append]
    exact List.prefix_refl _
  -- the code goes on from the `HLT`, hence from the main statements
  obtain ⟨hwritten, -⟩ := Tablet.laid_of_begins (t := main.write (.hlt, .none))
    (emitFunctions_settled program.globals program.functions program.emitMain.counters).1 hbegins
  have hmain : Settled program.emitMain.marks := Stmt.emitBlock_settled none program.main {}
  obtain ⟨-, -, hlength, hpending⟩ := Tablet.laid_of_begins (t := {}) hmain.1
    (Tablet.begins_of_write hwritten).1
  have hnone : main.pending = none := by
    simpa [hmain.2] using hpending
  obtain ⟨more, hmore⟩ := hwritten.isPrefix
  rw [mainHalt, ← Nat.zero_add (width _), ← hmore]
  change (main.entries ++ [⟨main.pending, .hlt, .none⟩] ++ more)[_]? = _
  rw [List.append_assoc, List.getElem?_append_right (by simp [main, hlength]), hnone]
  simp [main, hlength]

/-! ## States of the machine -/

/-- The machine runs the program with these open calls and this view, or it has halted at an
order of it. -/
inductive StandsAt (program : Program) (r : Register) (image : Image) (config : Config)
    (frames : List Frame) (v : View) : Machine → Prop
  | going {m : Machine} (shows : program.Shows r image config m v)
      (safe : Safe program.regions frames v) : StandsAt program r image config frames v m
  | halted {m : Machine} (shows : program.Shows r image config m v)
      (safe : Safe program.regions frames v)
      (admits : Admits (program.layout image config) program.regions frames v .halts) :
      StandsAt program r image config frames v (m.perform .halt)

def Stands (program : Program) (r : Register) (image : Image) (config : Config) (m : Machine) :
    Prop :=
  ∃ frames v, program.StandsAt r image config frames v m

inductive Moves (program : Program) (image : Image) (config : Config) (frames : List Frame)
    (v : View) : List Frame → View → Prop
  | stays : Moves program image config frames v frames v
  | goes {op : Opcode} {target : Target} {frames' : List Frame} {v' : View}
      (order : OrderAt program.code v.pc op target)
      (turn : (program.layout image config).turn op target v = .goes v')
      (way : Way (program.layout image config) program.regions frames v frames' v') :
      Moves program image config frames v frames' v'

/-- The faults that a compiled program can meet. -/
def Expected (config : Config) (cause : FaultCause) : Prop :=
  cause = .arithmeticOverflow ∨ cause = .stackOverflow config.maxStack ∨
    ∃ limit, config.maxSteps = some limit ∧ cause = .stepLimitExceeded limit

/-- A step from a safe state does what an order of the program does, unless the limit of
steps has been reached. -/
theorem step_cases {frames : List Frame} {v : View} (shows : program.Shows r image config m v)
    (safe : Safe program.regions frames v) (hbuilt : program.Built r image) :
    (∃ limit, config.maxSteps = some limit ∧
        m.step = (.error ⟨m.pc, .stepLimitExceeded limit⟩, m)) ∨
      ∃ op target t, OrderAt program.code v.pc op target ∧
        (program.layout image config).turn op target v = t ∧
        Shows.Steps program r image config m t ∧
        Admits (program.layout image config) program.regions frames v t := by
  cases hlimit : m.checkLimit with
  | error cause =>
      obtain ⟨limit, hmax, rfl⟩ := Machine.checkLimit_error hlimit
      refine .inl ⟨limit, shows.limits ▸ hmax, ?_⟩
      simp [Machine.step, shows.going, Machine.fetch, hlimit, bind, Except.bind]
  | ok _ =>
      obtain ⟨op, target, hat, hadmits⟩ := safe.turn (hbuilt.parted config)
      exact .inr ⟨op, target, _, hat, rfl, shows.step hbuilt hat hlimit, hadmits⟩

theorem StandsAt.step {frames : List Frame} {v : View}
    (h : program.StandsAt r image config frames v m) (hbuilt : program.Built r image) :
    (∃ frames' v', program.StandsAt r image config frames' v' m.step.2 ∧
        program.Moves image config frames v frames' v') ∧
      ∀ fault, m.step.1 = .error fault → Expected config fault.cause := by
  cases h with
  | @halted m shows safe admits =>
      have hstep : (m.perform .halt).step = (.ok .halted, m.perform .halt) := by
        simp [Machine.step, Machine.perform]
      rw [hstep]
      exact ⟨⟨_, _, .halted shows safe admits, .stays⟩, by simp⟩
  | going shows safe =>
      rcases step_cases shows safe hbuilt with ⟨limit, hmax, hstep⟩ |
        ⟨op, target, t, hat, hturn, hsteps, hadmits⟩
      · rw [hstep]
        refine ⟨⟨_, _, .going shows safe, .stays⟩, fun fault hfault => ?_⟩
        obtain rfl := Except.error.inj hfault
        exact .inr (.inr ⟨limit, hmax, rfl⟩)
      cases hsteps with
      | goes step shows' =>
          rw [step]
          cases hadmits with
          | goes safe' way => exact ⟨⟨_, _, .going shows' safe', .goes hat hturn way⟩, by simp⟩
      | halts step =>
          rw [step]
          exact ⟨⟨_, _, .halted shows safe hadmits, .stays⟩, by simp⟩
      | waits step =>
          rw [step]
          exact ⟨⟨_, _, .going { shows with going := by simp } safe, .stays⟩, by simp⟩
      | faults step =>
          rw [step]
          refine ⟨⟨_, _, .going shows safe, .stays⟩, fun fault hfault => ?_⟩
          obtain rfl := Except.error.inj hfault
          cases hadmits with
          | overflows => exact .inl rfl
          | fills => exact .inr (.inl rfl)

theorem StandsAt.pc_eq {frames : List Frame} {v : View}
    (h : program.StandsAt r image config frames v m) : m.pc = v.pc := by
  cases h with
  | going shows safe => exact shows.pc
  | halted shows safe admits => exact shows.pc

theorem StandsAt.cell {frames : List Frame} {v : View}
    (h : program.StandsAt r image config frames v m) {i : Nat} {c : Cell}
    (hc : r.cells[i]? = some c) : m.memory[program.code.length + i]? = some (v.cells c) := by
  cases h with
  | going shows safe => exact shows.cell hc
  | halted shows safe admits => exact shows.cell hc

theorem Stands.step (h : program.Stands r image config m) (hbuilt : program.Built r image) :
    program.Stands r image config m.step.2 ∧
      ∀ fault, m.step.1 = .error fault → Expected config fault.cause := by
  obtain ⟨frames, v, h⟩ := h
  obtain ⟨⟨frames', v', hstands, -⟩, hfaults⟩ := h.step hbuilt
  exact ⟨⟨frames', v', hstands⟩, hfaults⟩

theorem standsAt_start (hbuilt : program.Built r image) (inputs : List Word) (config : Config) :
    program.StandsAt r image config [] (View.start inputs) (image.start inputs config) :=
  .going (hbuilt.assembled.shows_start inputs config) (safe_start hbuilt inputs)

theorem stands_after (hbuilt : program.Built r image) (inputs : List Word) (config : Config)
    (n : Nat) : program.Stands r image config ((image.start inputs config).after n) := by
  induction n with
  | zero => exact ⟨_, _, standsAt_start hbuilt inputs config⟩
  | succ n ih => exact (ih.step hbuilt).1

theorem getElem?_cells (f g : Cell → Word) (first : List Word) (cells : List Cell)
    (last : List Word) (a : Nat) :
    (first ++ cells.map f ++ last)[a]? = (first ++ cells.map g ++ last)[a]? ∨
      ∃ i c, a = first.length + i ∧ cells[i]? = some c ∧ f c ≠ g c := by
  induction first generalizing a with
  | cons word first ih =>
      cases a with
      | zero => exact .inl rfl
      | succ a =>
          rcases ih a with hsame | ⟨i, c, rfl, hc⟩
          · exact .inl hsame
          · exact .inr ⟨i, c, by simp [Nat.add_right_comm], hc⟩
  | nil =>
      induction cells generalizing a with
      | nil => exact .inl rfl
      | cons c cells ih =>
          cases a with
          | zero =>
              by_cases hsame : f c = g c
              · exact .inl (congrArg some hsame)
              · exact .inr ⟨0, c, rfl, rfl, hsame⟩
          | succ a =>
              rcases ih a with hsame | ⟨i, c', hi, hc⟩
              · exact .inl hsame
              · exact .inr ⟨i + 1, c', by simpa using hi, hc⟩

section States

variable (hbuilt : program.Built r image)
include hbuilt

theorem Stands.pc_lt (h : program.Stands r image config m) : m.pc < program.code.length := by
  have hsafe : ∀ {frames : List Frame} {v : View}, Safe program.regions frames v →
      v.pc < program.code.length := by
    intro frames v safe
    obtain ⟨op, target, hat, -⟩ := safe.turn (hbuilt.parted config)
    exact lt_length_of_orderAt hat
  obtain ⟨frames, v, h⟩ := h
  cases h with
  | going shows safe => exact shows.pc ▸ hsafe safe
  | @halted m shows safe admits =>
      change m.pc < _
      exact shows.pc ▸ hsafe safe

/-- Outside the variables and temporaries the memory is the one that was loaded. -/
theorem shows_memory {frames : List Frame} {v : View} (h : program.Shows r image config m v)
    (safe : Safe program.regions frames v) (a : Nat) :
    m.memory[a]? = (Machine.padded config image.memory)[a]? ∨
      ∃ i c, a = program.code.length + i ∧ r.cells[i]? = some c ∧ c.isLiteral = false := by
  rw [← Array.getElem?_toList, ← Array.getElem?_toList, h.memory,
    hbuilt.assembled.padded_eq config]
  rcases getElem?_cells v.cells Cell.initial (program.words image) r.cells
    (padding image config) a with hsame | ⟨i, c, ha, hc, hne⟩
  · exact .inl hsame
  · refine .inr ⟨i, c, by simpa [words] using ha, hc, ?_⟩
    cases c with
    | literal value => exact absurd (safe.literals value) hne
    | _ => rfl

theorem Stands.memory (h : program.Stands r image config m) (a : Nat) :
    m.memory[a]? = (Machine.padded config image.memory)[a]? ∨
      ∃ i c, a = program.code.length + i ∧ r.cells[i]? = some c ∧ c.isLiteral = false := by
  obtain ⟨frames, v, h⟩ := h
  cases h with
  | going shows safe => exact shows_memory hbuilt shows safe a
  | halted shows safe admits => exact shows_memory hbuilt shows safe a

theorem Stands.stack_mainHalt (h : program.Stands r image config m) (hhalted : m.status = .halted)
    (hpc : m.pc = program.mainHalt) : m.stack = [] := by
  obtain ⟨frames, v, h⟩ := h
  cases h with
  | going shows safe => exact absurd hhalted shows.going
  | @halted m shows safe admits =>
      cases admits with
      | @halts ρ done rest mem here pc stack =>
          have hformed := (hbuilt.parted config).formed ρ mem
          have haddress : ρ.start + width done = program.mainHalt := by
            rw [← pc, ← shows.pc]
            exact hpc
          rcases hformed.halt_cases here with ⟨hfunction, -⟩ | ⟨n, before, after, hbody, hwidth⟩
          · have hname : ρ.name = none := by simp [Region.name, hfunction]
            rw [hname, ← shows.stack] at stack
            change m.stack = []
            generalize m.stack = words at stack
            cases stack
            rfl
          · -- the `HLT` of an assertion has a place
            obtain ⟨-, -, ⟨entry, hentry, hplace⟩, -⟩ := laid_guard.1 (hformed.laid_at hbody)
            have hcode := program.code_mainHalt
            rw [← haddress, hwidth, ← Nat.add_assoc] at hcode
            obtain rfl := Option.some.inj (hentry.symm.trans hcode)
            cases hplace

end States

/-! ## Compiled programs -/

theorem Assembled.instructionAt (h : program.Assembled r image) {a : Nat} {entry : Entry}
    (hentry : program.code[a]? = some entry) :
    ∃ instruction : Instruction, image.instructions[a]? = some instruction ∧
      instruction.parts = entry.line.parts := by
  obtain ⟨instruction, hget, hparts⟩ := mem_code_of_getElem? h.instructions hentry
  exact ⟨instruction, by rw [← Array.getElem?_toList, hget], hparts⟩

theorem Assembled.instruction_of_orderAt (h : program.Assembled r image) {a : Nat} {op : Opcode}
    {target : Target} (hat : OrderAt program.code a op target) :
    ∃ instruction : Instruction, image.instructions[a]? = some instruction ∧
      instruction.opcode = op ∧ instruction.operand = target.operand := by
  obtain ⟨place, hentry⟩ := hat
  obtain ⟨instruction, hget, hparts⟩ := h.instructionAt hentry
  refine ⟨instruction, hget, congrArg (·.2.1) hparts, (congrArg (·.2.2) hparts).trans ?_⟩
  cases target <;> rfl

theorem Assembled.instruction_code (h : program.Assembled r image) {a : Nat}
    (hlt : a < program.code.length) :
    ∃ instruction, image.instructions[a]? = some instruction ∧ instruction.opcode ≠ .dat := by
  obtain ⟨instruction, hget, hparts⟩ := h.instructionAt (List.getElem?_eq_getElem hlt)
  have hlegal := program.isLegal_of_mem_code (List.getElem_mem hlt)
  have hop : instruction.opcode = program.code[a].op := congrArg (·.2.1) hparts
  refine ⟨instruction, hget, fun hdat => ?_⟩
  rw [hop] at hdat
  rw [hdat] at hlegal
  cases htarget : program.code[a].target <;> simp [isLegal, isSimple] at hlegal

theorem Assembled.instruction_cell (h : program.Assembled r image) {i : Nat} {c : Cell}
    (hc : r.cells[i]? = some c) :
    ∃ instruction, image.instructions[program.code.length + i]? = some instruction ∧
      instruction.opcode = .dat ∧ instruction.label = some c.label := by
  obtain ⟨instruction, hget, hparts⟩ := cell_of_getElem? h.instructions hc
  exact ⟨instruction, by rw [← Array.getElem?_toList, hget], congrArg (·.2.1) hparts,
    congrArg Prod.fst hparts⟩

end Program

/-- Whatever a compiled program is given to read and whatever limits its machine has, after
any number of steps the program counter is at an instruction that is not data; a word of
the memory differs from the word that was loaded only if it is a variable or a temporary;
the next step meets no fault but an overflow, a full stack or the limit of steps; and if
the machine has halted at the `HLT` of the main program, its stack is empty. -/
theorem Image.after_safe {source : String} {image : Image} (hbuild : build source = .ok image) :
    ∃ program, Program.parse source = .ok program ∧
      ∀ (inputs : List Word) (config : Config) (n : Nat) (m : Machine),
        m = (image.start inputs config).after n →
        (∃ instruction : Instruction, image.instructions[m.pc]? = some instruction ∧
            instruction.opcode ≠ .dat) ∧
          (∀ a : Nat, m.memory[a]? = (Machine.padded config image.memory)[a]? ∨
            ∃ (instruction : Instruction) (c : Cell), image.instructions[a]? = some instruction ∧
              instruction.opcode = .dat ∧ instruction.label = some c.label ∧
              c.isLiteral = false) ∧
          (∀ fault, m.step.1 = .error fault →
            fault.cause = .arithmeticOverflow ∨ fault.cause = .stackOverflow config.maxStack ∨
              ∃ limit, config.maxSteps = some limit ∧
                fault.cause = .stepLimitExceeded limit) ∧
          (m.status = .halted → m.pc = program.mainHalt → m.stack = []) := by
  obtain ⟨program, r, hparse, -, hbuilt⟩ := Program.built_of_build hbuild
  refine ⟨program, hparse, ?_⟩
  rintro inputs config n m rfl
  have hstands := Program.stands_after hbuilt inputs config n
  refine ⟨hbuilt.assembled.instruction_code (hstands.pc_lt hbuilt), fun a => ?_,
    (hstands.step hbuilt).2, hstands.stack_mainHalt hbuilt⟩
  rcases hstands.memory hbuilt a with hsame | ⟨i, c, rfl, hc, hliteral⟩
  · exact .inl hsame
  · obtain ⟨instruction, hget, hdat, hlabel⟩ := hbuilt.assembled.instruction_cell hc
    exact .inr ⟨instruction, c, hget, hdat, hlabel, hliteral⟩

def countdown : String :=
  "function f(n)\nif n > 0 then\nreturn f(n - 1)\nendif\nreturn n\nendfunction\nx = f(3)\n"

theorem after_safe_countdown :
    ∃ image, build countdown = .ok image ∧ ∀ inputs config n fault,
      ((image.start inputs config).after n).step.1 = .error fault →
        fault.cause ≠ .stackUnderflow := by
  obtain ⟨image, hbuild⟩ : ∃ image, build countdown = .ok image :=
    exists_image_of_buildable (by decide +kernel)
  refine ⟨image, hbuild, fun inputs config n fault hfault hcause => ?_⟩
  obtain ⟨program, -, hsafe⟩ := Image.after_safe hbuild
  obtain ⟨-, -, hfaults, -⟩ := hsafe inputs config n _ rfl
  simpa [hcause] using hfaults fault hfault

end LittleMan
