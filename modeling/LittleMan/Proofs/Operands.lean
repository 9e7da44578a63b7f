import LittleMan.Proofs.Frames.Sites
import LittleMan.Proofs.Safety

/-!
# Operands by value

The operands of an operator are evaluated one after the other, and the operator reads their
cells when all are done.  An operand that is a literal or has a temporary keeps its value
until then, and so does a local variable as long as no function calls itself.  A variable of
the main program keeps it unless a later operand calls a function that assigns to it.
-/

namespace LittleMan

open Mark

namespace Program

/-! ## Calls between functions -/

def Calls (program : Program) (f g : String) : Prop :=
  ∃ decl ∈ program.declared, decl.name = f ∧ g ∈ Stmt.calleesInBlock decl.body

def Acyclic (program : Program) : Prop :=
  ∀ f, ¬ Relation.TransGen program.Calls f f

theorem acyclic_of_rank {program : Program} (rank : String → Nat)
    (h : ∀ decl ∈ program.declared, ∀ g ∈ Stmt.calleesInBlock decl.body,
      rank g < rank decl.name) : program.Acyclic := by
  have hlower : ∀ {f g}, Relation.TransGen program.Calls f g → rank g < rank f := by
    intro f g hcalls
    induction hcalls with
    | single hcall =>
        obtain ⟨decl, hdecl, rfl, hg⟩ := hcall
        exact h decl hdecl _ hg
    | tail hcalls hcall ih =>
        obtain ⟨decl, hdecl, rfl, hg⟩ := hcall
        exact (h decl hdecl _ hg).trans ih
  exact fun f hcycle => Nat.lt_irrefl _ (hlower hcycle)

def AssignsGlobal (program : Program) (g x : String) : Prop :=
  x ∈ program.globals ∧ ∃ decl ∈ program.declared, decl.name = g ∧
    x ∈ Stmt.assignedInBlock decl.body ∧ x ∉ decl.params

/-- The cell is a variable of the main program, and what the expressions call may come to a
function that assigns to it. -/
def Overwrites (program : Program) (es : List Expr) (c : Cell) : Prop :=
  ∃ x f g, c = .var none x ∧ f ∈ Expr.calleesAll es ∧
    Relation.ReflTransGen program.Calls f g ∧ program.AssignsGlobal g x

variable {program : Program}

theorem mem_declared_of_mem_slots {slot : Slot} (hslot : slot ∈ program.slots) {f : FunctionDecl}
    (howner : slot.owner = some f) : f ∈ program.declared := by
  rcases List.mem_cons.1 hslot with rfl | hslot
  · cases howner
  · obtain ⟨-, -, g, hg, hslot⟩ := bounds_of_mem_functionSlots hslot
    obtain rfl := Option.some.inj (howner.symm.trans hslot)
    exact hg

theorem exists_slot {ρ : Region} (hρ : ρ ∈ program.regions) {g : String} (hname : ρ.name = some g) :
    ∃ slot ∈ program.slots, ρ = program.slotRegion slot ∧
      ∃ f ∈ program.declared, slot.owner = some f ∧ f.name = g := by
  rw [regions_eq] at hρ
  obtain ⟨slot, hslot, rfl⟩ := List.mem_map.1 hρ
  rw [slotRegion_name] at hname
  obtain ⟨f, howner, hf⟩ := Option.map_eq_some_iff.1 hname
  exact ⟨slot, hslot, rfl, f, mem_declared_of_mem_slots hslot howner, howner, hf⟩

theorem calls_of_regionCalls {f g : String} (h : RegionCalls program.regions f g) :
    program.Calls f g := by
  obtain ⟨ρ, hρ, hname, hg⟩ := h
  obtain ⟨slot, -, rfl, decl, hdecl, howner, rfl⟩ := exists_slot hρ hname
  have hcallee := program.called_slotRegion slot hg
  rw [howner] at hcallee
  exact ⟨decl, hdecl, rfl, hcallee⟩

/-! ## Functions that store into an operand -/

section Stores

variable {slot : Slot} {s : Site} {operand : Site.Operand} {σ : Span}

theorem Spans.ne_local (hspans : program.Spans slot s operand σ) {g : String}
    (hother : ∀ f, slot.owner = some f → f.name ≠ g) (x : String) :
    operand.cell ≠ .var (some g) x := by
  have hcell : ∀ y, program.cellOf slot.owner y ≠ .var (some g) x := by
    intro y heq
    rcases program.cellOf_cases slot.owner y with ⟨hy, -⟩ | ⟨f, howner, hy⟩
    · cases hy.symm.trans heq
    · obtain ⟨hname, -⟩ := Cell.var.inj (hy.symm.trans heq)
      exact hother f howner (Option.some.inj hname)
  intro heq
  rcases hspans.value with ⟨value, hvalue⟩ | ⟨y, hvalue⟩ | hstored
  · cases hvalue.symm.trans heq
  · exact hcell y (hvalue.symm.trans heq)
  · rw [hspans.region] at hstored
    rcases stores_slotRegion hstored with hbetween | ⟨f, y, howner, hvar⟩ | ⟨y, -, hvar⟩
    · rw [heq] at hbetween
      exact hbetween
    · obtain ⟨hname, -⟩ := Cell.var.inj (hvar.symm.trans heq)
      exact hother f howner (Option.some.inj hname)
    · exact hcell y (hvar.symm.trans heq)

/-- A function that is called by a later operand and stores into the cell of an operand assigns
to it as a variable of the main program. -/
theorem Spans.overwrites (hspans : program.Spans slot s operand σ) (hslot : slot ∈ program.slots)
    (hacyclic : program.Acyclic) {callee g : String} {ρ : Region} (hcallee : callee ∈ called σ.later)
    (hρ : ρ ∈ program.regions) (hname : ρ.name = some g) (hstored : operand.cell ∈ ρ.stores)
    (hreaches : Relation.ReflTransGen (RegionCalls program.regions) callee g) :
    program.Overwrites operand.later operand.cell := by
  have hcalls : Relation.ReflTransGen program.Calls callee g :=
    Relation.ReflTransGen.mono (fun _ _ h => calls_of_regionCalls h) _ _ hreaches
  -- the function is not the one that the operand stands in
  have hother : ∀ f, slot.owner = some f → f.name ≠ g := by
    rintro f howner rfl
    have hbody : callee ∈ Stmt.calleesInBlock (program.bodyOf slot.owner) := by
      refine program.called_slotRegion slot ?_
      rw [← hspans.region, hspans.formed.body]
      simp [hcallee]
    rw [howner] at hbody
    have hcall : program.Calls f.name callee :=
      ⟨f, mem_declared_of_mem_slots hslot howner, rfl, hbody⟩
    exact hacyclic f.name (.head' hcall hcalls)
  obtain ⟨slot', hslot', rfl, f, hf, howner, rfl⟩ := exists_slot hρ hname
  rcases stores_slotRegion hstored with hbetween | ⟨f', x, howner', hvar⟩ | ⟨x, hx, hvar⟩
  · -- two regions have no temporary in common
    refine absurd hstored ?_
    have hne : σ.region ≠ program.slotRegion slot' := by
      intro heq
      have hsame : slot.owner.map FunctionDecl.name = some f.name := by
        rw [← slotRegion_name, ← hspans.region, heq]
        exact hname
      obtain ⟨f', howner', hf'⟩ := Option.map_eq_some_iff.1 hsame
      exact hother f' howner' hf'
    have hapart := program.regions_apart _ hspans.formed.mem _ hρ hne
    rcases hspans.value with ⟨value, hvalue⟩ | ⟨x, hvalue⟩ | hstored'
    · rw [hvalue] at hbetween
      exact hbetween.elim
    · obtain ⟨stem, hstem⟩ := program.exists_cellOf_eq slot.owner x
      rw [hvalue, hstem] at hbetween
      exact hbetween.elim
    · cases hcell : operand.cell with
      | temporary n => exact hapart.temporaries n (hcell ▸ hstored')
      | literal value => rw [hcell] at hbetween; exact hbetween.elim
      | var stem x => rw [hcell] at hbetween; exact hbetween.elim
  · obtain rfl := Option.some.inj (howner.symm.trans howner')
    exact absurd hvar (hspans.ne_local hother x)
  · rw [howner] at hx
    rcases program.cellOf_cases slot'.owner x with ⟨hcell, hglobal⟩ | ⟨f', howner', hcell⟩
    · obtain ⟨hparam, hglobal⟩ := hglobal f howner
      exact ⟨x, callee, f.name, hvar.trans hcell, hspans.calls hcallee, hcalls, hglobal, f, hf, rfl,
        hx, hparam⟩
    · obtain rfl := Option.some.inj (howner.symm.trans howner')
      exact absurd (hvar.trans hcell) (hspans.ne_local hother x)

end Stores

/-! ## Runs -/

section Runs

variable {r : Register} {image : Image} {slot : Slot} {s : Site} {operand : Site.Operand}
  {σ : Span} (hbuilt : program.Built r image)
include hbuilt

theorem Built.cell_of_moves (hspans : program.Spans slot s operand σ)
    (hslot : slot ∈ program.slots) (hacyclic : program.Acyclic) {config : Config}
    {frames frames' : List Frame} {v v' : View} (hin : σ.Inside frames v)
    (hmoves : program.Moves image config frames v frames' v') :
    v'.cells operand.cell = v.cells operand.cell ∨
      OrderAt program.code v.pc .sta (.cell operand.cell) ∧
        program.Overwrites operand.later operand.cell := by
  cases hmoves with
  | stays => exact .inl rfl
  | goes order turn way =>
      refine (hspans.formed.cell_cases (hbuilt.parted config) program.regions_apart hin order turn
        way hspans.kept).imp_right ?_
      rintro ⟨hstore, callee, hcallee, ρ, hρ, g, hname, hstored, hreaches⟩
      exact ⟨hstore, hspans.overwrites hslot hacyclic hcallee hρ hname hstored hreaches⟩

theorem Built.inside_of_moves (hspans : program.Spans slot s operand σ) {config : Config}
    {frames frames' : List Frame} {v v' : View} (hin : σ.Inside frames' v')
    (hmoves : program.Moves image config frames v frames' v') :
    σ.Inside frames v ∨ v'.pc = σ.begins := by
  cases hmoves with
  | stays => exact .inl hin
  | goes order turn way =>
      exact hspans.formed.inside_of_way (hbuilt.parted config) program.regions_apart way hin

/-- Inside the span of an operand, the cell of the operand holds what it held when the span was
last entered, unless it has been overwritten since. -/
theorem Built.stands_inside (hspans : program.Spans slot s operand σ)
    (hslot : slot ∈ program.slots) (hacyclic : program.Acyclic) (inputs : List Word)
    (config : Config) (n : Nat) :
    ∃ frames v, program.StandsAt r image config frames v ((image.start inputs config).after n) ∧
      (σ.Inside frames v → ∃ i ≤ n, ((image.start inputs config).after i).pc = σ.begins ∧
        (∀ m, i < m → m ≤ n → ((image.start inputs config).after m).pc ≠ σ.begins) ∧
        ∃ frames' v',
          program.StandsAt r image config frames' v' ((image.start inputs config).after i) ∧
          (v.cells operand.cell = v'.cells operand.cell ∨
            program.Overwrites operand.later operand.cell ∧ ∃ m, i ≤ m ∧ m < n ∧
              OrderAt program.code ((image.start inputs config).after m).pc .sta
                (.cell operand.cell))) := by
  induction n with
  | zero =>
      have hstart := standsAt_start hbuilt inputs config
      refine ⟨_, _, hstart, fun hin => ?_⟩
      rcases hin with ⟨hle, -⟩ | ⟨frame, hframe, -⟩
      · exact ⟨0, Nat.le_refl _, hstart.pc_eq.trans (Nat.le_zero.1 hle).symm, by omega, _, _, hstart,
          .inl rfl⟩
      · cases hframe
  | succ n ih =>
      obtain ⟨frames, v, hstands, hkept⟩ := ih
      obtain ⟨⟨frames', v', hstands', hmoves⟩, -⟩ := hstands.step hbuilt
      refine ⟨frames', v', hstands', fun hin => ?_⟩
      by_cases hbegins : ((image.start inputs config).after (n + 1)).pc = σ.begins
      · exact ⟨n + 1, Nat.le_refl _, hbegins, by omega, frames', v', hstands', .inl rfl⟩
      have hbefore := (hbuilt.inside_of_moves hspans hin hmoves).resolve_right
        fun hpc => hbegins (hstands'.pc_eq.trans hpc)
      obtain ⟨i, hi, hpc, hlast, frames₀, v₀, hstands₀, hcell⟩ := hkept hbefore
      refine ⟨i, by omega, hpc, fun m him hmn => ?_, frames₀, v₀, hstands₀, ?_⟩
      · rcases Nat.lt_or_eq_of_le hmn with hlt | rfl
        · exact hlast m him (by omega)
        · exact hbegins
      · rcases hbuilt.cell_of_moves hspans hslot hacyclic hbefore hmoves with hsame | ⟨hstore, hover⟩
        · refine hcell.imp hsame.trans ?_
          rintro ⟨hover, m, him, hmn, hstore⟩
          exact ⟨hover, m, him, by omega, hstore⟩
        · exact .inr ⟨hover, n, hi, Nat.lt_succ_self n, hstands.pc_eq ▸ hstore⟩

theorem Built.reads_operand (hspans : program.Spans slot s operand σ) :
    ∃ p op, σ.turns ≤ p ∧ p < σ.ends ∧ op ∈ [Opcode.lda, .add, .sub] ∧
      OrderAt program.code p op (.cell operand.cell) := by
  obtain ⟨op, hop, hmem⟩ := hspans.reads
  obtain ⟨i, hi⟩ := List.getElem?_of_mem hmem
  have hlt : i < σ.reach := by
    have hlength := (List.getElem?_eq_some_iff.1 hi).1
    rw [List.length_take] at hlength
    omega
  rw [List.getElem?_take_of_lt hlt] at hi
  have hbody : σ.region.body = (σ.before ++ σ.first ++ σ.later) ++ σ.own ++ σ.after := by
    simp [hspans.formed.body]
  have hlaid := ((hbuilt.parted {}).formed _ hspans.formed.mem).laid_at hbody
  have hturns : σ.turns = σ.region.start + width (σ.before ++ σ.first ++ σ.later) := by
    simp only [Span.turns, Span.begins, width_append]
    omega
  refine ⟨σ.turns + i, op, Nat.le_add_right _ _, Nat.add_lt_add_left hlt _, hop, ?_⟩
  rw [hturns]
  exact hlaid.ordersAt.orderAt hi

theorem Built.instruction_of_orderAt {p : Nat} {op : Opcode} {c : Cell}
    (hat : OrderAt program.code p op (.cell c)) :
    ∃ instruction : Instruction, image.instructions[p]? = some instruction ∧
      instruction.opcode = op ∧ instruction.operand = .label c.label :=
  hbuilt.assembled.instruction_of_orderAt hat

end Runs

end Program

/-- In a compiled program without recursion, let an operator that needs all of its operands, or
the call of a function, be about to read them.  Then the machine has come by the end of each
operand, and the cell of the operand still holds the word that it held at the last time; or
the cell is a variable of the main program, a later operand calls a function that assigns to
it, be it by way of others, and a `STA` to the cell has been executed in between. -/
theorem operands_by_value {source : String} {image : Image} (hbuild : build source = .ok image) :
    ∃ program, Program.parse source = .ok program ∧ (program.Acyclic →
      ∀ owner s, (owner, s) ∈ program.sites → ∀ operand ∈ s.located (program.cellOf owner),
        ∃ a, image.labels.find? operand.cell.label = some a ∧
          (∃ (p : Nat) (instruction : Instruction), s.begins (program.cellOf owner) ≤ p ∧
            p < s.ends (program.cellOf owner) ∧ image.instructions[p]? = some instruction ∧
            instruction.opcode ∈ [Opcode.lda, .add, .sub] ∧
            instruction.operand = .label operand.cell.label) ∧
          ∀ (inputs : List Word) (config : Config) (j : Nat) (T : Nat → Machine),
            T = (image.start inputs config).after →
            s.begins (program.cellOf owner) ≤ (T j).pc → (T j).pc < s.ends (program.cellOf owner) →
            ∃ i ≤ j, (T i).pc = operand.ends ∧
              (∀ n, i < n → n ≤ j → (T n).pc ≠ operand.ends) ∧
              ((∃ word, (T i).memory[a]? = some word ∧ (T j).memory[a]? = some word) ∨
                program.Overwrites operand.later operand.cell ∧ ∃ n, i ≤ n ∧ n < j ∧
                  ∃ instruction : Instruction, image.instructions[(T n).pc]? = some instruction ∧
                    instruction.opcode = .sta ∧
                    instruction.operand = .label operand.cell.label)) := by
  obtain ⟨program, r, hparse, -, hbuilt⟩ := Program.built_of_build hbuild
  refine ⟨program, hparse, fun hacyclic owner s hs operand hoperand => ?_⟩
  obtain ⟨slot, hslot, rfl, σ, hspans⟩ := Program.exists_spans hs hoperand
  obtain ⟨p, op, hle, hlt, hop, hat⟩ := hbuilt.reads_operand hspans
  obtain ⟨instruction, hget, rfl, hlabel⟩ := hbuilt.instruction_of_orderAt hat
  obtain ⟨-, -, i, hi, -⟩ := hbuilt.decode_word {} hat
  refine ⟨_, hbuilt.assembled.cell hi, ⟨p, instruction, hspans.turns ▸ hle, hspans.ends ▸ hlt, hget,
    hop, hlabel⟩, ?_⟩
  rintro inputs config j _ rfl hbegins hends
  obtain ⟨frames, v, hstands, hkept⟩ :=
    hbuilt.stands_inside hspans hslot hacyclic inputs config j
  have hin : σ.Inside frames v := by
    rw [hstands.pc_eq, ← hspans.turns] at hbegins
    rw [hstands.pc_eq, ← hspans.ends] at hends
    exact .inl ⟨(Nat.le_add_right _ _).trans hbegins, hends⟩
  obtain ⟨n, hn, hpc, hlast, frames', v', hstands', hcell⟩ := hkept hin
  rw [hspans.begins] at hpc hlast
  refine ⟨n, hn, hpc, hlast, hcell.imp ?_ ?_⟩
  · intro hsame
    exact ⟨_, hstands'.cell hi, hsame ▸ hstands.cell hi⟩
  · rintro ⟨hover, m, hm, hmj, hstore⟩
    exact ⟨hover, m, hm, hmj, hbuilt.instruction_of_orderAt hstore⟩

/-- A sum whose right operand calls a function that assigns to another variable. -/
def countedCall : String :=
  "x = 1\nw = 0\nfunction f(n)\nw = n\nreturn n + 1\nendfunction\nfunction g(n)\nreturn f(n) * 2\nendfunction\ny = x + g(2)\n"

theorem operands_by_value_countedCall :
    ∃ image program s operand a, build countedCall = .ok image ∧
      Program.parse countedCall = .ok program ∧ program.Acyclic ∧ (none, s) ∈ program.sites ∧
      operand ∈ s.located (program.cellOf none) ∧ operand.cell = .var none "x" ∧
      Expr.calleesAll operand.later = ["g"] ∧
      image.labels.find? operand.cell.label = some a ∧
      ∀ (inputs : List Word) (config : Config) (j : Nat) (T : Nat → Machine),
        T = (image.start inputs config).after →
        s.begins (program.cellOf none) ≤ (T j).pc → (T j).pc < s.ends (program.cellOf none) →
        ∃ i ≤ j, (T i).pc = operand.ends ∧
          ∃ word, (T i).memory[a]? = some word ∧ (T j).memory[a]? = some word := by
  obtain ⟨image, hbuild⟩ : ∃ image, build countedCall = .ok image :=
    exists_image_of_buildable (by decide +kernel)
  obtain ⟨program, hparse, hvalue⟩ := operands_by_value hbuild
  -- `g` calls `f`, neither assigns to `x`, and `x` is an operand with `g` after it
  have hchecks : (Program.parse countedCall).toOption.any (fun program =>
      (program.declared.all fun decl => (Stmt.calleesInBlock decl.body).all fun g =>
        decide (["f", "g"].idxOf g < ["f", "g"].idxOf decl.name)) &&
      (program.declared.all fun decl => decide ("x" ∉ Stmt.assignedInBlock decl.body)) &&
      program.sites.any fun site => site.1.isNone &&
        (site.2.located (program.cellOf none)).any fun operand =>
          decide (operand.cell = .var none "x") &&
            decide (Expr.calleesAll operand.later = ["g"])) = true := by decide +kernel
  simp only [hparse, Except.toOption, Option.any_some, List.all_eq_true, List.any_eq_true,
    Bool.and_eq_true, Option.isNone_iff_eq_none, decide_eq_true_eq] at hchecks
  obtain ⟨⟨hcalls, hassigns⟩, hsites⟩ := hchecks
  obtain ⟨⟨_, s⟩, hs, rfl, operand, hoperand, hcell, hlater⟩ := hsites
  have hacyclic : program.Acyclic := Program.acyclic_of_rank _ hcalls
  have hnot : ¬ program.Overwrites operand.later operand.cell := by
    rintro ⟨x, f, g, hx, -, -, -, decl, hdecl, -, hassigned, -⟩
    obtain ⟨-, rfl⟩ := Cell.var.inj (hcell.symm.trans hx)
    exact hassigns decl hdecl hassigned
  obtain ⟨a, ha, -, hkept⟩ := hvalue hacyclic none s hs operand hoperand
  refine ⟨image, program, s, operand, a, hbuild, hparse, hacyclic, hs, hoperand, hcell, hlater, ha, ?_⟩
  intro inputs config j T hT hbegins hends
  obtain ⟨i, hi, hpc, -, hword⟩ := hkept inputs config j T hT hbegins hends
  exact ⟨i, hi, hpc, hword.resolve_right fun hover => hnot hover.1⟩

end LittleMan
