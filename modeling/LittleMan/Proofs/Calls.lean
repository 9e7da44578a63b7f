import LittleMan.Proofs.Activations
import LittleMan.Proofs.Frames.Returns
import LittleMan.Proofs.Operands

/-!
# The calling convention

A call leaves one word on the stack for the function, its return address, and the arguments
in the cells of the parameters.  A return takes this word off again and brings the value to
the cell of the call.  Any number of calls may be open in between, of the same function as
well.
-/

namespace LittleMan

open Mark

def Image.Has (image : Image) (a : Nat) (op : Opcode) (operand : Operand) : Prop :=
  ∃ instruction : Instruction, image.instructions[a]? = some instruction ∧
    instruction.opcode = op ∧ instruction.operand = operand

/-- A call: the address of its first word, the cells of its arguments, the function, and the
cell for its value. -/
structure FunctionCall where
  begins : Nat
  args : List Cell
  function : FunctionDecl
  result : Cell

def Site.call (vars : String → Cell) (s : Site) (f : FunctionDecl) : FunctionCall where
  begins := s.begins vars
  args := (s.emitted vars).result
  function := f
  result := s.result vars

namespace FunctionCall

variable (call : FunctionCall) (image : Image) (entry : Nat)

def back : Nat :=
  call.begins + (4 + 2 * call.args.length)

def steps : Nat :=
  5 + 4 * call.args.length

def room (m : Machine) : Nat :=
  m.stack.length + (1 + call.args.length)

structure Stands : Prop where
  locates : image.Has call.begins .ldaPc .none
  loads : ∀ (i : Nat) (c : Cell), call.args[i]? = some c →
    image.Has (call.begins + (3 + 2 * i)) .lda (.label c.label)
  branches : image.Has (call.begins + (3 + 2 * call.args.length)) .bra
    (.label (Place.entry call.function.name).label)
  entry : image.labels.find? (Place.entry call.function.name).label = some entry
  pulls : image.Has call.back .pop .none
  stores : image.Has (call.back + 1) .sta (.label call.result.label)

/-- A machine `b` in the body of the function, which has been called by a machine `m`. -/
structure Enters (m b : Machine) : Prop where
  pc : b.pc = entry + (1 + 2 * call.args.length)
  stack : b.stack = Word.ofAddress call.back :: m.stack
  params : call.function.params.Nodup → ∀ (i : Nat) (x : String) (c : Cell),
    call.function.params[i]? = some x → call.args[i]? = some c →
      ∃ word, image.word? m c = some word ∧
        image.word? b (.var (some call.function.name) x) = some word

/-- A machine `e` that begins to return the word of a cell comes back to the call of a machine
`m`. -/
structure Returns (value : Cell) (m e : Machine) : Prop where
  back : (e.after 6).pc = call.back
  pc : (e.after 8).pc = call.back + 2
  stack : (e.after 8).stack = m.stack
  value : ∃ word, image.word? e value = some word ∧
    image.word? (e.after 8) call.result = some word

end FunctionCall

namespace Program

variable {program : Program} {r : Register} {image : Image} {config : Config} {m : Machine}
  {frames : List Frame} {v : View} {op : Opcode} {target : Target}

structure Calling (program : Program) (call : FunctionCall) (ρ g : Region) (done rest : List Mark) :
    Prop where
  mem : ρ ∈ program.regions
  here : ρ.body = done ++ .call call.function.name call.args call.result :: rest
  site : ρ.start + width done = call.begins
  callee : g ∈ program.regions
  function : g.function = some (call.function.name,
    call.function.params.reverse.map (.var (some call.function.name)))
  takes : call.function.params.length = call.args.length

section Built

variable (hbuilt : program.Built r image)
include hbuilt

theorem Built.exists_calling {owner : Option FunctionDecl} {s : Site} {callee : String}
    (hs : (owner, s) ∈ program.sites) (hop : s.operator = .call callee) :
    ∃ f ∈ program.declared, f.name = callee ∧
      ∃ ρ g done rest, program.Calling (s.call (program.cellOf owner) f) ρ g done rest := by
  obtain ⟨slot, hslot, rfl, hin⟩ := in_of_mem_sites hs
  obtain ⟨before, after, hmarks, hbase, -⟩ := hin.split
  have hbody : (program.slotRegion slot).body =
      (before ++ (s.emitted (program.cellOf slot.owner)).marks) ++
        .call callee (s.emitted (program.cellOf slot.owner)).result
          (s.result (program.cellOf slot.owner)) :: (after ++ [program.lastMark slot]) := by
    change (program.emitSlot slot).marks ++ _ = _
    rw [hmarks, Site.marks, Site.own, hop]
    simp [Operator.marks, Site.result]
  obtain ⟨g, hg, params, hfunction, hlength⟩ := (hbuilt.parted {}).calls _ (slotRegion_mem hslot)
    callee _ _ (hbody ▸ List.mem_append_right _ List.mem_cons_self)
  have hname : g.name = some callee := by rw [Region.name, hfunction, Option.map_some]
  obtain ⟨slot', -, rfl, f, hf, howner, rfl⟩ := exists_slot hg hname
  have hparams : (program.slotRegion slot').function =
      some (f.name, f.params.reverse.map (.var (some f.name))) := by
    rw [slotRegion, howner, Option.map_some]
  obtain ⟨-, rfl⟩ := Prod.mk.inj (Option.some.inj (hfunction.symm.trans hparams))
  rw [List.length_map, List.length_reverse] at hlength
  refine ⟨f, hf, rfl, _, _, _, _, ⟨slotRegion_mem hslot, hbody, ?_, hg, hparams, hlength⟩⟩
  rw [width_append, ← Nat.add_assoc, ← hbase]
  rfl

theorem Built.has {a : Nat} (hat : OrderAt program.code a op target) :
    image.Has a op target.operand :=
  hbuilt.assembled.instruction_of_orderAt hat

theorem StandsAt.word? (h : program.StandsAt r image config frames v m) {p : Nat}
    {orders : List (Opcode × Target)} (horders : OrdersAt program.code p orders) {c : Cell}
    (hc : (op, .cell c) ∈ orders) : image.word? m c = some (v.cells c) := by
  obtain ⟨j, hj⟩ := List.getElem?_of_mem hc
  obtain ⟨i, hi⟩ := hbuilt.exists_cell (horders.orderAt hj)
  rw [hbuilt.assembled.word?_eq hi, hbuilt.assembled.address_eq hi]
  exact h.cell hi

section Calling

variable {call : FunctionCall} {ρ g : Region} {done rest : List Mark}
  (hcalling : program.Calling call ρ g done rest)
include hcalling

theorem Calling.stands : call.Stands image g.base := by
  have hformed := (hbuilt.parted {}).formed ρ hcalling.mem
  obtain ⟨hplace, -⟩ := ((hbuilt.parted {}).formed g hcalling.callee).entry hcalling.function
  obtain ⟨⟨hlocate, -⟩, hpushes, hbranch, -⟩ := orders_call hformed hcalling.here
  have hpop := hformed.orderAt_returnAddress hcalling.here
  have hstore := hformed.orderAt_result hcalling.here
  rw [Region.returnAddress] at hpop hstore
  rw [hcalling.site] at hlocate hpushes hbranch hpop hstore
  refine ⟨hbuilt.has hlocate, ?_, hbuilt.has hbranch, hbuilt.assembled.place hplace,
    hbuilt.has hpop, hbuilt.has hstore⟩
  intro i c hc
  obtain ⟨hi, rfl⟩ := List.getElem?_eq_some_iff.1 hc
  have hsplit : call.args = call.args.take i ++ call.args[i] :: call.args.drop (i + 1) := by
    rw [← List.drop_eq_getElem_cons hi, List.take_append_drop]
  rw [hsplit] at hpushes
  have hload := hpushes.pushes.1
  rw [List.length_take, Nat.min_eq_left (Nat.le_of_lt hi), Nat.add_assoc] at hload
  exact hbuilt.has hload

omit hbuilt in
theorem Calling.returnAddress_eq : ρ.returnAddress done call.args = call.back := by
  rw [Region.returnAddress, FunctionCall.back, hcalling.site]

theorem Calling.activates (h : program.StandsAt r image config frames v m)
    (hpc : m.pc = call.begins) (hfree : m.Unhindered config call.steps (call.room m)) :
    m.Unfailing call.steps ∧ v.stack = frames.map Frame.word ∧
      ∃ frame w, frame.word = Frame.word ⟨ρ, done, call.args⟩ ∧
        program.StandsAt r image config (frame :: frames) w (m.after call.steps) ∧
        w.pc = g.base + (1 + 2 * call.args.length) ∧ w.stack = frame.word :: v.stack ∧
        w.cells = received (call.function.params.reverse.map (.var (some call.function.name)))
          (call.args.map v.cells).reverse v.cells := by
  have hbegins : v.pc = ρ.start + width done := by rw [← h.pc_eq, hpc, hcalling.site]
  have hlength := hcalling.takes
  rw [← List.length_reverse, ← List.length_map (f := Cell.var (some call.function.name))] at hlength
  rw [FunctionCall.room, h.stack_eq] at hfree
  exact h.enters hbuilt hcalling.mem hcalling.here hbegins hcalling.callee hcalling.function hlength
    hfree

theorem Calling.enters (h : program.StandsAt r image config frames v m)
    (hpc : m.pc = call.begins) (hfree : m.Unhindered config call.steps (call.room m)) :
    m.Unfailing call.steps ∧ call.Enters image g.base m (m.after call.steps) := by
  have hparted := hbuilt.parted config
  obtain ⟨-, hpushes, -⟩ := orders_call (hparted.formed ρ hcalling.mem) hcalling.here
  obtain ⟨-, -, hpops⟩ := (hparted.formed g hcalling.callee).entry hcalling.function
  obtain ⟨hok, -, frame, w, hword, hstands, hwpc, hwstack, hwcells⟩ :=
    hcalling.activates hbuilt h hpc hfree
  refine ⟨hok, ?_, ?_, ?_⟩
  · exact hstands.pc_eq.trans hwpc
  · rw [hstands.stack_eq, hwstack, hword, h.stack_eq, ← hcalling.returnAddress_eq]
    rfl
  · intro hnodup i x c hx hc
    have hload : (Opcode.lda, Target.cell c) ∈ pushes call.args :=
      List.mem_flatMap.2 ⟨c, List.mem_of_getElem? hc, List.mem_cons_self⟩
    have hstore : (Opcode.sta, Target.cell (.var (some call.function.name) x)) ∈
        pops (call.function.params.reverse.map (.var (some call.function.name))) := by
      simpa [pops] using List.mem_of_getElem? hx
    refine ⟨v.cells c, h.word? hbuilt hpushes hload, ?_⟩
    rw [hstands.word? hbuilt hpops hstore, hwcells, List.map_reverse]
    refine congrArg some (received_reverse ?_ ?_ ?_ hc)
    · exact hnodup.map fun _ _ h => (Cell.var.inj h).2
    · rw [List.length_map, hcalling.takes]
    · rw [List.getElem?_map, hx, Option.map_some]

theorem Calling.returns {owner : Option FunctionDecl} {t : ReturnSite} {k : Nat}
    (h : program.StandsAt r image config frames v m) (hpc : m.pc = call.begins)
    (hok : m.Unfailing (call.steps + k)) (hdepth : image.depth (m.after call.steps) k = some 0)
    (ht : (owner, t) ∈ program.returns) {e : Machine} (he : e = m.after (call.steps + k))
    (hreturn : e.pc = t.begins (program.cellOf owner))
    (hfree : e.Unhindered config 8 e.stack.length) :
    e.Unfailing 8 ∧ call.Returns image (t.cell (program.cellOf owner)) m e ∧
      (t.value = none → image.word? e (t.cell (program.cellOf owner)) = some 0) := by
  have hformed := (hbuilt.parted config).formed ρ hcalling.mem
  have horders := orders_of_mem_returns ht
  have hload : (Opcode.lda, Target.cell (t.cell (program.cellOf owner))) ∈
    (Mark.giveBack (t.cell (program.cellOf owner)) (t.saved (program.cellOf owner))).orders := by
    simp [orders]
  obtain ⟨-, -, hlast⟩ := orders_call hformed hcalling.here
  have hstore : (Opcode.sta, Target.cell call.result) ∈ [(Opcode.bra, Target.place
      (.entry call.function.name)), (.pop, .none), (.sta, .cell call.result)] := by simp
  obtain ⟨-, hstack, frame, w, hword, hstands, -⟩ :=
    hcalling.activates hbuilt h hpc (.inl (hok.mono (Nat.le_add_right _ k)))
  -- the calls in between have all come back, and the frame of this call is the first one
  obtain ⟨upper, u, hupper, hu⟩ := hstands.depth hbuilt hok.after hdepth
  obtain rfl := List.length_eq_zero_iff.1 hupper
  rw [Machine.after_add, ← he] at hu
  rw [hu.stack_eq] at hfree
  obtain ⟨hends, hback, frames', z, hz, hzpc, hzstack, hresult⟩ := hu.returns hbuilt hcalling.mem
    hcalling.here (hu.pc_eq.symm.trans hreturn) horders
    (ReturnSite.cell_ne_saved (program.exists_cellOf_eq owner) t) hword hfree
  rw [hcalling.returnAddress_eq] at hback hzpc
  refine ⟨hends, ⟨hback, hz.pc_eq.trans hzpc, ?_, ?_⟩, ?_⟩
  · rw [hz.stack_eq, hzstack, h.stack_eq, hstack]
  · refine ⟨_, hu.word? hbuilt horders hload, ?_⟩
    rw [← hresult]
    exact hz.word? hbuilt hlast hstore
  · intro hnone
    have hzero : t.cell (program.cellOf owner) = .literal 0 := by
      rw [ReturnSite.cell, ReturnSite.emitted, hnone]
    rw [hu.word? hbuilt horders hload, hzero, hu.safe.literals]

end Calling
end Built

end Program

/-- In a compiled program, each `LDAPC` begins the call of a function at a site, and each `RET` is
the last word of a `return` or of the end of a function.

Let a call begin after any number of steps.  Unless there is a fault, which can only be due to
a limit, the run comes to the body of the function with the return address on top of the
stack, and the cells of parameters with different names hold the words of the arguments.
When a return begins for which no later call is open, the run comes back to the call.  Then
the stack is what it was before the call, and the cell of the call holds the value of the
return, which is zero if none is given. -/
theorem calls_come_back {source : String} {image : Image} (hbuild : build source = .ok image) :
    ∃ program, Program.parse source = .ok program ∧
      (∀ a, image.opcode? a = some .ldaPc → ∃ owner s callee, (owner, s) ∈ program.sites ∧
        s.operator = .call callee ∧ a = s.begins (program.cellOf owner)) ∧
      (∀ a, image.opcode? a = some .ret → ∃ owner t, (owner, t) ∈ program.returns ∧
        a = t.begins (program.cellOf owner) + 5) ∧
      ∀ owner s callee, (owner, s) ∈ program.sites → s.operator = .call callee →
        ∃ f ∈ program.declared, f.name = callee ∧ f.params.length = s.operands.length ∧
          ∃ call entry, call = s.call (program.cellOf owner) f ∧ call.Stands image entry ∧
            ∀ (inputs : List Word) (config : Config) (n : Nat) (m : Machine),
              m = (image.start inputs config).after n → m.pc = call.begins →
              (m.Unhindered config call.steps (call.room m) →
                m.Unfailing call.steps ∧ call.Enters image entry m (m.after call.steps)) ∧
              ∀ k owner' t e, m.Unfailing (call.steps + k) →
                image.depth (m.after call.steps) k = some 0 → (owner', t) ∈ program.returns →
                e = m.after (call.steps + k) → e.pc = t.begins (program.cellOf owner') →
                e.Unhindered config 8 e.stack.length →
                e.Unfailing 8 ∧ call.Returns image (t.cell (program.cellOf owner')) m e ∧
                  (t.value = none →
                    image.word? e (t.cell (program.cellOf owner')) = some 0) := by
  obtain ⟨program, r, hparse, -, hbuilt⟩ := Program.built_of_build hbuild
  refine ⟨program, hparse, ?_, ?_, ?_⟩
  · intro a ha
    exact Program.exists_site ((hbuilt.opcode?_eq_some_iff (by simp)).1 ha)
  · intro a ha
    exact Program.exists_return ((hbuilt.opcode?_eq_some_iff (by simp)).1 ha)
  · intro owner s callee hs hop
    obtain ⟨f, hf, hname, ρ, g, done, rest, hcalling⟩ := hbuilt.exists_calling hs hop
    refine ⟨f, hf, hname, ?_, _, g.base, rfl, hcalling.stands hbuilt, ?_⟩
    · exact hcalling.takes.trans (Expr.length_emitAll ..)
    · rintro inputs config n m rfl hpc
      obtain ⟨frames, v, hstands⟩ := Program.stands_after hbuilt inputs config n
      refine ⟨hcalling.enters hbuilt hstands hpc, ?_⟩
      intro k owner' t e hok hdepth ht he hreturn hfree
      exact hcalling.returns hbuilt hstands hpc hok hdepth ht he hreturn hfree

/-- The main program begins with the call of a function that gives back its second argument. -/
def secondOf : String :=
  "x = f(2, 7)\nfunction f(n, v)\nreturn v\nendfunction\n"

theorem calls_come_back_secondOf :
    ∃ image program s f call owner t, build secondOf = .ok image ∧
      Program.parse secondOf = .ok program ∧ (none, s) ∈ program.sites ∧
      s.operator = .call "f" ∧ f ∈ program.declared ∧ call = s.call (program.cellOf none) f ∧
      (owner, t) ∈ program.returns ∧ ∃ m b, m = image.start [] {} ∧ b = m.after 13 ∧
        m.pc = call.begins ∧ m.Unfailing 21 ∧ b.stack = [Word.ofAddress 8] ∧
        image.word? b (.var (some "f") "n") = some 2 ∧
        image.word? b (.var (some "f") "v") = some 7 ∧
        b.pc = t.begins (program.cellOf owner) ∧ (b.after 6).pc = 8 ∧ (b.after 8).stack = [] ∧
        image.word? (b.after 8) call.result = some 7 := by
  obtain ⟨image, hbuild⟩ : ∃ image, build secondOf = .ok image :=
    exists_image_of_buildable (by decide +kernel)
  obtain ⟨program, hparse, -, -, hcalls⟩ := calls_come_back hbuild
  have hchecks : (Program.parse secondOf).toOption.any (fun program =>
      (program.declared.all fun f => decide (f.name = "f") && decide (f.params = ["n", "v"])) &&
      (program.sites.any fun site => site.1.isNone && decide (site.2.operator = .call "f") &&
        decide (site.2.begins (program.cellOf none) = 0) &&
        decide ((site.2.emitted (program.cellOf none)).result = [.literal 2, .literal 7])) &&
      (program.returns.any fun site => decide (site.2.begins (program.cellOf site.1) = 18) &&
        decide (site.2.cell (program.cellOf site.1) = .var (some "f") "v")) &&
      program.code[13]?.any fun word => decide (word.place = some (.entry "f"))) = true := by
    decide +kernel
  simp only [hparse, Except.toOption, Option.any_some, List.all_eq_true, List.any_eq_true,
    Bool.and_eq_true, Option.isNone_iff_eq_none, Option.any_eq_true, decide_eq_true_eq] at hchecks
  obtain ⟨⟨⟨hdeclared, ⟨_, s⟩, hs, ⟨⟨rfl, hop⟩, hbegins⟩, hargs⟩, ⟨owner, t⟩, ht, hreturn, hcell⟩,
    hplace⟩ := hchecks
  obtain ⟨f, hf, -, -, call, entry, hcall, hstands, hruns⟩ := hcalls none s "f" hs hop
  obtain ⟨hname, hparams⟩ := hdeclared f hf
  have hcells : call.args = [.literal 2, .literal 7] := by rw [hcall, ← hargs]; rfl
  have hfirst : call.begins = 0 := by rw [hcall, ← hbegins]; rfl
  have hfunction : call.function = f := by rw [hcall]; rfl
  have hsteps : call.steps = 13 := by rw [FunctionCall.steps, hcells]; rfl
  have hback : call.back = 8 := by rw [FunctionCall.back, hfirst, hcells]; rfl
  obtain ⟨program', r, hparse', -, hbuilt⟩ := Program.built_of_build hbuild
  obtain rfl : program = program' := Except.ok.inj (hparse.symm.trans hparse')
  have hentry : entry = 13 := by
    have hfound := hstands.entry
    rw [hfunction, hname, hbuilt.assembled.place hplace] at hfound
    exact (Option.some.inj hfound).symm
  have hstart := Program.standsAt_start hbuilt [] {}
  have hliteral : ∀ value ∈ [(2 : Word), 7],
      image.word? (image.start [] {}) (.literal value) = some value := by
    intro value hvalue
    apply hbuilt.word?_literal (Program.Stands.intact ⟨_, _, hstart⟩ hbuilt) (hbuilt.laid_own hs)
    rw [Site.own, hop, hargs]
    rcases List.mem_pair.1 hvalue with rfl | rfl <;>
      simp [Operator.marks, Mark.cells, orders, pushes]
  have hempty : (image.start [] {}).stack = [] := hstart.stack_eq
  have hpc : (image.start [] {}).pc = call.begins := hstart.pc_eq.trans hfirst.symm
  obtain ⟨henters, hreturns⟩ := hruns [] {} 0 (image.start [] {}) rfl hpc
  rw [hsteps] at henters hreturns
  obtain ⟨hok, hbody, hstack, hwords⟩ :=
    henters (.inr ⟨rfl, by rw [FunctionCall.room, hempty, hcells]; decide⟩)
  rw [hentry, hcells] at hbody
  rw [hback, hempty] at hstack
  rw [hfunction, hname, hparams, hcells] at hwords
  obtain ⟨first, htwo, hn⟩ := hwords (by decide) 0 "n" (.literal 2) rfl rfl
  obtain ⟨second, hseven, hv⟩ := hwords (by decide) 1 "v" (.literal 7) rfl rfl
  obtain rfl : first = 2 := Option.some.inj (htwo.symm.trans (hliteral 2 (by simp)))
  obtain rfl : second = 7 := Option.some.inj (hseven.symm.trans (hliteral 7 (by simp)))
  obtain ⟨hends, ⟨hcomes, -, hleft, word, hword, hresult⟩, -⟩ :=
    hreturns 0 owner t _ hok rfl ht rfl (hbody.trans hreturn.symm)
      (.inr ⟨rfl, by rw [Nat.add_zero, hstack]; decide⟩)
  rw [hcell] at hword
  obtain rfl : word = 7 := Option.some.inj (hword.symm.trans hv)
  exact ⟨image, program, s, f, call, owner, t, hbuild, hparse, hs, hop, hf, hcall, ht,
    image.start [] {}, _, rfl, rfl, hpc, hok.append hends, hstack, hn, hv, hbody.trans hreturn.symm,
    hcomes.trans hback, hleft.trans hempty, hresult⟩

end LittleMan
