import LittleMan.Proofs.Blueprint.Sites
import LittleMan.Proofs.Frames.Programs
import LittleMan.Proofs.Frames.Spans

/-!
# The sites of a program

Each region of a program is the code of the main statements or of the body of a function.
Its temporaries are its own, and so are its local variables.  This gives the spans of the
operands of a program, and says which functions store into which cells.
-/

namespace LittleMan

open Mark

/-! ## Spans of operands -/

section Cuts

variable {vars : String → Cell} {s : Site} {operand : Site.Operand} {first : List Mark}
  {k₁ : Counters}

/-- The stretch of a region from the end of an operand on. -/
def Site.span (vars : String → Cell) (s : Site) (ρ : Region) (before first later after : List Mark) :
    Span where
  region := ρ
  before
  first
  later
  own := s.own vars
  after
  reach := s.operator.reach (s.emitted vars).result (s.emitted vars).counters.temporaries

theorem Site.Operand.Cuts.marks_eq
    (h : operand.Cuts vars s.counters s.base (s.emitted vars) first k₁) :
    s.marks vars = first ++ (Expr.emitAll vars operand.later k₁).marks ++ s.own vars := by
  rw [Site.marks, h.marks]

theorem Site.Operand.Cuts.formed {regions : List Region} {ρ : Region} {before after : List Mark}
    (h : operand.Cuts vars s.counters s.base (s.emitted vars) first k₁)
    (htakes : s.operator.Takes s.operands) (mem : ρ ∈ regions)
    (hbody : ρ.body = before ++ s.marks vars ++ after)
    (hapart : Apart s.counters (s.finish vars) (before ++ after)) :
    (s.span vars ρ before first (Expr.emitAll vars operand.later k₁).marks after).Formed regions := by
  have hown := @Site.own_of_takes vars s htakes
  refine ⟨mem, ?_, ?_, ?_, hown.long, hown.inside, hown.jumps, hown.calls⟩
  · simp [Site.span, hbody, h.marks_eq]
  · intro l hl hplace
    refine hapart l hl (Site.inner_of_mem_places htakes ?_)
    rw [h.marks_eq, List.append_assoc, places_append]
    exact List.mem_append_right _ hplace
  · intro l hl
    exact (h.fits.branches l hl).resolve_right List.not_mem_nil

/-- The code after an operand does not store into its cell. -/
theorem Site.Operand.Cuts.not_mem_stores
    (h : operand.Cuts vars s.counters s.base (s.emitted vars) first k₁)
    (htakes : s.operator.Takes s.operands) (hvars : ∀ x, ∃ stem, vars x = .var stem x) :
    operand.cell ∉ stores ((Expr.emitAll vars operand.later k₁).marks ++ s.own vars) := by
  intro hmem
  have hown := @Site.own_of_takes vars s htakes
  obtain ⟨callees, hfresh⟩ := hown.fresh
  have hlater := @Expr.emitAll_fresh vars operand.later k₁
  -- whatever is stored is a temporary that was handed out later
  have hbetween : operand.cell.Between k₁ (s.finish vars) := by
    rw [h.counters] at hfresh
    rw [stores_append, List.mem_append] at hmem
    rcases hmem with hmem | hmem
    · exact (hlater.stores _ hmem).mono (.refl _) hfresh.before
    · exact (hfresh.stores _ hmem).mono hlater.before (.refl _)
  rcases h.value with ⟨value, hcell⟩ | ⟨x, hcell⟩ | ⟨-, hcell⟩
  · rw [hcell] at hbetween
    exact hbetween
  · obtain ⟨stem, hstem⟩ := hvars x
    rw [hcell, hstem] at hbetween
    exact hbetween
  · exact hcell.not_between hbetween

theorem Site.exists_operand {vars : String → Cell} {es : List Expr} {k : Counters} {p : Nat}
    {c : Cell} (hc : c ∈ (Expr.emitAll vars es k).result) :
    ∃ operand ∈ Site.operandsOf vars es k p, operand.cell = c := by
  induction es generalizing k p with
  | nil => cases hc
  | cons e rest ih =>
      rcases List.mem_cons.1 hc with rfl | hc
      · exact ⟨_, List.mem_cons_self, rfl⟩
      · obtain ⟨operand, hoperand, hcell⟩ := ih hc
        exact ⟨operand, List.mem_cons_of_mem _ hoperand, hcell⟩

/-- The code of an operator does not store into its operands. -/
theorem Site.not_mem_stores_own (htakes : s.operator.Takes s.operands)
    (hvars : ∀ x, ∃ stem, vars x = .var stem x) {c : Cell} (hc : c ∈ (s.emitted vars).result) :
    c ∉ stores (s.own vars) := by
  obtain ⟨operand, hoperand, rfl⟩ := Site.exists_operand hc (p := s.base)
  obtain ⟨first, k₁, hcuts⟩ := Site.exists_cuts hoperand
  intro hmem
  apply hcuts.not_mem_stores htakes hvars
  rw [stores_append]
  exact List.mem_append_right _ hmem

end Cuts

/-! ## Slots -/

/-- The main program or a function, the address at which its code begins, and the counters
there. -/
structure Slot where
  owner : Option FunctionDecl
  base : Nat
  counters : Counters

namespace Program

/-- The statements of the main program or of a function. -/
def bodyOf (program : Program) : Option FunctionDecl → List Stmt
  | none => program.main
  | some f => f.body

/-- The cells that names mean in the main program or in a function. -/
def cellOf (program : Program) (owner : Option FunctionDecl) : String → Cell :=
  variableCell program.globals (owner.map fun f => (f.name, f.params))

def emitSlot (program : Program) (slot : Slot) : Emitted Unit :=
  Stmt.emitBlock (program.cellOf slot.owner) none (program.bodyOf slot.owner) slot.counters

def lastMark (program : Program) (slot : Slot) : Mark :=
  match slot.owner with
  | none => bare .hlt
  | some _ => emitReturn (.literal 0) (program.emitSlot slot).counters.temporaries

def slotEnd (program : Program) (slot : Slot) : Counters :=
  match slot.owner with
  | none => (program.emitSlot slot).counters
  | some _ => (program.emitSlot slot).counters.taking 1

def slotRegion (program : Program) (slot : Slot) : Region where
  function := slot.owner.map fun f => (f.name, f.params.reverse.map (.var (some f.name)))
  base := slot.base
  body := (program.emitSlot slot).marks ++ [program.lastMark slot]

def functionSlots (globals : List String) : List FunctionDecl → Nat → Counters → List Slot
  | [], _, _ => []
  | f :: rest, base, k =>
      let x := emitFunction globals f.name f.params f.body k
      ⟨some f, base, k⟩ :: functionSlots globals rest (base + width x.marks) x.counters

/-- The slots of a program in the order of its code. -/
def slots (program : Program) : List Slot :=
  ⟨none, 0, {}⟩ :: functionSlots program.globals program.declared
    (width (program.emitMain.marks ++ [bare .hlt])) program.emitMain.counters

/-- The sites of a program, with the functions they are in. -/
def sites (program : Program) : List (Option FunctionDecl × Site) :=
  program.slots.flatMap fun slot =>
    (Stmt.sitesInBlock (program.cellOf slot.owner) none (program.bodyOf slot.owner) slot.counters
      (program.slotRegion slot).start).map (slot.owner, ·)

variable {program : Program}

theorem functionRegions_eq (program : Program) (fs : List FunctionDecl) (base : Nat)
    (k : Counters) :
    functionRegions program.globals fs base k =
      (functionSlots program.globals fs base k).map program.slotRegion := by
  induction fs generalizing base k with
  | nil => rfl
  | cons f rest ih => exact congrArg (List.cons _) (ih _ _)

theorem regions_eq (program : Program) :
    program.regions = program.slots.map program.slotRegion :=
  congrArg (List.cons _) (functionRegions_eq program _ _ _)

/-- A name means a variable of the main program, or one of the function it stands in. -/
theorem cellOf_cases (program : Program) (owner : Option FunctionDecl) (x : String) :
    (program.cellOf owner x = .var none x ∧
        ∀ f, owner = some f → x ∉ f.params ∧ x ∈ program.globals) ∨
      ∃ f, owner = some f ∧ program.cellOf owner x = .var (some f.name) x := by
  cases owner with
  | none => exact .inl ⟨rfl, by simp⟩
  | some f =>
      by_cases hparam : x ∈ f.params
      · exact .inr ⟨f, rfl, by simp [cellOf, variableCell, hparam]⟩
      by_cases hglobal : x ∈ program.globals
      · refine .inl ⟨by simp [cellOf, variableCell, hparam, hglobal], fun g hg => ?_⟩
        obtain rfl := Option.some.inj hg
        exact ⟨hparam, hglobal⟩
      · exact .inr ⟨f, rfl, by simp [cellOf, variableCell, hparam, hglobal]⟩

theorem exists_cellOf_eq (program : Program) (owner : Option FunctionDecl) (x : String) :
    ∃ stem, program.cellOf owner x = .var stem x := by
  rcases program.cellOf_cases owner x with ⟨h, -⟩ | ⟨f, -, h⟩ <;> exact ⟨_, h⟩

/-! ## Effects of a region -/

theorem slotRegion_name (slot : Slot) :
    (program.slotRegion slot).name = slot.owner.map FunctionDecl.name := by
  cases h : slot.owner <;> simp [slotRegion, Region.name, h]

theorem emitSlot_assigns (slot : Slot) :
    Assigns (program.cellOf slot.owner) (Stmt.assignedInBlock (program.bodyOf slot.owner))
      (Stmt.calleesInBlock (program.bodyOf slot.owner)) slot.counters
      (program.emitSlot slot).counters (program.emitSlot slot).marks :=
  Stmt.emitBlock_assigns none _ _

theorem before_slotEnd (slot : Slot) :
    (program.emitSlot slot).counters.Before (program.slotEnd slot) := by
  unfold slotEnd
  split
  · exact .refl _
  · exact Counters.before_taking _ 1

theorem lastMark_assigns (slot : Slot) :
    Assigns (program.cellOf slot.owner) [] [] (program.emitSlot slot).counters
      (program.slotEnd slot) [program.lastMark slot] := by
  unfold lastMark slotEnd
  split
  · exact .quiet _ rfl rfl
  · exact (Fresh.taking (by simp [emitReturn]) (List.nil_subset _)).assigns

/-- The code of a region stores into its temporaries, its parameters and the variables that it
assigns to. -/
theorem stores_slotRegion {slot : Slot} {c : Cell} (hc : c ∈ (program.slotRegion slot).stores) :
    c.Between slot.counters (program.slotEnd slot) ∨
      (∃ f x, slot.owner = some f ∧ c = .var (some f.name) x) ∨
      ∃ x ∈ Stmt.assignedInBlock (program.bodyOf slot.owner), c = program.cellOf slot.owner x := by
  have hbody := (program.emitSlot_assigns slot).append
    ((program.lastMark_assigns slot).widen (List.nil_subset _) (List.nil_subset _))
  rw [Region.stores, stores_append, List.mem_append] at hc
  rcases hc with hc | hc
  · cases howner : slot.owner with
    | none => simp [slotRegion, Region.header, howner] at hc
    | some f =>
        simp only [slotRegion, Region.header, howner, Option.map_some, Option.elim_some,
          stores_place, stores_receive, stores_nil, List.append_nil, List.mem_map] at hc
        obtain ⟨x, -, rfl⟩ := hc
        exact .inr (.inl ⟨f, x, rfl, rfl⟩)
  · exact (hbody.stores c hc).imp_right .inr

theorem called_slotRegion (slot : Slot) :
    called (program.slotRegion slot).body ⊆ Stmt.calleesInBlock (program.bodyOf slot.owner) :=
  ((program.emitSlot_assigns slot).append
    ((program.lastMark_assigns slot).widen (List.nil_subset _) (List.nil_subset _))).calls

/-! ## Regions apart -/

instance : Std.Symm Region.Apart where
  symm _ _ h := ⟨h.addresses.symm, fun n hσ hρ => h.temporaries n hρ hσ⟩

theorem between_of_temporary {slot : Slot} {n : Nat}
    (h : .temporary n ∈ (program.slotRegion slot).stores) :
    (Cell.temporary n).Between slot.counters (program.slotEnd slot) := by
  rcases stores_slotRegion h with h | ⟨f, x, -, h⟩ | ⟨x, -, h⟩
  · exact h
  · cases h
  · obtain ⟨owner, hcell⟩ := program.exists_cellOf_eq slot.owner x
    cases h.trans hcell

theorem slotRegion_apart {slot slot' : Slot}
    (hbase : (program.slotRegion slot).finish ≤ slot'.base)
    (hcounters : (program.slotEnd slot).Before slot'.counters) :
    (program.slotRegion slot).Apart (program.slotRegion slot') where
  addresses := .inl hbase
  temporaries _ h h' :=
    ((between_of_temporary h).mono (.refl _) hcounters).not_between (between_of_temporary h')

theorem slot_before (slot : Slot) : slot.counters.Before (program.slotEnd slot) :=
  (program.emitSlot_assigns slot).before.trans (program.before_slotEnd slot)

theorem finish_functionSlot (program : Program) (f : FunctionDecl) (base : Nat) (k : Counters) :
    (program.slotRegion ⟨some f, base, k⟩).finish =
      base + width (emitFunction program.globals f.name f.params f.body k).marks := by
  rw [← functionRegion_marks program.globals f base k, width_append, ← Nat.add_assoc]
  rfl

theorem bounds_of_mem_functionSlots {fs : List FunctionDecl} {base : Nat} {k : Counters}
    {slot : Slot} (h : slot ∈ functionSlots program.globals fs base k) :
    base ≤ slot.base ∧ k.Before slot.counters ∧ ∃ f ∈ fs, slot.owner = some f := by
  induction fs generalizing base k with
  | nil => cases h
  | cons f rest ih =>
      rcases List.mem_cons.1 h with rfl | h
      · exact ⟨Nat.le_refl _, .refl _, f, List.mem_cons_self, rfl⟩
      · obtain ⟨hbase, hcounters, g, hg, howner⟩ := ih h
        have hbefore := @slot_before program ⟨some f, base, k⟩
        exact ⟨(Nat.le_add_right _ _).trans hbase, hbefore.trans hcounters, g,
          List.mem_cons_of_mem _ hg, howner⟩

theorem functionSlots_apart (program : Program) (fs : List FunctionDecl) (base : Nat)
    (k : Counters) :
    ((functionSlots program.globals fs base k).map program.slotRegion).Pairwise Region.Apart := by
  induction fs generalizing base k with
  | nil => exact .nil
  | cons f rest ih =>
      refine .cons ?_ (ih _ _)
      intro σ hσ
      obtain ⟨slot, hslot, rfl⟩ := List.mem_map.1 hσ
      obtain ⟨hbase, hcounters, -⟩ := bounds_of_mem_functionSlots hslot
      exact slotRegion_apart ((finish_functionSlot program f base k).trans_le hbase) hcounters

/-- Two regions of a program share neither an address nor a temporary. -/
theorem regions_apart (program : Program) :
    ∀ ρ ∈ program.regions, ∀ σ ∈ program.regions, ρ ≠ σ → ρ.Apart σ := by
  have hpairwise : program.regions.Pairwise Region.Apart := by
    rw [regions_eq]
    refine .cons ?_ (functionSlots_apart program _ _ _)
    intro σ hσ
    obtain ⟨slot, hslot, rfl⟩ := List.mem_map.1 hσ
    obtain ⟨hbase, hcounters, -⟩ := bounds_of_mem_functionSlots hslot
    exact slotRegion_apart (le_trans (Nat.le_of_eq (Nat.zero_add _)) hbase) hcounters
  intro ρ hρ σ hσ hne
  exact hpairwise.forall hρ hσ hne

/-! ## Operands of a program -/

/-- From the end of an operand to the end of the words in which it is read, the code is a span.
It does not store into the cell of the operand. -/
structure Spans (program : Program) (slot : Slot) (s : Site) (operand : Site.Operand) (σ : Span) :
    Prop where
  region : σ.region = program.slotRegion slot
  formed : σ.Formed program.regions
  begins : σ.begins = operand.ends
  turns : σ.turns = s.begins (program.cellOf slot.owner)
  ends : σ.ends = s.ends (program.cellOf slot.owner)
  calls : called σ.later ⊆ Expr.calleesAll operand.later
  reads : ∃ op ∈ [Opcode.lda, .add, .sub],
    (op, .cell operand.cell) ∈ (σ.own.flatMap orders).take σ.reach
  kept : operand.cell ∉ stores (σ.later ++ σ.own)
  value : (∃ value, operand.cell = .literal value) ∨
    (∃ x, operand.cell = program.cellOf slot.owner x) ∨ operand.cell ∈ σ.region.stores

/-- A site of a program is in the code of a slot. -/
theorem in_of_mem_sites {owner : Option FunctionDecl} {s : Site} (hs : (owner, s) ∈ program.sites) :
    ∃ slot ∈ program.slots, slot.owner = owner ∧
      s.In (program.cellOf owner) slot.counters (program.emitSlot slot).counters
        (program.slotRegion slot).start (program.emitSlot slot).marks := by
  obtain ⟨slot, hslot, hmem⟩ := List.mem_flatMap.1 hs
  obtain ⟨s, hsite, heq⟩ := List.mem_map.1 hmem
  obtain ⟨rfl, rfl⟩ := Prod.mk.inj heq
  exact ⟨slot, hslot, rfl,
    Stmt.in_of_mem_sitesInBlock (variableCell_not_literal program.globals _) none _ _ _ hsite⟩

theorem slotRegion_mem {slot : Slot} (hslot : slot ∈ program.slots) :
    program.slotRegion slot ∈ program.regions := by
  rw [regions_eq]
  exact List.mem_map_of_mem hslot

/-- The code of an operator stands where its site says. -/
theorem Built.laid_own {r : Register} {image : Image} (hbuilt : program.Built r image)
    {owner : Option FunctionDecl} {s : Site} (hs : (owner, s) ∈ program.sites) :
    Laid program.code (s.begins (program.cellOf owner)) (s.own (program.cellOf owner)) := by
  obtain ⟨slot, hslot, rfl, hin⟩ := in_of_mem_sites hs
  obtain ⟨before, after, hmarks, hbase, -⟩ := hin.split
  have hformed := (hbuilt.parted {}).formed _ (slotRegion_mem hslot)
  have hbody : (program.slotRegion slot).body =
      (before ++ (s.emitted (program.cellOf slot.owner)).marks) ++ s.own (program.cellOf slot.owner) ++
        (after ++ [program.lastMark slot]) := by
    change (program.emitSlot slot).marks ++ _ = _
    rw [hmarks, Site.marks]
    simp
  have hlaid := hformed.laid_at hbody
  rw [width_append, ← Nat.add_assoc, ← hbase] at hlaid
  exact hlaid

theorem exists_spans {owner : Option FunctionDecl} {s : Site} (hs : (owner, s) ∈ program.sites)
    {operand : Site.Operand} (hoperand : operand ∈ s.located (program.cellOf owner)) :
    ∃ slot ∈ program.slots, slot.owner = owner ∧ ∃ σ, program.Spans slot s operand σ := by
  obtain ⟨slot, hslot, rfl, hin⟩ := in_of_mem_sites hs
  obtain ⟨before, after, hmarks, hbase, hapart⟩ := hin.split
  obtain ⟨first, k₁, hcuts⟩ := Site.exists_cuts hoperand
  have hregion := slotRegion_mem hslot
  have hbody : (program.slotRegion slot).body =
      before ++ s.marks (program.cellOf slot.owner) ++ (after ++ [program.lastMark slot]) := by
    simp only [← List.append_assoc]
    exact congrArg (· ++ [program.lastMark slot]) hmarks
  have hlast : Apart s.counters (s.finish (program.cellOf slot.owner))
      [program.lastMark slot] := by
    unfold lastMark
    split <;> exact apart_of_branches rfl
  have hall : Apart s.counters (s.finish (program.cellOf slot.owner))
      (before ++ (after ++ [program.lastMark slot])) := by
    simp only [apart_append] at hapart ⊢
    exact ⟨hapart.1, hapart.2, hlast⟩
  have hbegins : (program.slotRegion slot).start + width (before ++ first) = operand.ends := by
    rw [hcuts.ends, hbase, width_append, Nat.add_assoc]
  have hturns : operand.ends + width (Expr.emitAll (program.cellOf slot.owner) operand.later k₁).marks =
      s.begins (program.cellOf slot.owner) := by
    rw [Site.begins, Site.emitted, hcuts.marks, width_append, hcuts.ends, Nat.add_assoc]
  refine ⟨slot, hslot, rfl, s.span (program.cellOf slot.owner) (program.slotRegion slot) before first
    (Expr.emitAll (program.cellOf slot.owner) operand.later k₁).marks
    (after ++ [program.lastMark slot]), ?_⟩
  exact {
    region := rfl
    formed := hcuts.formed hin.takes hregion hbody hall
    begins := hbegins
    turns := (congrArg (· + _) hbegins).trans hturns
    ends := congrArg (· + _) ((congrArg (· + _) hbegins).trans hturns)
    calls := (Expr.emitAll_fresh operand.later k₁).calls
    reads := (Site.own_of_takes hin.takes).reads _ hcuts.cell
    kept := hcuts.not_mem_stores hin.takes (program.exists_cellOf_eq slot.owner)
    value := by
      refine hcuts.value.imp_right fun hvalue => hvalue.imp_right ?_
      rintro ⟨hmem, -⟩
      change _ ∈ stores (_ ++ (program.slotRegion slot).body)
      simp [hbody, hcuts.marks_eq, hmem] }

end Program
end LittleMan
