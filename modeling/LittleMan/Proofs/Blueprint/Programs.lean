import LittleMan.Proofs.Blueprint.Statements

/-!
# The marks of functions and programs

Functions are entered into the draft before any code is written: a function gets a
section of the register, which holds its parameters, and the place of its entry.  A
compiled program is its blueprint spelled out: the words of the sheet are the code
of the program followed by the cells of a register.
-/

namespace LittleMan

/-! ## Sections -/

namespace Register

/-- Opens a section for a function. -/
def openSection (r : Register) (function : String) : Register :=
  { r with sections := r.sections ++ [(some function, [])] }

def addParams (r : Register) (s : Nat) (params : List String) : Register :=
  params.foldl (fun r param => r.add s (.var param)) r

theorem items_openSection (r : Register) (function : String) (s : Nat) :
    (r.openSection function).items s = r.items s := by
  unfold items Register.openSection
  rw [List.getElem?_append]
  split
  · rfl
  · rename_i hs
    rw [List.getElem?_eq_none (by omega : r.sections.length ≤ s)]
    cases s - r.sections.length <;> simp

theorem Sound.openSection {r : Register} (h : r.Sound) {function : String}
    (hfresh : some function ∉ r.sections.map Prod.fst) : (r.openSection function).Sound where
  main := by
    unfold Register.openSection
    rw [List.getElem?_append_left h.length_pos]
    exact h.main
  functions := by
    intro s part hpart
    unfold Register.openSection at hpart
    rw [List.getElem?_append] at hpart
    split at hpart
    · exact h.functions s part hpart
    · obtain rfl : part = (some function, []) := by
        have hmem := List.mem_of_getElem? hpart
        simpa using hmem
      rfl
  owners := by
    simp only [Register.openSection, List.map_append, List.map_cons, List.map_nil]
    exact h.owners.append (by simp) (by simpa using hfresh)
  nodup := by
    intro s
    rw [items_openSection]
    exact h.nodup s
  handed := by
    intro s
    rw [items_openSection]
    exact h.handed s
  literals := by
    intro s v
    rw [items_openSection]
    exact h.literals s v
  temporaries := by
    intro s s' n
    rw [items_openSection, items_openSection]
    exact h.temporaries s s' n

theorem scopes_openSection (r : Register) (function : String) :
    r.scopes.add ("func_" ++ function) Scopes.root = (r.sections.length, (r.openSection function).scopes) := by
  simp [Scopes.add, scopes, Register.openSection, scope, scopeStem]

theorem owners_addParams (r : Register) (s : Nat) (params : List String) :
    (r.addParams s params).sections.map Prod.fst = r.sections.map Prod.fst := by
  induction params generalizing r with
  | nil => rfl
  | cons param rest ih => simpa [addParams] using ih (r.add s (.var param))

theorem counters_addParams (r : Register) (s : Nat) (params : List String) :
    (r.addParams s params).counters = r.counters := by
  induction params generalizing r with
  | nil => rfl
  | cons param rest ih => simpa [addParams] using ih (r.add s (.var param))

theorem mem_items_addParams {r : Register} {s : Nat} (hs : s < r.sections.length)
    {params : List String} {item : Item} {i : Nat} :
    item ∈ (r.addParams s params).items i ↔
      item ∈ r.items i ∨ (i = s ∧ ∃ param ∈ params, item = .var param) := by
  induction params generalizing r with
  | nil => simp [addParams]
  | cons param rest ih =>
      have hstep := ih (r := r.add s (.var param)) (by simpa using hs)
      rw [mem_items_add hs] at hstep
      simp only [addParams, List.foldl_cons] at hstep ⊢
      rw [hstep]
      simp only [List.mem_cons, exists_eq_or_imp]
      tauto

theorem Sound.addParams {r : Register} (h : r.Sound) {s : Nat} (hs : s < r.sections.length)
    (params : List String) : (r.addParams s params).Sound := by
  induction params generalizing r with
  | nil => exact h
  | cons param rest ih =>
      exact ih (h.add hs (by simp [Counters.Handed]) (by simp) (by simp)) (by simpa using hs)

theorem scopes_addParams {r : Register} {s : Nat} (hs : s < r.sections.length)
    (params : List String) :
    Lowering.declareParams s params r.scopes = (r.addParams s params).scopes := by
  induction params generalizing r with
  | nil => rfl
  | cons param rest ih =>
      have hadd : (r.scopes.declareLocal s param).2 = (r.add s (.var param)).scopes :=
        scopes_add hs (.var param) rfl
      rw [Lowering.declareParams, hadd, ih (by simpa using hs)]
      rfl

end Register

/-! ## Functions entered -/

/-- A declared function. -/
structure FunctionDecl where
  name : String
  params : List String
  body : List Stmt

/-- The functions that are declared in a list of statements. -/
def functionsOf : List Stmt → List FunctionDecl
  | .function name params body :: rest => ⟨name, params, body⟩ :: functionsOf rest
  | _ :: rest => functionsOf rest
  | [] => []

namespace Lowering

def routineOf (i : Nat) (f : FunctionDecl) : String × Routine :=
  (f.name, { params := f.params, scope := i + 1, start := (Place.entry f.name).label })

/-- The functions `fs` have been entered into the draft `d₀`, and nothing else has been
done to it. -/
structure Entered (d₀ : Draft) (fs : List FunctionDecl) (d : Draft) (r : Register) : Prop where
  rest : d = { d₀ with scopes := d.scopes, routines := d.routines }
  scopes : d.scopes = r.scopes
  sound : r.Sound
  counters : r.counters = {}
  owners : r.sections.map Prod.fst = none :: fs.map fun f => some f.name
  vars : ∀ s x, .var x ∈ r.items s ↔ ∃ i f, s = i + 1 ∧ fs[i]? = some f ∧ x ∈ f.params
  functions : ∀ s name, .function name ∈ r.items s → name ∈ fs.map FunctionDecl.name
  literals : ∀ s value, .literal value ∉ r.items s
  routines : d.routines = fs.mapIdx routineOf
  distinct : (fs.map FunctionDecl.name).Nodup
  builtins : ∀ f ∈ fs, f.name ∉ builtins

theorem entered_nil {d : Draft} (hscopes : d.scopes = {}) (hroutines : d.routines = []) :
    Entered d [] d {} where
  rest := rfl
  scopes := hscopes
  sound := Register.sound_empty
  counters := rfl
  owners := rfl
  vars := by
    intro s x
    cases s <;> simp [Register.items]
  functions := by
    intro s name
    cases s <;> simp [Register.items]
  literals := by
    intro s value
    cases s <;> simp [Register.items]
  routines := by simpa using hroutines
  distinct := by simp
  builtins := by simp

theorem exists_of_lookup {fs : List FunctionDecl} {name : String} {routine : Routine}
    (h : (fs.mapIdx routineOf).lookup name = some routine) :
    ∃ i f, fs[i]? = some f ∧ f.name = name ∧ routine = (routineOf i f).2 := by
  obtain ⟨before, after, heq, -⟩ := List.lookup_eq_some_iff.1 h
  have hget : (fs.mapIdx routineOf)[before.length]? = some (name, routine) := by
    rw [heq]
    simp
  rw [List.getElem?_mapIdx, Option.map_eq_some_iff] at hget
  obtain ⟨f, hf, hroutine⟩ := hget
  obtain ⟨rfl, rfl⟩ := Prod.mk.inj hroutine
  exact ⟨before.length, f, hf, rfl, rfl⟩

theorem lookup_eq_none_iff {fs : List FunctionDecl} {name : String} :
    (fs.mapIdx routineOf).lookup name = none ↔ name ∉ fs.map FunctionDecl.name := by
  have hkeys : (fs.mapIdx routineOf).map Prod.fst = fs.map FunctionDecl.name := by
    apply List.ext_getElem?
    intro i
    simp only [List.getElem?_map, List.getElem?_mapIdx]
    cases fs[i]? <;> rfl
  rw [List.lookup_eq_none_iff, ← hkeys]
  generalize fs.mapIdx routineOf = routines
  constructor
  · intro hall hmem
    obtain ⟨entry, hentry, rfl⟩ := List.mem_map.1 hmem
    simpa using hall entry hentry
  · intro hnot entry hentry
    have hne : name ≠ entry.1 := fun heq => hnot (heq ▸ List.mem_map_of_mem hentry)
    simpa using hne

theorem lookup_eq_some {fs : List FunctionDecl} (hdistinct : (fs.map FunctionDecl.name).Nodup)
    {i : Nat} {f : FunctionDecl} (hf : fs[i]? = some f) :
    (fs.mapIdx routineOf).lookup f.name = some (routineOf i f).2 := by
  have hmem : f.name ∈ fs.map FunctionDecl.name := List.mem_map_of_mem (List.mem_of_getElem? hf)
  cases hlookup : (fs.mapIdx routineOf).lookup f.name with
  | none => exact absurd hmem (lookup_eq_none_iff.1 hlookup)
  | some routine =>
      obtain ⟨j, g, hj, hname, rfl⟩ := exists_of_lookup hlookup
      have hi : (fs.map FunctionDecl.name)[i]? = some f.name := by simp [hf]
      have hj' : (fs.map FunctionDecl.name)[j]? = some f.name := by simp [hj, hname]
      obtain ⟨hlt, hget⟩ := List.getElem?_eq_some_iff.1 hi
      obtain ⟨hlt', hget'⟩ := List.getElem?_eq_some_iff.1 hj'
      obtain rfl : i = j := (hdistinct.getElem_inj_iff).1 (hget.trans hget'.symm)
      rw [hf] at hj
      cases hj
      rfl

theorem Entered.step {d₀ : Draft} {fs : List FunctionDecl} {d d' : Draft} {r : Register}
    (h : Entered d₀ fs d r) (f : FunctionDecl)
    (hok : enterRoutine f.name f.params d = .ok ((), d')) :
    ∃ r', Entered d₀ (fs ++ [f]) d' r' := by
  obtain ⟨name, params, body⟩ := f
  dsimp only at hok
  by_cases hbuiltin : name ∈ Lowering.builtins
  · simp [enterRoutine, hbuiltin] at hok
  cases hlookup : d.routines.lookup name with
  | some routine => simp [enterRoutine, hlookup] at hok
  | none =>
      have hname : name ∉ fs.map FunctionDecl.name := lookup_eq_none_iff.1 (h.routines ▸ hlookup)
      have hitem : Item.function name ∉ r.items 0 := fun hmem => hname (h.functions 0 name hmem)
      have hintern : d.scopes.intern Scopes.root .function name 0 =
          ((Place.entry name).label, (r.add 0 (.function name)).scopes) := by
        rw [h.scopes]
        have hlabel := Register.label?_name h.sound h.sound.length_pos (.function name)
        simp only [hitem, if_false] at hlabel
        unfold Scopes.intern
        simp only [Scopes.home, Scopes.symbolName, Scopes.root]
        rw [show "func_" ++ name = (Item.function name).name from rfl, hlabel]
        exact Prod.ext rfl (Register.scopes_add h.sound.length_pos (.function name) rfl)
      set r₁ := r.add 0 (.function name) with hr₁
      have hlength : r.sections.length = fs.length + 1 := by
        simpa using congrArg List.length h.owners
      have hlength₁ : r₁.sections.length = fs.length + 1 := by simpa [hr₁] using hlength
      have hscopes : declareParams (fs.length + 1) params (r₁.openSection name).scopes =
          ((r₁.openSection name).addParams (fs.length + 1) params).scopes :=
        Register.scopes_addParams (by simp [Register.openSection, hlength₁]) params
      obtain rfl : { d with
          scopes := ((r₁.openSection name).addParams (fs.length + 1) params).scopes
          routines := d.routines ++ [routineOf fs.length ⟨name, params, body⟩] } = d' := by
        have hadd := Register.scopes_openSection r₁ name
        rw [hlength₁] at hadd
        simpa [enterRoutine, hbuiltin, hlookup, hintern, hadd, hscopes, routineOf] using hok
      refine ⟨(r₁.openSection name).addParams (fs.length + 1) params, ?_⟩
      have hpos := h.sound.length_pos
      have hopen : fs.length + 1 < (r₁.openSection name).sections.length := by
        simp [Register.openSection, hlength₁]
      have howners : r₁.sections.map Prod.fst = none :: fs.map fun f => some f.name := by
        rw [hr₁, Register.owners_add, h.owners]
      have hfresh : some name ∉ r₁.sections.map Prod.fst := by
        rw [howners]
        simpa using hname
      have hsound₁ : r₁.Sound :=
        h.sound.add hpos (by simp [Counters.Handed]) (by simp) (by simp)
      have hmem : ∀ s item, item ∈ ((r₁.openSection name).addParams (fs.length + 1) params).items s ↔
          (item ∈ r.items s ∨ (s = 0 ∧ item = .function name)) ∨
            (s = fs.length + 1 ∧ ∃ param ∈ params, item = .var param) := by
        intro s item
        rw [Register.mem_items_addParams hopen, Register.items_openSection, hr₁,
          Register.mem_items_add hpos]
      refine ⟨?_, rfl, (hsound₁.openSection hfresh).addParams hopen params,
        ?_, ?_, ?_, ?_, ?_, ?_, ?_, ?_⟩
      · rw [h.rest]
      · rw [Register.counters_addParams]
        simpa [Register.openSection, hr₁] using h.counters
      · rw [Register.owners_addParams]
        simp only [Register.openSection, List.map_append, howners]
        simp
      · intro s x
        rw [hmem, h.vars]
        constructor
        · rintro ((⟨i, f, rfl, hf, hx⟩ | ⟨_, hitem⟩) | ⟨rfl, param, hparam, hx⟩)
          · exact ⟨i, f, rfl, by rw [List.getElem?_append_left (List.getElem?_eq_some_iff.1 hf).1, hf],
              hx⟩
          · cases hitem
          · cases hx
            exact ⟨fs.length, ⟨name, params, body⟩, rfl, by simp, hparam⟩
        · rintro ⟨i, f, rfl, hf, hx⟩
          rw [List.getElem?_append] at hf
          split at hf
          · exact .inl (.inl ⟨i, f, rfl, hf, hx⟩)
          · rename_i hi
            have hmem' := List.mem_of_getElem? hf
            obtain rfl : f = ⟨name, params, body⟩ := by simpa using hmem'
            have hi' : i = fs.length := by
              have hlt := (List.getElem?_eq_some_iff.1 hf).1
              simp at hlt
              omega
            exact .inr ⟨by rw [hi'], x, hx, rfl⟩
      · intro s other hother
        rw [hmem] at hother
        rcases hother with (hold | ⟨_, hnew⟩) | ⟨_, param, _, heq⟩
        · simpa using Or.inl (h.functions s other hold)
        · cases hnew
          simp
        · cases heq
      · intro s value
        rw [hmem]
        simp [h.literals]
      · rw [h.routines, List.mapIdx_append]
        simp [routineOf]
      · rw [List.map_append]
        exact h.distinct.append (by simp) (by simpa using hname)
      · intro f hf
        rcases List.mem_append.1 hf with hf | hf
        · exact h.builtins f hf
        · obtain rfl : f = ⟨name, params, body⟩ := by simpa using hf
          exact hbuiltin

theorem Entered.all {d₀ : Draft} {stmts : List Stmt} {fs : List FunctionDecl} {d d' : Draft}
    {r : Register} (h : Entered d₀ fs d r) (hok : enterRoutines stmts d = .ok ((), d')) :
    ∃ r', Entered d₀ (fs ++ functionsOf stmts) d' r' := by
  induction stmts generalizing fs d r with
  | nil =>
      obtain ⟨-, rfl⟩ := Prod.mk.inj (Except.ok.inj hok)
      exact ⟨r, by simpa [functionsOf] using h⟩
  | cons stmt rest ih =>
      cases stmt with
      | function name params body =>
          obtain ⟨_, d₁, hstep, hrest⟩ := bind_eq_ok.1 hok
          obtain ⟨r₁, h₁⟩ := h.step ⟨name, params, body⟩ hstep
          obtain ⟨r', h'⟩ := ih h₁ hrest
          exact ⟨r', by simpa [functionsOf] using h'⟩
      | _ => exact ih h hok

/-! ## The code of functions -/

theorem popParams_ok {params : List String} {d d' : Draft} {r : Register}
    (hok : popParams params d = .ok ((), d')) (hscopes : d.scopes = r.scopes) (hsound : r.Sound)
    (hscope : d.scope < r.sections.length) :
    d' = { d with sheet := (Mark.pops (params.map (r.cellAt d.scope))).foldl Sheet.order d.sheet } ∧
      ∀ param ∈ params, r.cellAt d.scope param ∈ r.cells := by
  induction params generalizing d with
  | nil =>
      obtain ⟨-, rfl⟩ := Prod.mk.inj (Except.ok.inj hok)
      exact ⟨rfl, by simp⟩
  | cons param rest ih =>
      obtain ⟨label, d₁, hcell, hrest⟩ := bind_eq_ok.1 hok
      unfold Lowering.variableCell at hcell
      rw [hscopes, Register.lookup?_eq hsound hscope] at hcell
      cases hvisible : r.visible d.scope param with
      | none => simp [hvisible] at hcell
      | some c =>
          obtain ⟨rfl, rfl⟩ : c.label = label ∧ d = d₁ := by simpa [hvisible] using hcell
          have hc : r.cellAt d.scope param = c := by simp [Register.cellAt, hvisible]
          obtain ⟨hd', hmem⟩ := ih (d := { d with
            sheet := (d.sheet.order (.pop, .none)).order (.sta, .cell c) }) hrest hscopes hscope
          refine ⟨?_, ?_⟩
          · rw [hd']
            simp [Mark.pops, hc]
          · simp only [List.mem_cons, forall_eq_or_imp]
            exact ⟨hc ▸ Register.mem_cells_of_visible hsound hvisible, hmem⟩

theorem cells_receive (params : List Cell) : Mark.cells [.receive params] = params := by
  have hpops : (Mark.pops params).filterMap (fun o => o.2.cell?) = params := by
    induction params with
    | nil => rfl
    | cons c rest ih => simpa [Mark.pops, List.filterMap_cons] using ih
  simp [Mark.cells, Mark.orders, List.filterMap_cons, hpops]

/-- What stands around the main statements of a program with functions `fs`. -/
def aroundMain (fs : List FunctionDecl) : Around where
  loops := {}
  scope := 0
  routines := fs.mapIdx routineOf
  inFunction := false

/-- What stands around the body of function number `i`. -/
def aroundFunction (fs : List FunctionDecl) (i : Nat) : Around :=
  { aroundMain fs with scope := i + 1, inFunction := true }

theorem within_of_routines {γ : Around} {fs : List FunctionDecl}
    (hroutines : γ.routines = fs.mapIdx routineOf) (hloops : γ.loops = {}) : γ.Within none where
  starts := by
    intro callee routine hlookup
    rw [hroutines] at hlookup
    obtain ⟨i, f, -, rfl, rfl⟩ := exists_of_lookup hlookup
    rfl
  innermost := by rw [hloops]; rfl

/-- The body of a function, and the return that follows it. -/
theorem body_emits {γ : Around} (hwithin : γ.Within none) (hfunction : γ.inFunction = true)
    {body : List Stmt} (hnamed : Stmt.AllNamed body) {vars : String → Cell} {k : Counters} :
    Emits γ vars k [] (do block body; returnFrom (← literal 0)) (Stmt.assignedInBlock body)
      ((Stmt.emitBlock vars none body k).marks ++
        [emitReturn (.literal 0) (Stmt.emitBlock vars none body k).counters.temporaries])
      (Leaves ((Stmt.emitBlock vars none body k).counters.taking 1) []) := by
  refine .congr ((block_emits hwithin body hnamed k []).bind ?_) (List.append_nil _).symm rfl
  rintro _ _ _ ⟨rfl, rfl⟩
  refine (literal_emits 0).ask ?_
  rintro _ _ _ ⟨rfl, rfl, rfl⟩
  exact (returnFrom_emits hfunction (by simp)).forget (by simp)

theorem mem_intercalate {c : Char} {separator : List Char} {words : List (List Char)}
    (h : c ∈ separator.intercalate words) : c ∈ separator ∨ ∃ word ∈ words, c ∈ word := by
  induction words with
  | nil => simp at h
  | cons word rest ih =>
      cases rest with
      | nil => simpa using Or.inr h
      | cons next rest =>
          simp only [List.intercalate_cons_cons, List.mem_append] at h
          rcases h with (hword | hseparator) | hrest
          · exact .inr ⟨word, by simp, hword⟩
          · exact .inl hseparator
          · rcases ih hrest with hseparator | ⟨other, hother, hc⟩
            · exact .inl hseparator
            · exact .inr ⟨other, List.mem_cons_of_mem _ hother, hc⟩

theorem note_newline_free {f : FunctionDecl} (hnamed : (Stmt.function f.name f.params f.body).Named) :
    '\n' ∉ ("function " ++ f.name ++ "(" ++ ", ".intercalate f.params ++ ")").toList := by
  have hname := hnamed.1.not_newline
  have hparams : ∀ param ∈ f.params, '\n' ∉ param.toList := fun param h =>
    (hnamed.2.1 param h).not_newline
  simp only [String.toList_append, String.toList_intercalate, List.mem_append, not_or]
  refine ⟨⟨⟨⟨by decide, hname⟩, by decide⟩, ?_⟩, by decide⟩
  intro hmem
  rcases mem_intercalate hmem with hseparator | ⟨word, hword, hc⟩
  · exact absurd hseparator (by decide)
  · obtain ⟨param, hparam, rfl⟩ := List.mem_map.1 hword
    exact hparams param hparam hc

/-- What one of the functions adds to the register and to the sheet. -/
theorem function_emits {fs : List FunctionDecl} (hdistinct : (fs.map FunctionDecl.name).Nodup)
    {i : Nat} {f : FunctionDecl} (hf : fs[i]? = some f)
    (hnamed : (Stmt.function f.name f.params f.body).Named) {globals : List String}
    {d d' : Draft} {r : Register} {t : Tablet} (hfollows : d.Follows r t)
    (haround : d.around = aroundMain fs) (hscope : i + 1 < r.sections.length)
    (hvars : ∀ x, r.cellAt (i + 1) x = Program.variableCell globals (some (f.name, f.params)) x)
    (hok : function f.name f.body d = .ok ((), d')) :
    ∃ r', d'.Follows r' (t.lay (Program.emitFunction globals f.name f.params f.body r.counters).marks) ∧
      d'.around = aroundMain fs ∧
      r'.counters = (Program.emitFunction globals f.name f.params f.body r.counters).counters ∧
      Register.Grows (i + 1) (Stmt.assignedInBlock f.body) r r' ∧
      Mark.cells (Program.emitFunction globals f.name f.params f.body r.counters).marks ⊆ r'.cells ∧
      ∀ m ∈ (Program.emitFunction globals f.name f.params f.body r.counters).marks,
        (aroundFunction fs i).Allows m := by
  have hroutines : d.routines = fs.mapIdx routineOf := congrArg Around.routines haround
  obtain ⟨found, d₁, hroutine, hrest⟩ := bind_eq_ok.1 hok
  unfold Lowering.routine at hroutine
  rw [hroutines, lookup_eq_some hdistinct hf] at hroutine
  obtain ⟨rfl, rfl⟩ : (routineOf i f).2 = found ∧ d = d₁ := by simpa using hroutine
  obtain ⟨_, d₂, henter, hrest⟩ := bind_eq_ok.1 hrest
  obtain ⟨-, rfl⟩ := Prod.mk.inj (Except.ok.inj henter)
  obtain ⟨_, d₃, hnote, hrest⟩ := bind_eq_ok.1 hrest
  obtain ⟨-, rfl⟩ := Prod.mk.inj (Except.ok.inj hnote)
  obtain ⟨_, d₄, hanchor, hrest⟩ := bind_eq_ok.1 hrest
  obtain ⟨-, rfl⟩ := Prod.mk.inj (Except.ok.inj hanchor)
  obtain ⟨_, d₅, hpop, hrest⟩ := bind_eq_ok.1 hrest
  obtain ⟨hd₅, hparams⟩ := popParams_ok (r := r) hpop hfollows.scopes hfollows.sound hscope
  have hcells : (routineOf i f).2.params.reverse.map (r.cellAt (i + 1)) =
      f.params.reverse.map (.var (some f.name)) := by
    apply List.map_congr_left
    intro x hx
    rw [hvars, Program.variableCell, if_pos (by simpa [routineOf] using hx)]
  have hshows := (hfollows.sheet.note (note_newline_free hnamed)).lay
    [.place (.entry f.name), .receive (f.params.reverse.map (.var (some f.name)))]
  rw [← hcells] at hshows
  rw [show (do
      block f.body
      returnFrom (← literal 0)
      modify fun draft => { draft with scope := Scopes.root, inFunction := false }) =
      ((do block f.body; returnFrom (← literal 0)) >>= fun _ =>
        modify fun draft => { draft with scope := Scopes.root, inFunction := false } :
          Lowering Unit) by simp only [bind_assoc]] at hrest
  obtain ⟨_, d₆, hbody, hleave⟩ := bind_eq_ok.1 hrest
  obtain ⟨-, rfl⟩ := Prod.mk.inj (Except.ok.inj hleave)
  have hwithin : (aroundFunction fs i).Within none := within_of_routines rfl rfl
  have hmeets : r.Meets (aroundFunction fs i).scope
      (Program.variableCell globals (some (f.name, f.params))) r.counters [] :=
    ⟨hvars, rfl, by simp⟩
  have hfollows₅ : d₅.Follows r (t.lay [.place (.entry f.name),
      .receive ((routineOf i f).2.params.reverse.map (r.cellAt (i + 1)))]) := by
    rw [hd₅]
    exact ⟨hfollows.scopes, hshows, hfollows.sound, hscope⟩
  have haround₅ : d₅.around = aroundFunction fs i := by
    rw [hd₅, aroundFunction, ← haround]
    rfl
  obtain ⟨r', k', known', hfollows', haround', hmeets', hgrows, hcells', hallows, rfl, rfl⟩ :=
    body_emits hwithin rfl hnamed.2.2 hfollows₅ haround₅ hmeets hbody
  refine ⟨r', ⟨hfollows'.scopes, ?_, hfollows'.sound, ?_⟩, ?_, hmeets'.counters, hgrows, ?_, ?_⟩
  · have hsheet := hfollows'.sheet
    rw [← Tablet.lay_append, hcells] at hsheet
    simpa [Program.emitFunction] using hsheet
  · exact hfollows'.sound.length_pos
  · have hloops := congrArg Around.loops haround'
    have hroutines' := congrArg Around.routines haround'
    simp only [Draft.around, aroundFunction, aroundMain] at hloops hroutines' ⊢
    rw [hloops, hroutines']
    rfl
  · have hreceived : f.params.reverse.map (Cell.var (some f.name)) ⊆ r.cells := by
      intro c hc
      obtain ⟨x, hx, rfl⟩ := List.mem_map.1 hc
      have hmem : r.cellAt (i + 1) x ∈ r.cells := hparams x hx
      rwa [hvars, Program.variableCell, if_pos (List.mem_reverse.1 hx)] at hmem
    have hsplit : Mark.cells (Program.emitFunction globals f.name f.params f.body r.counters).marks =
        f.params.reverse.map (Cell.var (some f.name)) ++ Mark.cells _ :=
      (congrArg Mark.cells (List.append_assoc _ _ _)).trans
        ((Mark.cells_append _ _).trans (congrArg (· ++ _) (cells_receive _)))
    rw [hsplit]
    exact List.append_subset.2 ⟨fun c hc => hgrows.cells (hreceived hc), hcells'⟩
  · intro m hm
    simp only [Program.emitFunction, List.cons_append, List.nil_append, List.mem_cons] at hm
    rcases hm with rfl | rfl | hm
    · trivial
    · trivial
    · exact hallows m hm

/-- The variables of a register when the main statements and the first `i` functions
have been lowered. -/
structure Written (fs : List FunctionDecl) (globals : List String) (i : Nat) (r : Register) :
    Prop where
  sound : r.Sound
  owners : r.sections.map Prod.fst = none :: fs.map fun f => some f.name
  vars : ∀ s x, .var x ∈ r.items s ↔ (s = 0 ∧ x ∈ globals) ∨
    ∃ j f, s = j + 1 ∧ fs[j]? = some f ∧
      (x ∈ f.params ∨ (j < i ∧ x ∈ Stmt.assignedInBlock f.body ∧ x ∉ globals))

section Written

variable {fs : List FunctionDecl} {globals : List String} {i : Nat} {r r' : Register}

theorem Written.length (h : Written fs globals i r) : r.sections.length = fs.length + 1 := by
  simpa using congrArg List.length h.owners

theorem Written.owner (h : Written fs globals i r) {j : Nat} {f : FunctionDecl}
    (hf : fs[j]? = some f) : r.owner (j + 1) = some f.name := by
  have hget := congrArg (fun l => l[j + 1]?) h.owners
  simp only [List.getElem?_map, List.getElem?_cons_succ, hf, Option.map_some] at hget
  unfold Register.owner
  cases hpart : r.sections[j + 1]? with
  | none => simp [hpart] at hget
  | some part => simpa [hpart] using hget

theorem Written.mem_main (h : Written fs globals i r) {x : String} :
    .var x ∈ r.items 0 ↔ x ∈ globals := by
  rw [h.vars]
  simp

/-- A function that is still to be lowered has its parameters and nothing else. -/
theorem Written.mem_params (h : Written fs globals i r) {j : Nat} (hj : i ≤ j) {f : FunctionDecl}
    (hf : fs[j]? = some f) {x : String} : .var x ∈ r.items (j + 1) ↔ x ∈ f.params := by
  rw [h.vars]
  constructor
  · rintro (⟨hzero, _⟩ | ⟨j', f', heq, hf', hx⟩)
    · omega
    · obtain rfl : j = j' := by omega
      obtain rfl : f = f' := by simpa [hf] using hf'
      rcases hx with hx | ⟨hlt, _⟩
      · exact hx
      · omega
  · intro hx
    exact .inr ⟨j, f, rfl, hf, .inl hx⟩

theorem Written.cellAt (h : Written fs globals i r) {j : Nat} (hj : i ≤ j) {f : FunctionDecl}
    (hf : fs[j]? = some f) (x : String) :
    r.cellAt (j + 1) x = Program.variableCell globals (some (f.name, f.params)) x := by
  simp only [Register.cellAt, Register.visible, h.mem_params hj hf, h.mem_main, h.owner hf,
    Program.variableCell]
  by_cases hparam : x ∈ f.params <;> by_cases hglobal : x ∈ globals <;> simp [hparam, hglobal]

theorem Written.step (h : Written fs globals i r) {f : FunctionDecl} (hf : fs[i]? = some f)
    (hgrows : Register.Grows (i + 1) (Stmt.assignedInBlock f.body) r r') :
    Written fs globals (i + 1) r' where
  sound := hgrows.sound
  owners := hgrows.owners.trans h.owners
  vars := by
    intro s x
    have hvisible : r.visible (i + 1) x = none ↔ x ∉ f.params ∧ x ∉ globals := by
      simp only [Register.visible, h.mem_params le_rfl hf, h.mem_main]
      by_cases hparam : x ∈ f.params <;> by_cases hglobal : x ∈ globals <;>
        simp [hparam, hglobal]
    rw [hgrows.vars, h.vars, hvisible]
    constructor
    · rintro ((hmain | ⟨j, g, rfl, hg, hx⟩) | ⟨rfl, hassigned, hnot⟩)
      · exact .inl hmain
      · refine .inr ⟨j, g, rfl, hg, hx.imp_right fun hx => ⟨by omega, hx.2⟩⟩
      · exact .inr ⟨i, f, rfl, hf, .inr ⟨by omega, hassigned, hnot.2⟩⟩
    · rintro (hmain | ⟨j, g, rfl, hg, hx⟩)
      · exact .inl (.inl hmain)
      · by_cases hji : j = i
        · subst hji
          obtain rfl : f = g := by simpa [hf] using hg
          by_cases hparam : x ∈ f.params
          · exact .inl (.inr ⟨j, f, rfl, hf, .inl hparam⟩)
          · rcases hx with hx | ⟨_, hassigned, hglobal⟩
            · exact absurd hx hparam
            · exact .inr ⟨rfl, hassigned, hparam, hglobal⟩
        · exact .inl (.inr ⟨j, g, rfl, hg, hx.imp_right fun hx => ⟨by omega, hx.2⟩⟩)

theorem Written.mem_global (h : Written fs globals i r) {x : String} :
    .var none x ∈ r.cells ↔ x ∈ globals := by
  rw [Register.mem_cells]
  constructor
  · rintro ⟨s, item, hitem, hcell⟩
    obtain ⟨rfl, howner⟩ : item = .var x ∧ r.owner s = none := by
      cases item <;> simp_all [Item.cell?]
    rcases (h.vars s x).1 hitem with ⟨_, hx⟩ | ⟨j, f, rfl, hf, _⟩
    · exact hx
    · rw [h.owner hf] at howner
      cases howner
  · intro hx
    exact ⟨0, .var x, h.mem_main.2 hx, by simp [Item.cell?, h.sound.owner_zero]⟩

theorem Written.mem_local (h : Written fs globals fs.length r) {f x : String} :
    .var (some f) x ∈ r.cells ↔
      ∃ g ∈ fs, g.name = f ∧
        (x ∈ g.params ∨ (x ∈ Stmt.assignedInBlock g.body ∧ x ∉ globals)) := by
  rw [Register.mem_cells]
  constructor
  · rintro ⟨s, item, hitem, hcell⟩
    obtain ⟨rfl, howner⟩ : item = .var x ∧ r.owner s = some f := by
      cases item <;> simp_all [Item.cell?]
    rcases (h.vars s x).1 hitem with ⟨rfl, _⟩ | ⟨j, g, rfl, hg, hx⟩
    · rw [h.sound.owner_zero] at howner
      cases howner
    · rw [h.owner hg] at howner
      exact ⟨g, List.mem_of_getElem? hg, Option.some.inj howner, hx.imp_right And.right⟩
  · rintro ⟨g, hg, rfl, hx⟩
    obtain ⟨j, hj⟩ := List.getElem?_of_mem hg
    have hlt := (List.getElem?_eq_some_iff.1 hj).1
    refine ⟨j + 1, .var x, ?_, by simp [Item.cell?, h.owner hj]⟩
    exact (h.vars _ x).2 (.inr ⟨j, g, rfl, hj, hx.imp_right fun hx => ⟨hlt, hx⟩⟩)

theorem Written.all (h : Written fs globals i r) (hi : fs.length ≤ i) :
    Written fs globals fs.length r where
  sound := h.sound
  owners := h.owners
  vars := by
    intro s x
    rw [h.vars]
    have hlt : ∀ {j : Nat} {f : FunctionDecl}, fs[j]? = some f → (j < i ↔ j < fs.length) := by
      intro j f hf
      have hj := (List.getElem?_eq_some_iff.1 hf).1
      omega
    constructor
    · rintro (hmain | ⟨j, f, rfl, hf, hx⟩)
      · exact .inl hmain
      · exact .inr ⟨j, f, rfl, hf, by rwa [← hlt hf]⟩
    · rintro (hmain | ⟨j, f, rfl, hf, hx⟩)
      · exact .inl hmain
      · exact .inr ⟨j, f, rfl, hf, by rwa [hlt hf]⟩

end Written

/-- No variable is visible in the main program before its statements. -/
theorem Entered.visible_main {d₀ d : Draft} {fs : List FunctionDecl} {r : Register}
    (h : Entered d₀ fs d r) (x : String) : r.visible 0 x = none := by
  have hnot : .var x ∉ r.items 0 := by
    rw [h.vars]
    rintro ⟨i, f, hi, -⟩
    omega
  simp [Register.visible, hnot]

theorem Entered.written {d₀ d : Draft} {fs : List FunctionDecl} {globals : List String}
    {r r' : Register} (h : Entered d₀ fs d r) (hgrows : Register.Grows 0 globals r r') :
    Written fs globals 0 r' where
  sound := hgrows.sound
  owners := hgrows.owners.trans h.owners
  vars := by
    intro s x
    rw [hgrows.vars, h.vars]
    simp only [h.visible_main x, and_true, not_lt_zero, false_and, or_false]
    exact or_comm

/-- What all functions add to the register and to the sheet. -/
theorem functions_emits {fs : List FunctionDecl} (hdistinct : (fs.map FunctionDecl.name).Nodup)
    {stmts : List Stmt} (hnamed : ∀ stmt ∈ stmts, stmt.Named) {globals : List String} {i : Nat}
    (hstmts : functionsOf stmts = fs.drop i) {d d' : Draft} {r : Register} {t : Tablet}
    (hfollows : d.Follows r t) (haround : d.around = aroundMain fs)
    (hwritten : Written fs globals i r) (hok : functions stmts d = .ok ((), d')) :
    ∃ r', d'.Follows r' (t.lay (Program.emitFunctions globals stmts r.counters).marks) ∧
      d'.around = aroundMain fs ∧ Written fs globals fs.length r' ∧ r.cells ⊆ r'.cells ∧
      Mark.cells (Program.emitFunctions globals stmts r.counters).marks ⊆ r'.cells ∧
      ∀ m ∈ (Program.emitFunctions globals stmts r.counters).marks,
        (aroundFunction fs 0).Allows m := by
  induction stmts generalizing i d r t with
  | nil =>
      obtain ⟨-, rfl⟩ := Prod.mk.inj (Except.ok.inj hok)
      have hi : fs.length ≤ i := by simpa [functionsOf] using hstmts.symm
      exact ⟨r, hfollows, haround, hwritten.all hi, fun _ hc => hc,
        by simp [Program.emitFunctions], by simp [Program.emitFunctions]⟩
  | cons stmt rest ih =>
      have hnamedRest : ∀ other ∈ rest, other.Named := fun other h =>
        hnamed other (List.mem_cons_of_mem _ h)
      cases stmt with
      | function name params body =>
          obtain ⟨_, d₁, hfunction, hrest⟩ := bind_eq_ok.1 hok
          have hf : fs[i]? = some ⟨name, params, body⟩ := by
            have hget := congrArg (fun l => l[0]?) hstmts
            simpa [functionsOf] using hget.symm
          have hdrop : functionsOf rest = fs.drop (i + 1) := by
            have htail := congrArg List.tail hstmts
            simpa [functionsOf] using htail
          have hi : i < fs.length := (List.getElem?_eq_some_iff.1 hf).1
          have hscope : i + 1 < r.sections.length := by
            rw [hwritten.length]
            omega
          obtain ⟨r₁, hfollows₁, haround₁, hcounters₁, hgrows, hcells, hallows⟩ :=
            function_emits hdistinct hf (hnamed _ List.mem_cons_self) hfollows haround hscope
              (hwritten.cellAt le_rfl hf) hfunction
          obtain ⟨r', hfollows', haround', hwritten', hsubset, hcells', hallows'⟩ :=
            ih hnamedRest hdrop hfollows₁ haround₁ (hwritten.step hf hgrows) hrest
          rw [hcounters₁] at hfollows' hcells' hallows'
          refine ⟨r', ?_, haround', hwritten', fun c hc => hsubset (hgrows.cells hc), ?_, ?_⟩
          · rw [← Tablet.lay_append] at hfollows'
            exact hfollows'
          · simp only [Program.emitFunctions, Mark.cells_append]
            exact List.append_subset.2 ⟨fun c hc => hsubset (hcells hc), hcells'⟩
          · intro m hm
            simp only [Program.emitFunctions, List.mem_append] at hm
            rcases hm with hm | hm
            · exact hallows m hm
            · exact hallows' m hm
      | _ => exact ih hnamedRest hstmts hfollows haround hwritten hok

end Lowering

/-! ## Whole programs -/

/-- The line that declares a cell. -/
def Cell.line (c : Cell) : SheetLine :=
  .data { label := c.label, initial := c.initial }

theorem Item.cell?_injective {owner : Option String} {a b : Item} {c : Cell}
    (ha : a.cell? owner = some c) (hb : b.cell? owner = some c) : a = b := by
  cases a <;> cases b <;> simp only [cell?, Option.some.injEq, reduceCtorEq] at ha hb <;>
    subst ha <;> simp_all

namespace Register

/-- The cells of one section. -/
def sectionCells (r : Register) (s : Nat) : List Cell :=
  (r.sections[s]?).elim [] fun part => part.2.filterMap (Item.cell? part.1)

theorem cells_eq (r : Register) :
    r.cells = (List.range r.sections.length).flatMap r.sectionCells := by
  have hrange : (List.range r.sections.length).map (fun s => r.sections[s]?) =
      r.sections.map some := by
    apply List.ext_getElem
    · simp
    · intro s hs _
      have hlt : s < r.sections.length := by simpa using hs
      simp [List.getElem?_eq_getElem hlt]
  calc r.cells
      = (r.sections.map some).flatMap fun part =>
          part.elim [] fun part => part.2.filterMap (Item.cell? part.1) := by
        rw [List.flatMap_map]
        rfl
    _ = (List.range r.sections.length).flatMap r.sectionCells := by
        rw [← hrange, List.flatMap_map]
        rfl

theorem mem_sectionCells {r : Register} {s : Nat} {c : Cell} :
    c ∈ r.sectionCells s ↔ ∃ item ∈ r.items s, item.cell? (r.owner s) = some c := by
  cases hs : r.sections[s]? with
  | none => simp [sectionCells, items, hs]
  | some part => simp [sectionCells, items, owner, hs]

theorem Sound.owner_injective {r : Register} (h : r.Sound) {s s' : Nat}
    (hs : s < r.sections.length) (hs' : s' < r.sections.length) (heq : r.owner s = r.owner s') :
    s = s' := by
  have howner : ∀ {s : Nat}, s < r.sections.length →
      (r.sections.map Prod.fst)[s]? = some (r.owner s) := by
    intro s hs
    simp [owner, List.getElem?_eq_getElem hs]
  exact (List.getElem?_inj (by simpa using hs) h.owners).1
    ((howner hs).trans (heq ▸ (howner hs').symm))

theorem Sound.nodup_cells {r : Register} (h : r.Sound) : r.cells.Nodup := by
  rw [r.cells_eq, List.nodup_flatMap]
  constructor
  · intro s _
    have hnodup := h.nodup s
    cases hs : r.sections[s]? with
    | none => simp [sectionCells, hs]
    | some part =>
        simp only [items, hs, Option.elim_some] at hnodup
        simp only [sectionCells, hs, Option.elim_some]
        exact hnodup.filterMap fun a b c ha hb => Item.cell?_injective ha hb
  · refine List.Pairwise.imp_of_mem ?_ List.nodup_range
    intro s s' hs hs' hne c hc hc'
    rw [List.mem_range] at hs hs'
    obtain ⟨item, hitem, hcell⟩ := mem_sectionCells.1 hc
    obtain ⟨item', hitem', hcell'⟩ := mem_sectionCells.1 hc'
    apply hne
    cases item <;> cases item' <;>
      simp only [Item.cell?, Option.some.injEq, reduceCtorEq] at hcell hcell' <;>
      subst hcell <;>
      simp only [Cell.var.injEq, Cell.literal.injEq, Cell.temporary.injEq, reduceCtorEq] at hcell'
    · exact h.owner_injective hs hs' hcell'.1.symm
    · exact (h.literals s _ hitem).trans (h.literals s' _ hitem').symm
    · subst hcell'
      exact h.temporaries s s' _ hitem hitem'

theorem declarations_eq (r : Register) (s : Nat) :
    (r.scopes.declarations s).map SheetLine.data = (r.sectionCells s).map Cell.line := by
  unfold Scopes.declarations Scopes.symbols sectionCells
  have htable : r.scopes.table[s]? = (r.sections[s]?).map scope := by simp [scopes]
  rw [htable]
  cases hpart : r.sections[s]? with
  | none => rfl
  | some part =>
      have hstem : r.scopes.stem s = scopeStem part.1 := by
        simp [Scopes.stem, htable, hpart]
      simp only [Option.map_some, Option.elim_some, symbols_scope]
      induction part.2 with
      | nil => rfl
      | cons item rest ih =>
          cases item <;>
            simp_all [Item.symbol, Item.kind, SymbolKind.hasStorage, Item.cell?, Cell.line,
              Cell.label, Item.name, Cell.initial, List.filterMap_cons]

theorem allDeclarations_eq (r : Register) :
    (r.scopes.allDeclarations.map SheetLine.data) = r.cells.map Cell.line := by
  rw [cells_eq, Scopes.allDeclarations, List.map_flatMap, List.map_flatMap]
  have hids : r.scopes.ids = List.range r.sections.length := by
    simp [Scopes.ids, scopes]
  rw [hids]
  simp only [declarations_eq]

end Register

namespace Program

def declared (program : Program) : List FunctionDecl :=
  functionsOf program.functions

/-- A sheet spells out the blueprint of a program: after the code come the cells of a
register. -/
structure Spelled (program : Program) (sheet : Sheet) (r : Register) : Prop where
  sound : r.Sound
  words : sheet.words = program.code.map Entry.line ++ r.cells.map Cell.line
  waiting : sheet.waiting = none
  notes : ∀ text, .note text ∈ sheet.lines.toList → '\n' ∉ text.toList
  cells : Mark.cells program.marks ⊆ r.cells
  globals : ∀ x, .var none x ∈ r.cells ↔ x ∈ program.globals
  locals : ∀ f x, .var (some f) x ∈ r.cells ↔
    ∃ g ∈ program.declared, g.name = f ∧
      (x ∈ g.params ∨ (x ∈ Stmt.assignedInBlock g.body ∧ x ∉ program.globals))
  distinct : (program.declared.map FunctionDecl.name).Nodup
  builtins : ∀ g ∈ program.declared, g.name ∉ Lowering.builtins
  calls : ∀ callee args result, .call callee args result ∈ program.marks →
    ∃ g ∈ program.declared, g.name = callee ∧ args.length = g.params.length
  returns : ∀ value address, .giveBack value address ∉ program.emitMain.marks
  accepted : .refused ∉ program.marks

theorem pending_emitFunctions {globals : List String} {stmts : List Stmt} {k : Counters}
    {t : Tablet} (ht : t.pending = none) :
    (t.lay (emitFunctions globals stmts k).marks).pending = none := by
  induction stmts generalizing k t with
  | nil => exact ht
  | cons stmt rest ih =>
      cases stmt with
      | function name params body =>
          simp only [emitFunctions, Tablet.lay_append]
          apply ih
          simp only [emitFunction, Tablet.lay_append]
          exact Tablet.pending_foldl_write (by simp [emitReturn, Mark.orders]) _
      | _ => exact ih ht

theorem pending_marks (program : Program) : (({} : Tablet).lay program.marks).pending = none := by
  unfold marks
  rw [Tablet.lay_append, Tablet.lay_append]
  exact pending_emitFunctions rfl

theorem declare_lines (declarations : List Declaration) (sheet : Sheet) :
    (declarations.foldl Sheet.declare sheet).lines.toList =
        sheet.lines.toList ++ declarations.map SheetLine.data ∧
      (declarations.foldl Sheet.declare sheet).waiting = sheet.waiting := by
  induction declarations generalizing sheet with
  | nil => simp
  | cons declaration rest ih =>
      obtain ⟨hlines, hwaiting⟩ := ih (sheet.declare declaration)
      refine ⟨?_, hwaiting⟩
      rw [List.foldl_cons, hlines]
      simp [Sheet.declare, Sheet.push]

/-- The main statements, lowered after the functions have been entered. -/
theorem main_emits {program : Program} (hnamed : Stmt.AllNamed program.main) 
    {d₀ d₁ d d' : Draft} {fs : List FunctionDecl} {r : Register}
    (hok : Lowering.block program.main d = .ok ((), d'))
    (hentered : Lowering.Entered d₀ fs d₁ r) (hscopes : d.scopes = d₁.scopes)
    (hsheet : d.sheet.Shows {}) (hd : d.around = Lowering.aroundMain fs) :
    ∃ r', d'.Follows r' (({} : Tablet).lay program.emitMain.marks) ∧
      d'.around = Lowering.aroundMain fs ∧ r'.counters = program.emitMain.counters ∧
      Lowering.Written fs program.globals 0 r' ∧ Mark.cells program.emitMain.marks ⊆ r'.cells ∧
      ∀ m ∈ program.emitMain.marks, (Lowering.aroundMain fs).Allows m := by
  have hwithin : (Lowering.aroundMain fs).Within none := Lowering.within_of_routines rfl rfl
  have hvars : ∀ x, r.cellAt 0 x = variableCell program.globals none x := by
    intro x
    simp only [Register.cellAt, Register.visible, hentered.sound.owner_zero, variableCell]
    split <;> rfl
  have hscope : d.scope = 0 := congrArg Around.scope hd
  have hfollows : d.Follows r {} :=
    ⟨hscopes.trans hentered.scopes, hsheet, hentered.sound, hscope ▸ hentered.sound.length_pos⟩
  have hmeets : r.Meets (Lowering.aroundMain fs).scope (variableCell program.globals none) {} [] :=
    ⟨hvars, hentered.counters, by simp⟩
  obtain ⟨r', k', known', hfollows', haround', hmeets', hgrows, hcells, hallows, rfl, rfl⟩ :=
    Lowering.block_emits hwithin program.main hnamed {} [] hfollows hd hmeets hok
  exact ⟨r', hfollows', haround', hmeets'.counters, hentered.written hgrows, hcells, hallows⟩

/-- Lowering a program with proper names spells out its blueprint, with the cells of the
table of scopes. -/
theorem spelled_of_lowering {program : Program} (hnamed : ∀ stmt ∈ program.statements, stmt.Named)
    {sheet : Sheet} (hsheet : sheet.Shows {}) {d : Draft}
    (hok : Lowering.program program { sheet } = .ok ((), d)) :
    ∃ r, program.Spelled d.sheet r ∧ d.scopes = r.scopes := by
  obtain ⟨_, d₁, henter, hrest⟩ := Lowering.bind_eq_ok.1 hok
  obtain ⟨_, d₂, hnote, hrest⟩ := Lowering.bind_eq_ok.1 hrest
  obtain ⟨_, d₃, hmain, hrest⟩ := Lowering.bind_eq_ok.1 hrest
  obtain ⟨_, d₄, hhalt, hrest⟩ := Lowering.bind_eq_ok.1 hrest
  obtain ⟨_, d₅, hfunctions, hrest⟩ := Lowering.bind_eq_ok.1 hrest
  obtain ⟨_, d₆, hnote', hdata⟩ := Lowering.bind_eq_ok.1 hrest
  obtain ⟨r₀, hentered⟩ := (Lowering.entered_nil rfl rfl).all henter
  rw [List.nil_append] at hentered
  obtain ⟨-, rfl⟩ := Prod.mk.inj (Except.ok.inj hnote)
  obtain ⟨-, rfl⟩ := Prod.mk.inj (Except.ok.inj hhalt)
  obtain ⟨-, rfl⟩ := Prod.mk.inj (Except.ok.inj hnote')
  obtain ⟨-, rfl⟩ := Prod.mk.inj (Except.ok.inj hdata)
  have hnamedMain : Stmt.AllNamed program.main :=
    Stmt.allNamed_iff.2 fun stmt h => hnamed stmt (List.mem_filter.1 h).1
  have hnamedFunctions : ∀ stmt ∈ program.functions, stmt.Named := fun stmt h =>
    hnamed stmt (List.mem_filter.1 h).1
  have haround₁ : d₁.around = Lowering.aroundMain program.declared := by
    rw [hentered.rest]
    simp only [Draft.around, Lowering.aroundMain, hentered.routines]
    rfl
  have hsheet₁ : d₁.sheet.Shows {} := by
    rw [hentered.rest]
    exact hsheet
  obtain ⟨r₁, hfollows₁, haround₁', hcounters₁, hwritten₁, hcells₁, hallows₁⟩ :=
    main_emits hnamedMain hmain hentered rfl (hsheet₁.note (by decide)) haround₁
  have hshowsHalt := hfollows₁.sheet.lay [.bare .hlt]
  have hfollowsHalt : Draft.Follows { d₃ with sheet := d₃.sheet.op .hlt } r₁
      ((({} : Tablet).lay program.emitMain.marks).lay [.bare .hlt]) :=
    ⟨hfollows₁.scopes, hshowsHalt, hfollows₁.sound, hfollows₁.scope⟩
  obtain ⟨r, hfollows, haround, hwritten, hsubset, hcells, hallows⟩ :=
    Lowering.functions_emits hentered.distinct hnamedFunctions rfl hfollowsHalt haround₁' hwritten₁
      hfunctions
  rw [hcounters₁, ← Tablet.lay_append, ← Tablet.lay_append, ← List.append_assoc] at hfollows
  have hshows : (d₅.sheet.note "data").Shows _ := hfollows.sheet.note (by decide)
  obtain ⟨hlines, hwaiting⟩ := declare_lines d₅.scopes.allDeclarations (d₅.sheet.note "data")
  refine ⟨r, ⟨hwritten.sound, ?_, ?_, ?_, ?_, ?_, ?_, hentered.distinct, hentered.builtins, ?_, ?_, ?_⟩,
    hfollows.scopes⟩
  · show List.filter _ _ = _
    rw [hlines, List.filter_append, hfollows.scopes, Register.allDeclarations_eq]
    have hdataWords : (r.cells.map Cell.line).filter SheetLine.isWord = r.cells.map Cell.line := by
      simp [Cell.line, SheetLine.isWord]
    rw [hdataWords]
    exact congrArg (· ++ _) hshows.words
  · refine hwaiting.trans (hshows.waiting.trans ?_)
    exact congrArg (Option.map Place.label) (pending_marks program)
  · intro text htext
    rw [hlines, List.mem_append] at htext
    rcases htext with htext | htext
    · exact hshows.notes text htext
    · simp at htext
  · simp only [marks, Mark.cells_append]
    refine List.append_subset.2 ⟨List.append_subset.2 ⟨?_, by simp⟩, hcounters₁ ▸ hcells⟩
    exact fun c hc => hsubset (hcells₁ hc)
  · exact fun x => hwritten.mem_global
  · exact fun f x => hwritten.mem_local
  · intro callee args result hcall
    have hallowed : (Lowering.aroundMain program.declared).Allows (.call callee args result) := by
      simp only [marks, List.mem_append, List.mem_singleton, reduceCtorEq, or_false] at hcall
      rcases hcall with hcall | hcall
      · exact hallows₁ _ hcall
      · exact hallows _ (hcounters₁ ▸ hcall)
    obtain ⟨routine, hlookup, hlength⟩ := hallowed
    obtain ⟨i, g, hg, hname, rfl⟩ := Lowering.exists_of_lookup hlookup
    exact ⟨g, List.mem_of_getElem? hg, hname, hlength⟩
  · intro value address hmem
    exact Bool.false_ne_true (hallows₁ _ hmem)
  · intro hmem
    simp only [marks, List.mem_append, List.mem_singleton, reduceCtorEq, or_false] at hmem
    rcases hmem with hmem | hmem
    · exact hallows₁ _ hmem
    · exact hallows _ (hcounters₁ ▸ hmem)

/-- A compiled source has been read as a program, and the program has been lowered. -/
theorem lowered_of_compile {source : String} {takesNotes : Bool} {compilation : Compilation}
    (hok : LittleMan.compile source takesNotes = .ok compilation) :
    ∃ program draft, Program.parse source = .ok program ∧
      Lowering.program program { sheet := { takesNotes } } = .ok ((), draft) ∧
      draft.sheet = compilation.sheet ∧
      draft.scopes.counters.temporaries = compilation.temporaries := by
  unfold LittleMan.compile at hok
  cases hparse : Program.parse source with
  | error error => simp [hparse] at hok
  | ok program =>
      simp only [hparse, Program.compile] at hok
      cases hlower : Lowering.program program { sheet := { takesNotes } } with
      | error error => simp [hlower, Except.map, Except.mapError] at hok
      | ok result =>
          obtain ⟨_, draft⟩ := result
          simp only [hlower, Except.map, Except.mapError, Except.ok.injEq] at hok
          subst hok
          exact ⟨program, draft, rfl, hlower, rfl, rfl⟩

/-- A compiled source has been read as a program, and the sheet spells that program. -/
theorem spelled_of_compile {source : String} {takesNotes : Bool} {compilation : Compilation}
    (hok : LittleMan.compile source takesNotes = .ok compilation) :
    ∃ program, Program.parse source = .ok program ∧
      (∀ stmt ∈ program.statements, stmt.Named) ∧
      ∃ r, program.Spelled compilation.sheet r := by
  obtain ⟨program, draft, hparse, hlower, hsheet, -⟩ := lowered_of_compile hok
  have hnamed := parse_named hparse
  obtain ⟨r, hspelled, -⟩ := spelled_of_lowering hnamed ⟨rfl, rfl, by simp⟩ hlower
  exact ⟨program, hparse, hnamed, r, hsheet ▸ hspelled⟩

end Program

end LittleMan
