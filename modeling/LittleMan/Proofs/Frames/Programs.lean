import LittleMan.Proofs.Frames
import LittleMan.Proofs.Loaded

/-!
# The regions of a program

The main program stands first, and the functions follow in the order of their
declarations.  `Program.Built.parted` says that these regions make up the code of a
program that has been built.
-/

namespace LittleMan

open Mark

namespace Program

def mainRegion (program : Program) : Region where
  function := none
  base := 0
  body := program.emitMain.marks ++ [bare .hlt]

/-- The marks of a body, and the return that follows it. -/
def functionBody (globals : List String) (f : FunctionDecl) (k : Counters) : List Mark :=
  let x := Stmt.emitBlock (variableCell globals (some (f.name, f.params))) none f.body k
  x.marks ++ [emitReturn (.literal 0) x.counters.temporaries]

def functionRegion (globals : List String) (f : FunctionDecl) (base : Nat) (k : Counters) :
    Region where
  function := some (f.name, f.params.reverse.map (.var (some f.name)))
  base
  body := functionBody globals f k

theorem functionRegion_marks (globals : List String) (f : FunctionDecl) (base : Nat)
    (k : Counters) :
    (functionRegion globals f base k).header ++ (functionRegion globals f base k).body =
      (emitFunction globals f.name f.params f.body k).marks := by
  simp [functionRegion, Region.header, emitFunction, functionBody]

def functionRegions (globals : List String) : List FunctionDecl → Nat → Counters → List Region
  | [], _, _ => []
  | f :: rest, base, k =>
      let x := emitFunction globals f.name f.params f.body k
      functionRegion globals f base k ::
        functionRegions globals rest (base + width x.marks) x.counters

def regions (program : Program) : List Region :=
  program.mainRegion :: functionRegions program.globals program.declared
    (width (program.emitMain.marks ++ [bare .hlt])) program.emitMain.counters

/-- The marks of all functions. -/
theorem emitFunctions_eq (globals : List String) (stmts : List Stmt) (k : Counters) :
    emitFunctions globals stmts k =
      emitFunctions globals
        ((functionsOf stmts).map fun f => .function f.name f.params f.body) k := by
  induction stmts generalizing k with
  | nil => rfl
  | cons stmt rest ih =>
      cases stmt with
      | function name params body => simp only [functionsOf, List.map_cons, emitFunctions, ih]
      | _ => simp only [functionsOf, emitFunctions, ih]

/-- The region of a function stands where its marks are laid. -/
theorem of_mem_functionRegions {globals : List String} {code : List Entry}
    {fs : List FunctionDecl} {base : Nat} {k : Counters} {ρ : Region}
    (hlaid : Laid code base (emitFunctions globals
      (fs.map fun f => .function f.name f.params f.body) k).marks)
    (h : ρ ∈ functionRegions globals fs base k) :
    ∃ f ∈ fs, ∃ base' k', ρ = functionRegion globals f base' k' ∧
      Laid code base' (ρ.header ++ ρ.body) ∧
      ρ.header ++ ρ.body ⊆ (emitFunctions globals
        (fs.map fun f => .function f.name f.params f.body) k).marks := by
  induction fs generalizing base k with
  | nil => cases h
  | cons f rest ih =>
      simp only [List.map_cons, emitFunctions] at hlaid ⊢
      rw [laid_append] at hlaid
      rcases List.mem_cons.1 h with rfl | h
      · refine ⟨f, List.mem_cons_self, base, k, rfl, ?_, ?_⟩
        · rw [functionRegion_marks]
          exact hlaid.1
        · rw [functionRegion_marks]
          exact List.subset_append_left _ _
      · obtain ⟨g, hg, base', k', hρ, hlaid', hsubset⟩ := ih hlaid.2 h
        exact ⟨g, List.mem_cons_of_mem _ hg, base', k', hρ, hlaid',
          List.subset_append_of_subset_right _ hsubset⟩

theorem exists_functionRegion (globals : List String) {fs : List FunctionDecl} {f : FunctionDecl}
    (hf : f ∈ fs) (base : Nat) (k : Counters) :
    ∃ base' k', functionRegion globals f base' k' ∈ functionRegions globals fs base k := by
  induction fs generalizing base k with
  | nil => cases hf
  | cons g rest ih =>
      rcases List.mem_cons.1 hf with rfl | hf
      · exact ⟨base, k, List.mem_cons_self⟩
      · obtain ⟨base', k', hmem⟩ := ih hf (base + width _) (emitFunction ..).counters
        exact ⟨base', k', List.mem_cons_of_mem _ hmem⟩

variable {program : Program} {sheet : Sheet} {r : Register} {image : Image}

/-- The main program is the only region that is not a function. -/
theorem eq_mainRegion {ρ : Region} (hρ : ρ ∈ program.regions) (h : ρ.function = none) :
    ρ = program.mainRegion := by
  rcases List.mem_cons.1 hρ with rfl | hρ
  · rfl
  · have hlaid := program.laid_marks
    rw [marks, laid_append, emitFunctions_eq] at hlaid
    rw [Nat.zero_add] at hlaid
    obtain ⟨f, -, base, k, rfl, -⟩ := of_mem_functionRegions hlaid.2 hρ
    cases h

theorem branches_subset {loop : Option LoopPlaces} {vars : String → Cell}
    (hvars : ∀ x, (vars x).isLiteral = false) (block : List Stmt) (k : Counters) {last : Mark}
    (hloop : loop = none) (hlast : last.branch? = none) :
    branches ((Stmt.emitBlock vars loop block k).marks ++ [last]) ⊆
      places ((Stmt.emitBlock vars loop block k).marks ++ [last]) := by
  subst hloop
  have hfits := Stmt.emitBlock_fits hvars none block k
  intro l hl
  rw [branches_append, List.mem_append] at hl
  rw [places_append, List.mem_append]
  rcases hl with hl | hl
  · exact .inl ((hfits.branches l hl).resolve_right (List.not_mem_nil))
  · simp [branches, hlast] at hl

theorem Spelled.formed_main (h : program.Spelled sheet r) :
    program.mainRegion.Formed program.code where
  laid := by
    have hlaid := program.laid_marks
    rw [marks, laid_append] at hlaid
    exact hlaid.1
  sound := by
    obtain ⟨k, hfits⟩ := program.marks_fits
    have hsound := hfits.sound
    rw [marks, List.all_append, Bool.and_eq_true] at hsound
    exact hsound.1
  branches := branches_subset (variableCell_not_literal program.globals none) _ _ rfl rfl
  accepted := fun hmem => h.accepted (List.mem_append_left _ hmem)
  last := ⟨_, _, rfl, Stmt.emitBlock_guarded none program.main {}, .inl ⟨rfl, rfl⟩⟩
  returns := by
    intro value address hmem
    simp only [mainRegion, List.mem_append, List.mem_singleton, reduceCtorEq, or_false] at hmem
    exact absurd hmem (h.returns value address)

theorem Spelled.formed_function (h : program.Spelled sheet r) {ρ : Region}
    (hρ : ρ ∈ functionRegions program.globals program.declared
      (width (program.emitMain.marks ++ [bare .hlt])) program.emitMain.counters) :
    ρ.Formed program.code ∧ ρ.body ⊆ program.marks := by
  have hlaid := program.laid_marks
  rw [marks, laid_append, emitFunctions_eq, Nat.zero_add] at hlaid
  obtain ⟨f, -, base, k, rfl, hbody, hsubset⟩ := of_mem_functionRegions hlaid.2 hρ
  have hmarks : (functionRegion program.globals f base k).header ++
      (functionRegion program.globals f base k).body ⊆ program.marks := by
    rw [marks, emitFunctions_eq]
    exact List.subset_append_of_subset_right _ hsubset
  have hin : (functionRegion program.globals f base k).body ⊆ program.marks :=
    fun m hm => hmarks (List.mem_append_right _ hm)
  refine ⟨⟨hbody, ?_, ?_, fun hmem => h.accepted (hin hmem), ?_, by simp [functionRegion]⟩, hin⟩
  · obtain ⟨k', hfits⟩ := program.marks_fits
    exact List.all_eq_true.2 fun m hm => List.all_eq_true.1 hfits.sound m (hmarks hm)
  · exact branches_subset (variableCell_not_literal program.globals (some (f.name, f.params))) _ _
      rfl rfl
  · exact ⟨_, _, rfl, Stmt.emitBlock_guarded none f.body k,
      .inr ⟨by simp [functionRegion], _, _, rfl⟩⟩

theorem Spelled.formed (h : program.Spelled sheet r) {ρ : Region} (hρ : ρ ∈ program.regions) :
    ρ.Formed program.code ∧ ρ.body ⊆ program.marks := by
  rcases List.mem_cons.1 hρ with rfl | hρ
  · exact ⟨h.formed_main, List.subset_append_left _ _⟩
  · exact h.formed_function hρ

/-- The regions of a program make up its code. -/
theorem Built.parted (h : program.Built r image) (config : Config) :
    (program.layout image config).Parted program.regions := by
  obtain ⟨⟨sheet, hspelled⟩, hassembled⟩ := h
  have hfits : program.code.length + r.cells.length ≤ 1000 := hassembled.fits
  obtain ⟨hsize, hlength⟩ := (hassembled.shows_start [] config).size hassembled
  refine ⟨fun ρ hρ => (hspelled.formed hρ).1, ⟨_, List.mem_cons_self, rfl, rfl⟩, ?_,
    fun _ _ hl => hassembled.place_eq config hl, ?_, ?_⟩
  · intro ρ hρ callee args result hcall
    obtain ⟨g, hg, rfl, hargs⟩ := hspelled.calls callee args result ((hspelled.formed hρ).2 hcall)
    obtain ⟨base, k, hmem⟩ := exists_functionRegion program.globals hg
      (width (program.emitMain.marks ++ [bare .hlt])) program.emitMain.counters
    exact ⟨_, List.mem_cons_of_mem _ hmem, _, rfl, by simp [hargs]⟩
  · change program.code.length ≤ _
    omega
  · change program.code.length < _
    omega

/-- The first state is safe. -/
theorem safe_start (h : program.Built r image) (inputs : List Word) :
    Safe program.regions [] (View.start inputs) := by
  obtain ⟨⟨sheet, hspelled⟩, -⟩ := h
  have hmem : program.mainRegion ∈ program.regions := List.mem_cons_self
  exact ⟨fun value => rfl, hspelled.formed_main.point hmem (List.nil_append _).symm
    hspelled.formed_main.body_ne_nil rfl .main⟩

end Program
end LittleMan
