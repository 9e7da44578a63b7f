import LittleMan.Proofs.Blueprint.Labels

/-!
# Labels that clash

The labels that can clash are those that begin with the name of a function: a function
`a` with a variable `b_var_c` and a function `a_var_b` with a variable `c` have cells with
one label, and so have the variable `start` of a function `a` and the entry of a function
`a_var`.

`Program.labels_nodup_iff` says that these are the only clashes.  A compiled program is
therefore assembled, or is too large, exactly if its functions do not clash.
-/

namespace LittleMan

/-! ## Cells and places are distinct -/

namespace Program

variable {program : Program} {sheet : Sheet} {r : Register}

theorem Spelled.nodup_places (h : program.Spelled sheet r) : (Mark.places program.marks).Nodup := by
  obtain ⟨k, hfits⟩ := program.marks_fits
  obtain ⟨inner, hperm, hnodup, hinner⟩ := hfits.places
  refine hperm.nodup_iff.2 (List.nodup_append'.2 ⟨?_, hnodup, ?_⟩)
  · have hnames := h.distinct
    rw [show program.declared.map (fun f => Place.entry f.name) =
      (program.declared.map FunctionDecl.name).map Place.entry by simp]
    exact hnames.map fun a b hab => by simpa using hab
  · intro l hl hl'
    obtain ⟨f, -, rfl⟩ := List.mem_map.1 hl
    exact (hinner _ hl').1

theorem entry_mem_places (program : Program) {f : String} :
    .entry f ∈ Mark.places program.marks ↔ ∃ g ∈ program.declared, g.name = f := by
  obtain ⟨k, hfits⟩ := program.marks_fits
  obtain ⟨inner, hperm, -, hinner⟩ := hfits.places
  rw [hperm.mem_iff, List.mem_append, List.mem_map]
  constructor
  · rintro (⟨g, hg, heq⟩ | hl)
    · exact ⟨g, hg, by simpa using heq⟩
    · exact (hinner _ hl).1.elim
  · rintro ⟨g, hg, rfl⟩
    exact .inl ⟨g, hg, rfl⟩

/-! ## Clashes -/

/-- The variables that a function has for itself. -/
def locals (program : Program) (f : FunctionDecl) : List String :=
  f.params ++ (Stmt.assignedInBlock f.body).filter fun x => decide (x ∉ program.globals)

/-- The label of a variable of one function is also that of a variable or of the entry of
another. -/
def Clashes (program : Program) : Prop :=
  ∃ f ∈ program.declared, ∃ x ∈ program.locals f, ∃ g ∈ program.declared, g.name ≠ f.name ∧
    (f.name ++ "_var_" ++ x = g.name ++ "_start" ∨
      ∃ y ∈ program.locals g, f.name ++ "_var_" ++ x = g.name ++ "_var_" ++ y)

instance (program : Program) : Decidable program.Clashes :=
  inferInstanceAs (Decidable (∃ f ∈ program.declared, ∃ x ∈ program.locals f,
    ∃ g ∈ program.declared, g.name ≠ f.name ∧
      (f.name ++ "_var_" ++ x = g.name ++ "_start" ∨
        ∃ y ∈ program.locals g, f.name ++ "_var_" ++ x = g.name ++ "_var_" ++ y)))

theorem Spelled.mem_locals (h : program.Spelled sheet r) {f x : String} :
    .var (some f) x ∈ r.cells ↔ ∃ g ∈ program.declared, g.name = f ∧ x ∈ program.locals g := by
  rw [h.locals]
  simp [Program.locals]

theorem label_var (f x : String) :
    (Cell.var (some f) x).label = "func_" ++ (f ++ "_var_" ++ x) := by
  apply String.toList_injective
  simp [Cell.label, scopeStem, Scopes.variableName]

theorem label_entry (f : String) : (Place.entry f).label = "func_" ++ (f ++ "_start") := by
  simp [Place.label, String.append_assoc]

/-- Unless functions clash, all labels of a program are different. -/
theorem Spelled.labels_nodup_iff (h : program.Spelled sheet r) :
    (program.labels r).Nodup ↔ ¬ program.Clashes := by
  rw [labels, List.nodup_append']
  constructor
  · rintro ⟨-, hcells, hdisjoint⟩ ⟨f, hf, x, hx, g, hg, hne, hclash⟩
    have hvar : .var (some f.name) x ∈ r.cells := h.mem_locals.2 ⟨f, hf, rfl, hx⟩
    rcases hclash with hclash | ⟨y, hy, hclash⟩
    · have hentry : .entry g.name ∈ Mark.places program.marks :=
        program.entry_mem_places.2 ⟨g, hg, rfl⟩
      refine hdisjoint (List.mem_map_of_mem hentry) (List.mem_map.2 ⟨_, hvar, ?_⟩)
      rw [label_var, label_entry, hclash]
    · have hvar' : .var (some g.name) y ∈ r.cells := h.mem_locals.2 ⟨g, hg, rfl, hy⟩
      have hsame := List.inj_on_of_nodup_map hcells hvar hvar'
        (by rw [label_var, label_var, hclash])
      simp only [Cell.var.injEq, Option.some.injEq] at hsame
      exact hne hsame.1.symm
  · intro hclash
    refine ⟨?_, ?_, ?_⟩
    · refine List.Nodup.map_on (fun l hl l' hl' heq => ?_) h.nodup_places
      exact Place.label_injective (program.formed_of_mem_places hl)
        (program.formed_of_mem_places hl') heq
    · refine List.Nodup.map_on (fun c hc c' hc' heq => ?_) h.sound.nodup_cells
      rcases Cell.label_eq_cases heq with hsame | ⟨f, g, x, y, rfl, rfl⟩
      · exact hsame
      rw [label_var, label_var, String.append_right_inj] at heq
      obtain ⟨f, hf, rfl, hx⟩ := h.mem_locals.1 hc
      obtain ⟨g, hg, rfl, hy⟩ := h.mem_locals.1 hc'
      by_cases hne : g.name = f.name
      · rw [hne, String.append_right_inj] at heq
        rw [hne, heq]
      · exact absurd ⟨f, hf, x, hx, g, hg, hne, .inr ⟨y, hy, heq⟩⟩ hclash
    · intro label hplace hcell
      obtain ⟨l, hl, rfl⟩ := List.mem_map.1 hplace
      obtain ⟨c, hc, heq⟩ := List.mem_map.1 hcell
      obtain ⟨g, f, x, rfl, rfl⟩ :=
        Place.label_eq_cell (program.formed_of_mem_places hl) heq.symm
      rw [label_var, label_entry, String.append_right_inj] at heq
      obtain ⟨f, hf, rfl, hx⟩ := h.mem_locals.1 hc
      obtain ⟨g, hg, rfl⟩ := program.entry_mem_places.1 hl
      refine hclash ⟨f, hf, x, hx, g, hg, ?_, .inl heq⟩
      intro hne
      rw [hne, String.append_assoc, String.append_right_inj] at heq
      have hhead := congrArg (fun s => s.toList.take 2) heq
      simp at hhead

end Program

/-- A source that compiles is assembled, or is too large, exactly if its functions do not
clash; if they do, a label comes twice, and no other fault is found. -/
theorem assemble_compiled_iff {source : String} {takesNotes : Bool} {compilation : Compilation}
    {program : Program} (hparse : Program.parse source = .ok program)
    (hcompile : compile source takesNotes = .ok compilation) :
    (((∃ image, Image.assemble compilation.text = .ok image) ∨
        ∃ words, Image.assemble compilation.text = .error (.programTooLarge words)) ↔
      ¬ program.Clashes) ∧
    ((∃ line label firstLine, Image.assemble compilation.text =
        .error (.duplicateLabel line label firstLine)) ↔ program.Clashes) := by
  obtain ⟨program', hparse', hnamed, r, hspelled⟩ := Program.spelled_of_compile hcompile
  obtain rfl : program = program' := Except.ok.inj (hparse.symm.trans hparse')
  have htext : Image.assemble compilation.text = Image.assemble compilation.sheet.text := rfl
  rw [htext]
  rcases hspelled.assemble_cases hnamed with ⟨hnodup, hresult⟩ | ⟨htwice, line, label, first, hresult⟩
  · have hclash := hspelled.labels_nodup_iff.1 hnodup
    rcases hresult with ⟨image, hresult, -⟩ | ⟨words, hresult⟩ <;> simp [hresult, hclash]
  · have hclash : program.Clashes := by
      by_contra hno
      exact htwice (hspelled.labels_nodup_iff.2 hno)
    simp [hresult, hclash]

/-- Two functions whose parameters have cells with one label. -/
def clashingFunctions : String :=
  "function a(b_var_c)\nendfunction\nfunction a_var_b(c)\nendfunction\n"

theorem assemble_clashingFunctions :
    ∃ program compilation, Program.parse clashingFunctions = .ok program ∧
      compile clashingFunctions = .ok compilation ∧ program.Clashes ∧
      ∃ line label firstLine, Image.assemble compilation.text =
        .error (.duplicateLabel line label firstLine) := by
  have hclashes : (Program.parse clashingFunctions).toOption.any
      (fun program => decide program.Clashes) = true := by decide +kernel
  have hcompiles : (compile clashingFunctions).toOption.isSome = true := by decide +kernel
  cases hparse : Program.parse clashingFunctions with
  | error error => simp [hparse, Except.toOption] at hclashes
  | ok program =>
      cases hcompile : compile clashingFunctions with
      | error error => simp [hcompile, Except.toOption] at hcompiles
      | ok compilation =>
          have hclash : program.Clashes := by simpa [hparse, Except.toOption] using hclashes
          exact ⟨program, compilation, rfl, rfl, hclash,
            (assemble_compiled_iff hparse hcompile).2.2 hclash⟩

/-! ## Sources that are built -/

/-- The source is compiled, its functions do not clash, and its words fit into the memory. -/
def buildable (source : String) : Bool :=
  (Program.parse source).toOption.any (fun program => !decide program.Clashes) &&
    (compile source).toOption.any fun compilation =>
      decide (compilation.sheet.words.length ≤ Image.memoryLimit)

theorem exists_image_of_buildable {source : String} (h : buildable source = true) :
    ∃ image, build source = .ok image := by
  obtain ⟨hclash, hsize⟩ := Bool.and_eq_true_iff.1 h
  cases hcompile : compile source with
  | error error => simp [hcompile, Except.toOption] at hsize
  | ok compilation =>
      obtain ⟨program, hparse, hnamed, r, hspelled⟩ := Program.spelled_of_compile hcompile
      have hno : ¬ program.Clashes := by simpa [hparse, Except.toOption] using hclash
      have hfits : compilation.sheet.words.length ≤ Image.memoryLimit := by
        simpa [hcompile, Except.toOption] using hsize
      rcases hspelled.assemble_split hnamed with ⟨-, image, hok, -⟩ | ⟨-, hlarge, -⟩ | ⟨htwice, -⟩
      · exact ⟨image, by simp [build, hcompile, bind, Except.bind, Compilation.text, hok,
          Except.mapError]⟩
      · omega
      · exact absurd (hspelled.labels_nodup_iff.2 hno) htwice

end LittleMan
