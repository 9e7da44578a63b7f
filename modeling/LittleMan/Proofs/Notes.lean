import LittleMan.Proofs.Clashes
import LittleMan.Proofs.Requests

/-!
# Notes change nothing

A program may be compiled with notes or without.  The lowering never looks at what is on
the sheet, so it does the same in both cases, and the sheet without notes is the other one
with the notes left out.  The assembler skips notes as well; they only count as lines.  So
the two texts give the same image, up to the numbers of lines that instructions and faults
carry.
-/

namespace LittleMan

/-! ## Assembling without line numbers -/

def FieldLine.unlined (line : FieldLine) : FieldLine :=
  { line with line := 0 }

def Instruction.unlined (instruction : Instruction) : Instruction :=
  { instruction with line := 0 }

def Image.unlined (image : Image) : Image :=
  { image with instructions := image.instructions.map Instruction.unlined }

namespace AssembleError

/-- The fault without the numbers of its lines. -/
def unlined : AssembleError → AssembleError
  | .malformedLine _ text => .malformedLine 0 text
  | .unknownOpcode _ word => .unknownOpcode 0 word
  | .missingOperand _ opcode => .missingOperand 0 opcode
  | .unexpectedOperand _ opcode operand => .unexpectedOperand 0 opcode operand
  | .duplicateLabel _ label _ => .duplicateLabel 0 label 0
  | .undefinedSymbol _ symbol => .undefinedSymbol 0 symbol
  | .operandOverflow _ operand => .operandOverflow 0 operand
  | .programTooLarge words => .programTooLarge words

/-- A result in which no line numbers are left. -/
def erase {α : Type} (forget : α → α) (result : Except AssembleError α) :
    Except AssembleError α :=
  (result.map forget).mapError unlined

theorem erase_bind {α β : Type} {forget : α → α} {forget' : β → β} {x : Except AssembleError α}
    {y : Except AssembleError α} {f : α → Except AssembleError β} {g : α → Except AssembleError β}
    (hx : x = erase forget y) (hf : ∀ a, f (forget a) = erase forget' (g a)) :
    (x >>= f) = erase forget' (y >>= g) := by
  subst hx
  cases y with
  | error error => rfl
  | ok a => exact hf a

theorem erase_eq_erase {α : Type} {forget : α → α} {x y : Except AssembleError α}
    (h : erase forget x = erase forget y) :
    (∃ a b, x = .ok a ∧ y = .ok b ∧ forget a = forget b) ∨
      ∃ error error', x = .error error ∧ y = .error error' ∧ error.unlined = error'.unlined := by
  cases x with
  | ok a =>
      cases y with
      | ok b => exact .inl ⟨a, b, rfl, rfl, Except.ok.inj h⟩
      | error error => cases h
  | error error =>
      cases y with
      | ok b => cases h
      | error error' => exact .inr ⟨error, error', rfl, rfl, Except.error.inj h⟩

end AssembleError

open AssembleError (erase erase_bind)

namespace Instruction

theorem splitOpcode_unlined (line : FieldLine) (labelled : Bool) (fields : List Field) :
    splitOpcode line.unlined labelled fields = erase id (splitOpcode line labelled fields) := by
  unfold splitOpcode
  split
  · rfl
  · rfl
  · split <;> rfl
  · rfl

theorem readOperand_unlined (line : FieldLine) (field : Option Field) :
    readOperand line.unlined field = erase id (readOperand line field) := by
  unfold readOperand
  split <;> rfl

theorem checkOperand_unlined (line : Nat) (op : Opcode) (operand : Operand) :
    checkOperand 0 op operand = erase id (checkOperand line op operand) := by
  unfold checkOperand
  split <;> split <;> rfl

theorem ofLine_unlined (line : FieldLine) :
    ofLine line.unlined = erase unlined (ofLine line) := by
  refine erase_bind (splitOpcode_unlined line _ _) fun split => ?_
  refine erase_bind (readOperand_unlined line split.2) fun operand => ?_
  exact erase_bind (checkOperand_unlined line.line split.1 operand) fun _ => rfl

end Instruction

namespace Image

theorem addLabel_unlined (instructions : Array Instruction) (labels : Labels)
    (instruction : Instruction) :
    addLabel (instructions.map Instruction.unlined) labels instruction.unlined =
      erase id (addLabel instructions labels instruction) := by
  unfold addLabel
  cases hlabel : instruction.label with
  | none => simp [Instruction.unlined, hlabel, erase, Except.map, Except.mapError]
  | some label =>
      simp only [Instruction.unlined, hlabel]
      cases hfirst : labels.find? label with
      | none => simp [erase, Except.map, Except.mapError]
      | some first =>
          cases hget : instructions[first]? <;>
            simp [hget, erase, Except.map, Except.mapError, AssembleError.unlined,
              Instruction.unlined]

def eraseCollected (collected : Array Instruction × Labels) : Array Instruction × Labels :=
  (collected.1.map Instruction.unlined, collected.2)

theorem collectFrom_unlined (lines : List FieldLine) (instructions : Array Instruction)
    (labels : Labels) :
    collectFrom (instructions.map Instruction.unlined) labels (lines.map FieldLine.unlined) =
      erase eraseCollected (collectFrom instructions labels lines) := by
  induction lines generalizing instructions labels with
  | nil =>
      simp only [List.map_nil, collectFrom, Array.size_map]
      split <;> rfl
  | cons line rest ih =>
      simp only [List.map_cons, collectFrom, Instruction.ofLine_unlined]
      cases Instruction.ofLine line with
      | error error => rfl
      | ok instruction =>
          simp only [erase, Except.map, Except.mapError, addLabel_unlined]
          cases addLabel instructions labels instruction with
          | error error => rfl
          | ok labels =>
              simp only [id_eq, ← Array.map_push]
              exact ih _ _

theorem operandValue_unlined (labels : Labels) (instruction : Instruction) :
    operandValue labels instruction.unlined = erase id (operandValue labels instruction) := by
  unfold operandValue
  cases hoperand : instruction.operand with
  | label name =>
      simp only [Instruction.unlined, hoperand]
      split <;> rfl
  | _ => simp [Instruction.unlined, hoperand, erase, Except.map, Except.mapError]

theorem packOne_unlined (labels : Labels) (instruction : Instruction) :
    packOne labels instruction.unlined = erase id (packOne labels instruction) := by
  refine erase_bind (operandValue_unlined labels instruction) fun value => ?_
  have hpack : ∀ fits : Bool,
      (if fits then pure (instruction.opcode.encode value) else throw (.operandOverflow 0 value)) =
        erase id (if fits then pure (instruction.opcode.encode value)
          else throw (.operandOverflow instruction.line value)) := by
    intro fits
    cases fits <;> rfl
  exact hpack _

theorem packAll_unlined (labels : Labels) (instructions : List Instruction) :
    packAll labels (instructions.map Instruction.unlined) =
      erase id (packAll labels instructions) := by
  induction instructions with
  | nil => rfl
  | cons instruction rest ih =>
      refine erase_bind (packOne_unlined labels instruction) fun word => ?_
      exact erase_bind ih fun words => rfl

theorem pack_unlined (instructions : Array Instruction) (labels : Labels) :
    pack (instructions.map Instruction.unlined) labels = erase id (pack instructions labels) := by
  rw [pack, Array.toList_map, packAll_unlined, pack]
  cases packAll labels instructions.toList <;> rfl

/-- The image of lines that have been read. -/
def ofLines (lines : List FieldLine) : Except AssembleError Image := do
  let (instructions, labels) ← collect lines
  let memory ← pack instructions labels
  return { memory, labels, instructions }

theorem assemble_eq_ofLines {source : String} {lines : List FieldLine}
    (h : FieldLine.readAll source = .ok lines) : assemble source = ofLines lines := by
  rw [assemble, h]
  rfl

theorem ofLines_unlined (lines : List FieldLine) :
    ofLines (lines.map FieldLine.unlined) = erase unlined (ofLines lines) := by
  have hcollect : collect (lines.map FieldLine.unlined) = erase eraseCollected (collect lines) := by
    simpa [collect] using collectFrom_unlined lines #[] .empty
  refine erase_bind hcollect fun collected => ?_
  exact erase_bind (pack_unlined collected.1 collected.2) fun memory => rfl

/-- Lines with the same fields give the same image, up to line numbers. -/
theorem ofLines_congr {lines lines' : List FieldLine}
    (h : lines.map FieldLine.fields = lines'.map FieldLine.fields) :
    erase unlined (ofLines lines) = erase unlined (ofLines lines') := by
  have hunlined : ∀ all : List FieldLine,
      all.map FieldLine.unlined = (all.map FieldLine.fields).map (FieldLine.mk 0) := by
    intro all
    rw [List.map_map]
    rfl
  rw [← ofLines_unlined, ← ofLines_unlined, hunlined, hunlined, h]

end Image

/-! ## Lowering without notes -/

def Draft.mute (d : Draft) : Draft :=
  { d with sheet := d.sheet.mute }

namespace Lowering

/-- The lowering does the same without notes. -/
def Mutes {α : Type} (x : Lowering α) : Prop :=
  ∀ d : Draft, x d.mute = (x d).map fun result => (result.1, result.2.mute)

theorem Mutes.bind {α β : Type} {x : Lowering α} {f : α → Lowering β} (hx : Mutes x)
    (hf : ∀ a, Mutes (f a)) : Mutes (x >>= f) := by
  intro d
  have hbind : ∀ e, (x >>= f) e = (x e).bind fun result => f result.1 result.2 := fun _ => rfl
  rw [hbind, hbind, hx]
  cases x d with
  | error error => rfl
  | ok result => exact hf result.1 result.2

theorem routine_mutes (name : String) : Mutes (routine name) := by
  intro d
  have hroutines : d.mute.routines = d.routines := rfl
  unfold routine
  rw [hroutines]
  cases d.routines.lookup name <;> rfl

theorem Draws.mutes {α : Type} {x : Lowering α} {values : List Word} (h : Draws x values) :
    Mutes x := by
  induction h with
  | bind _ _ hx hf => exact hx.bind hf
  | @write change silent =>
      intro d
      exact congrArg (fun sheet => Except.ok ((), { d with sheet })) (silent.mute d.sheet)
  | variableCell name =>
      intro d
      have hlookup : d.mute.scopes.lookup? d.mute.scope name = d.scopes.lookup? d.scope name := rfl
      unfold Lowering.variableCell
      rw [hlookup]
      cases d.scopes.lookup? d.scope name <;> rfl
  | routine name => exact routine_mutes name
  | inspect hsame _ hf =>
      intro d
      exact (congrFun (hsame d.mute d rfl) d.mute).trans (hf d d)
  | within _ hf => exact (routine_mutes _).bind fun _ => .bind (fun _ => rfl) fun _ => hf _
  | _ => exact fun _ => rfl

theorem enterRoutine_mutes (name : String) (params : List String) :
    Mutes (enterRoutine name params) := by
  intro d
  have hroutines : d.mute.routines = d.routines := rfl
  unfold enterRoutine
  simp only [hroutines]
  split <;> rfl

theorem enterRoutines_mutes (stmts : List Stmt) : Mutes (enterRoutines stmts) := by
  induction stmts with
  | nil => exact fun _ => rfl
  | cons stmt rest ih =>
      cases stmt with
      | function name params body => exact (enterRoutine_mutes name params).bind fun _ => ih
      | _ => exact ih

theorem declare_mute (declarations : List Declaration) (sheet : Sheet) :
    declarations.foldl Sheet.declare sheet.mute = (declarations.foldl Sheet.declare sheet).mute := by
  induction declarations generalizing sheet with
  | nil => rfl
  | cons declaration rest ih =>
      have hdeclare : sheet.mute.declare declaration = (sheet.declare declaration).mute :=
        (sheet.push_mute rfl).symm
      rw [List.foldl_cons, List.foldl_cons, hdeclare, ih]

theorem declareData_mutes : Mutes declareData := by
  intro d
  exact congrArg (fun sheet => Except.ok ((), { d with sheet }))
    (declare_mute d.scopes.allDeclarations d.sheet)

theorem program_mutes (p : Program) : Mutes (program p) := by
  rw [program_eq]
  exact (enterRoutines_mutes p.functions).bind fun _ =>
    (code_draws p).mutes.bind fun _ => declareData_mutes

end Lowering

/-! ## Compiling without notes -/

namespace Program

/-- Without notes a program compiles as it does with notes, to the sheet less its notes. -/
theorem compile_mute (program : Program) :
    program.compile false =
      (program.compile true).map fun noted => { noted with sheet := noted.sheet.mute } := by
  have hmute : Lowering.program program { sheet := { takesNotes := false } } =
      (Lowering.program program { sheet := { takesNotes := true } }).map
        fun result => (result.1, result.2.mute) :=
    Lowering.program_mutes program { sheet := { takesNotes := true } }
  rw [compile, compile, hmute]
  cases Lowering.program program { sheet := { takesNotes := true } } <;> rfl

/-- The text of a sheet without its notes is read as the same fields. -/
theorem Spelled.erase_assemble {program : Program} {sheet : Sheet} {r : Register}
    (h : program.Spelled sheet r) (hnamed : ∀ stmt ∈ program.statements, stmt.Named) :
    erase Image.unlined (Image.assemble sheet.text) =
      erase Image.unlined (Image.assemble sheet.mute.text) := by
  have hreadable := h.readable hnamed
  have hmute : ∀ line ∈ sheet.mute.lines.toList, line.Readable := by
    intro line hline
    have hwords : line ∈ sheet.words := by simpa [Sheet.mute] using hline
    exact hreadable line (List.mem_filter.1 hwords).1
  obtain ⟨read, hread, hfields⟩ := FieldLine.readAll_text h.waiting hreadable
  have hwaiting : sheet.mute.waiting = none := h.waiting
  obtain ⟨read', hread', hfields'⟩ := FieldLine.readAll_text hwaiting hmute
  rw [Image.assemble_eq_ofLines hread, Image.assemble_eq_ofLines hread']
  refine Image.ofLines_congr (hfields.trans (Eq.trans ?_ hfields'.symm))
  simp [Sheet.mute, Sheet.words]

end Program

/-- Notes change nothing: with them and without them a program that has been read is refused
for the same fault, or gives two texts that assemble to the same image or fail to assemble
for the same fault, where line numbers do not count. -/
theorem compile_notes {source : String} {program : Program}
    (hparse : Program.parse source = .ok program) :
    (∃ error, program.compile true = .error error ∧ program.compile false = .error error) ∨
      ∃ noted plain, program.compile true = .ok noted ∧ program.compile false = .ok plain ∧
        plain.sheet.lines.toList = noted.sheet.lines.toList.filter SheetLine.isWord ∧
        ((∃ image image', Image.assemble noted.text = .ok image ∧
            Image.assemble plain.text = .ok image' ∧
            image.memory = image'.memory ∧ image.labels = image'.labels ∧
            image.instructions.map Instruction.unlined =
              image'.instructions.map Instruction.unlined) ∨
          ∃ error error', Image.assemble noted.text = .error error ∧
            Image.assemble plain.text = .error error' ∧ error.unlined = error'.unlined) := by
  have hmute := program.compile_mute
  cases hnoted : program.compile true with
  | error error =>
      rw [hnoted] at hmute
      exact .inl ⟨error, rfl, hmute⟩
  | ok noted =>
      rw [hnoted] at hmute
      have hcompile : compile source true = .ok noted := by
        rw [compile, hparse]
        simp [hnoted, Except.mapError]
      obtain ⟨program', hparse', hnamed, r, hspelled⟩ := Program.spelled_of_compile hcompile
      obtain rfl : program' = program := Except.ok.inj (hparse'.symm.trans hparse)
      refine .inr ⟨noted, _, rfl, hmute, rfl, ?_⟩
      rcases AssembleError.erase_eq_erase (hspelled.erase_assemble hnamed) with
        ⟨image, image', himage, himage', hsame⟩ | hfailed
      · have hmemory : image.unlined.memory = image'.unlined.memory := congrArg Image.memory hsame
        have hlabels : image.unlined.labels = image'.unlined.labels := congrArg Image.labels hsame
        exact .inl ⟨image, image', himage, himage', hmemory, hlabels,
          congrArg Image.instructions hsame⟩
      · exact .inr hfailed

/-- A loop in a branch: labels wait while notes are written. -/
def nestedLoop : String :=
  "n = 3\nif n > 1 then\nwhile n > 0\nn = n - 1\nendwhile\nendif\nprint(n)\n"

theorem compile_notes_nestedLoop :
    ∃ program noted plain, Program.parse nestedLoop = .ok program ∧
      program.compile true = .ok noted ∧ program.compile false = .ok plain ∧
      plain.sheet.lines.size < noted.sheet.lines.size ∧
      ∃ image image', Image.assemble noted.text = .ok image ∧
        Image.assemble plain.text = .ok image' ∧ image.memory = image'.memory := by
  have hnotes : (compile nestedLoop).toOption.any
      (fun noted => decide (noted.sheet.words.length < noted.sheet.lines.size)) = true := by
    decide +kernel
  obtain ⟨image, hbuild⟩ : ∃ image, build nestedLoop = .ok image :=
    exists_image_of_buildable (by decide +kernel)
  cases hparse : Program.parse nestedLoop with
  | error error =>
      rw [compile, hparse] at hnotes
      cases hnotes
  | ok program =>
      rcases compile_notes hparse with
        ⟨error, herror, -⟩ | ⟨noted, plain, hnoted, hplain, hlines, hassemble⟩
      · simp only [compile, hparse, herror] at hnotes
        cases hnotes
      · have hcompile : compile nestedLoop = .ok noted := by
          simp only [compile, hparse, hnoted]
          rfl
        have hfewer : plain.sheet.lines.size < noted.sheet.lines.size := by
          rw [hcompile] at hnotes
          rw [← Array.length_toList, hlines]
          exact of_decide_eq_true hnotes
        refine ⟨program, noted, plain, rfl, hnoted, hplain, hfewer, ?_⟩
        rcases hassemble with ⟨image, image', hok, hok', hmemory, -⟩ | ⟨error, -, herror, -⟩
        · exact ⟨image, image', hok, hok', hmemory⟩
        · rw [build, hcompile] at hbuild
          change (Image.assemble noted.text).mapError _ = _ at hbuild
          rw [herror] at hbuild
          cases hbuild

end LittleMan
