import LittleMan.Proofs.Assembly.Assembling
import LittleMan.Proofs.Blueprint.Programs
import LittleMan.Proofs.Blueprint.Shape

/-!
# Compiled programs assembled

The sheet of a compiled program is read back as one instruction for every word of its
code and one for every cell.  All operands are labels that some instruction has.  So the
only things that can go wrong are a label that comes twice and a program that is too
large.  When neither happens, `Assembled` describes the image: where every place and
every cell stands, and what the words are.
-/

namespace LittleMan

open Mark

/-! ## The marks of a whole program -/

namespace Program

theorem variableCell_not_literal (globals : List String) (owner : Option (String × List String))
    (x : String) : (variableCell globals owner x).isLiteral = false := by
  cases owner with
  | none => rfl
  | some function =>
      simp only [variableCell]
      split
      · rfl
      · split <;> rfl

theorem emitFunction_fits (globals : List String) (name : String) (params : List String)
    (body : List Stmt) (k : Counters) :
    Fits [.entry name] k (emitFunction globals name params body k).counters []
      (emitFunction globals name params body k).marks := by
  have hparams : (params.reverse.map (Cell.var (some name))).all (fun c => !c.isLiteral) = true := by
    simp [Cell.isLiteral]
  have hentry : Fits [.entry name] k k []
      [.place (.entry name), .receive (params.reverse.map (.var (some name)))] :=
    .straight rfl (List.nil_subset _) (by simpa [isSound] using hparams)
  have hbody := Stmt.emitBlock_fits
    (variableCell_not_literal globals (some (name, params))) none body k
  have hreturn : ∀ k n, Fits [] k k [] [emitReturn (.literal 0) n] :=
    fun _ _ => .straight rfl (List.nil_subset _) rfl
  exact (hentry.append hbody).append ((hreturn _ _).later (Counters.before_taking _ 1))

theorem emitFunctions_fits (globals : List String) (stmts : List Stmt) (k : Counters) :
    Fits ((functionsOf stmts).map fun f => .entry f.name) k
      (emitFunctions globals stmts k).counters [] (emitFunctions globals stmts k).marks := by
  induction stmts generalizing k with
  | nil => exact .nil k []
  | cons stmt rest ih =>
      cases stmt with
      | function name params body =>
          exact (emitFunction_fits globals name params body k).append (ih _)
      | _ => exact ih k

/-- The places of a program are the entries of its functions and places with numbers. -/
theorem marks_fits (program : Program) :
    ∃ k, Fits (program.declared.map fun f => .entry f.name) {} k [] program.marks := by
  have hmain := Stmt.emitBlock_fits (variableCell_not_literal program.globals none) none
    program.main {}
  have hhalt : Fits [] program.emitMain.counters program.emitMain.counters [] [bare .hlt] :=
    .straight rfl (List.nil_subset _) rfl
  exact ⟨_, (hmain.append hhalt).append (emitFunctions_fits program.globals program.functions _)⟩

theorem emitFunctions_settled (globals : List String) (stmts : List Stmt) (k : Counters) :
    Settled (emitFunctions globals stmts k).marks := by
  induction stmts generalizing k with
  | nil => exact closed_nil.settled
  | cons stmt rest ih =>
      cases stmt with
      | function name params body =>
          have hentry : Settled [.place (.entry name),
              .receive (params.reverse.map (.var (some name)))] := by
            simp [Settled, Spaced, pendingAfter]
          have hreturn : ∀ n, Settled [emitReturn (.literal 0) n] := by
            simp [Settled, emitReturn, Spaced, pendingAfter]
          exact ((hentry.append (Stmt.emitBlock_settled none body k)).append (hreturn _)).append (ih _)
      | _ => exact ih k

theorem marks_settled (program : Program) : Settled program.marks :=
  ((Stmt.emitBlock_settled none program.main {}).append (settled_order _ _)).append
    (emitFunctions_settled program.globals program.functions _)

/-- The marks of a program stand in its code from the first word on. -/
theorem laid_marks (program : Program) : Laid program.code 0 program.marks := by
  have hpending := pending_marks program
  have hbegins : (({} : Tablet).lay program.marks).Begins program.code :=
    ⟨List.prefix_refl _, by simp [hpending]⟩
  have hspaced : Spaced (Option.isSome ({} : Tablet).pending) program.marks :=
    program.marks_settled.1
  exact (Tablet.laid_of_begins hspaced hbegins).2.1

end Program

/-! ## The words of the code -/

def Entry.order (entry : Entry) : Opcode × Target :=
  (entry.op, entry.target)

namespace Tablet

/-- The places on a tablet, the pending one last. -/
def named (t : Tablet) : List Place :=
  t.entries.filterMap Entry.place ++ t.pending.toList

theorem named_name (t : Tablet) (l : Place) : (t.name l).named = t.named ++ [l] := by
  cases hpending : t.pending <;> simp [named, name, settle, hpending]

theorem named_write (t : Tablet) (order : Opcode × Target) : (t.write order).named = t.named := by
  cases hpending : t.pending <;> simp [named, write, hpending]

theorem named_foldl_write (orders : List (Opcode × Target)) (t : Tablet) :
    (orders.foldl write t).named = t.named := by
  induction orders generalizing t with
  | nil => rfl
  | cons order rest ih => rw [List.foldl_cons, ih, named_write]

theorem named_lay (t : Tablet) (marks : List Mark) :
    (t.lay marks).named = t.named ++ places marks := by
  induction marks generalizing t with
  | nil => simp [places]
  | cons m rest ih =>
      rw [lay_cons, ih]
      cases m with
      | place l => simp [mark, named_name, places, place?]
      | _ => exact congrArg (· ++ places rest) (named_foldl_write _ t)

theorem orders_foldl_write (orders : List (Opcode × Target)) (t : Tablet) :
    (orders.foldl write t).entries.map Entry.order = t.entries.map Entry.order ++ orders := by
  induction orders generalizing t with
  | nil => simp
  | cons order rest ih =>
      rw [List.foldl_cons, ih]
      simp [write, Entry.order]

theorem orders_lay {t : Tablet} {marks : List Mark}
    (h : Spaced t.pending.isSome marks) :
    (t.lay marks).entries.map Entry.order =
      t.entries.map Entry.order ++ marks.flatMap Mark.orders := by
  induction marks generalizing t with
  | nil => simp
  | cons m rest ih =>
      rw [lay_cons]
      cases hplace : m.place? with
      | some l =>
          obtain rfl : m = .place l := by
            cases m <;> simp_all [place?]
          simp only [Spaced] at h
          have hpending : t.pending = none := by simpa using h.1
          rw [mark, ih (t := t.name l) h.2]
          simp [name, settle, hpending, Mark.orders]
      | none =>
          have hmark := mark_eq_foldl (t := t) hplace
          have hpending : (t.mark m).pending = none := by
            rw [hmark]
            exact pending_foldl_write (orders_ne_nil hplace) t
          have hrest : Spaced false rest := by
            cases m <;> simp_all [Spaced, place?]
          rw [ih (by simpa [hpending] using hrest), hmark, orders_foldl_write]
          simp

end Tablet

namespace Program

theorem places_code (program : Program) :
    program.code.filterMap Entry.place = places program.marks := by
  have hnamed := Tablet.named_lay {} program.marks
  simpa [Tablet.named, pending_marks program, code] using hnamed

theorem orders_code (program : Program) :
    program.code.map Entry.order = program.marks.flatMap Mark.orders := by
  have hspaced : Spaced (Option.isSome ({} : Tablet).pending) program.marks :=
    program.marks_settled.1
  simpa [code] using Tablet.orders_lay hspaced

end Program

/-! ## Legal orders -/

namespace Mark

/-- An order with an operand that belongs to it. -/
def isLegal : Opcode → Target → Bool
  | .pop, .none | .psh, .none | .ldaPc, .none | .ret, .none => true
  | op, target => isSimple op target

theorem isLegal_of_isSound {m : Mark} (h : m.isSound = true) :
    ∀ order ∈ m.orders, isLegal order.1 order.2 = true := by
  have hpushes : ∀ args : List Cell, ∀ order ∈ pushes args, isLegal order.1 order.2 = true := by
    intro args order horder
    obtain ⟨c, -, hc⟩ := List.mem_flatMap.1 horder
    rcases List.mem_cons.1 hc with rfl | hc
    · rfl
    · rw [List.mem_singleton.1 hc]
      rfl
  cases m with
  | place l => simp [orders]
  | order op target =>
      intro order horder
      rw [List.mem_singleton.1 horder]
      simp only [isSound] at h
      unfold isLegal
      split <;> first | rfl | exact h
  | call callee args result =>
      simp only [isSound] at h
      intro order horder
      simp only [orders, List.mem_append, List.mem_cons, List.not_mem_nil, or_false] at horder
      rcases horder with ((rfl | rfl | rfl) | horder) | rfl | rfl | rfl
      all_goals first | rfl | exact hpushes args _ horder | exact h
  | giveBack value address =>
      simp only [isSound] at h
      intro order horder
      simp only [orders, List.mem_cons, List.not_mem_nil, or_false] at horder
      rcases horder with rfl | rfl | rfl | rfl | rfl | rfl
      all_goals first | rfl | exact h
  | receive params =>
      simp only [isSound, List.all_eq_true] at h
      intro order horder
      rcases List.mem_cons.1 horder with rfl | horder
      · rfl
      · obtain ⟨c, hmem, hc⟩ := List.mem_flatMap.1 horder
        rcases List.mem_cons.1 hc with rfl | hc
        · rfl
        · rw [List.mem_singleton.1 hc]
          exact h c hmem
  | refused =>
      intro order horder
      rw [List.mem_singleton.1 horder]
      rfl

end Mark

/-! ## Labels -/

theorem Field.isLabel_of_isName {word : String} (h : Text.IsName word)
    (hunderscore : '_' ∈ word.toList) : Field.IsLabel word := by
  have hfield : Text.IsField word.toList := by
    refine Text.isField_of_plain (List.ne_nil_of_mem hunderscore) fun c hc => ?_
    exact ⟨Text.isBlank_eq_false (h c hc), Text.ne_slash (h c hc)⟩
  have hdigits : ∀ digits : List Char, '_' ∈ digits → Numeral.natural? digits = none := by
    intro digits hmem
    have hall : digits.all Numeral.isDigit = false := by
      rw [List.all_eq_false]
      exact ⟨'_', hmem, by decide⟩
    simp [Numeral.natural?, hall]
  have hnumeral : Word.parse? word = none := by
    have hinteger : Numeral.integer? word.toList = none := by
      unfold Numeral.integer?
      split
      · rename_i digits heq
        rw [hdigits digits (by simpa [heq] using hunderscore)]
        rfl
      · rename_i digits heq
        rw [hdigits digits (by simpa [heq] using hunderscore)]
        rfl
      · rw [hdigits _ hunderscore]
        rfl
    simp [Word.parse?, hinteger]
  exact ⟨hfield, by simp [Field.classify, Opcode.ofMnemonic?_eq_none hunderscore, hnumeral]⟩

/-- The names in a cell are names. -/
def Cell.Named : Cell → Prop
  | .var owner name => (∀ function, owner = some function → Text.IsName function) ∧ Text.IsName name
  | _ => True

theorem isName_append {first second : String} (h : Text.IsName first) (h' : Text.IsName second) :
    Text.IsName (first ++ second) := by
  intro c hc
  rw [String.toList_append, List.mem_append] at hc
  exact hc.elim (h c) (h' c)

theorem isName_toString (n : Nat) : Text.IsName (toString n) := by
  intro c hc
  have hdigits : c ∈ Nat.toDigits 10 n := by simpa using hc
  exact continuesName_of_isDigit (Nat.isDigit_of_mem_toDigits (by decide) (by decide) hdigits)

theorem Cell.isLabel_label {c : Cell} (h : c.Named) : Field.IsLabel c.label := by
  cases c with
  | literal value =>
      have hlabel := Item.literalName_toList value
      have hname : Text.IsName (Cell.literal value).label := by
        intro c hc
        rw [Cell.label, hlabel, List.mem_append, List.mem_append] at hc
        rcases hc with hc | hc | hc
        · exact (by decide : Text.IsName "literal_") c hc
        · split at hc
          · exact (by decide : Text.IsName "neg") c hc
          · cases hc
        · exact continuesName_of_isDigit (Nat.isDigit_of_mem_toDigits (by decide) (by decide) hc)
      exact Field.isLabel_of_isName hname (by rw [Cell.label, hlabel]; simp)
  | temporary n =>
      exact Field.isLabel_of_isName (isName_append (by decide) (isName_toString n))
        (by simp [Cell.label])
  | var owner name =>
      have hstem : Text.IsName (scopeStem owner) := by
        cases owner with
        | none => decide
        | some function => exact isName_append (by decide) (h.1 function rfl)
      have hvariable : Text.IsName (Scopes.variableName name) :=
        isName_append (by decide) h.2
      exact Field.isLabel_of_isName
        (isName_append (isName_append hstem (by decide)) hvariable)
        (by simp [Cell.label])

theorem Place.isLabel_label {l : Place} (h : l.Formed)
    (hnamed : ∀ function, l = .entry function → Text.IsName function) :
    Field.IsLabel l.label := by
  cases l with
  | point family n ending =>
      obtain ⟨-, hending⟩ : _ ∧ ending.toList.all Text.continuesName = true := by
        simpa [Formed, isEnding] using h
      have hstem : Text.IsName family.stem := by cases family <;> decide
      refine Field.isLabel_of_isName (isName_append (isName_append hstem (isName_toString n))
        (List.all_eq_true.1 hending)) ?_
      cases family <;> simp [Place.label, Family.stem]
  | entry function =>
      exact Field.isLabel_of_isName
        (isName_append (isName_append (by decide) (hnamed function rfl))
          (by decide))
        (by simp [Place.label])

/-! ## Names in a program -/

mutual

theorem Stmt.isName_of_mem_assigned {stmt : Stmt} (h : stmt.Named) {x : String}
    (hx : x ∈ stmt.assigned) : Text.IsName x := by
  match stmt, h with
  | .assign name value, h =>
      rw [List.mem_singleton.1 hx]
      exact h.1
  | .choose arms (some body), h =>
      rcases List.mem_append.1 hx with hx | hx
      · exact Stmt.isName_of_mem_assignedInArms h.1 hx
      · exact Stmt.isName_of_mem_assignedInBlock h.2 hx
  | .choose arms none, h =>
      rcases List.mem_append.1 hx with hx | hx
      · exact Stmt.isName_of_mem_assignedInArms h.1 hx
      · cases hx
  | .whileLoop condition body, h => exact Stmt.isName_of_mem_assignedInBlock h.2 hx
  | .untilLoop body condition, h => exact Stmt.isName_of_mem_assignedInBlock h.1 hx
  | .forLoop var first last body closing, h =>
      rcases List.mem_cons.1 hx with rfl | hx
      · exact h.1
      · exact Stmt.isName_of_mem_assignedInBlock h.2.2.2 hx
  | .switch .., _ => cases hx
  | .function .., _ => cases hx
  | .giveBack _, _ => cases hx
  | .leaveLoop, _ => cases hx
  | .nextPass, _ => cases hx
  | .evaluate _, _ => cases hx

theorem Stmt.isName_of_mem_assignedInBlock {block : List Stmt} (h : Stmt.AllNamed block)
    {x : String} (hx : x ∈ Stmt.assignedInBlock block) : Text.IsName x := by
  match block, h with
  | [], _ => cases hx
  | stmt :: rest, h =>
      rcases List.mem_append.1 hx with hx | hx
      · exact Stmt.isName_of_mem_assigned h.1 hx
      · exact Stmt.isName_of_mem_assignedInBlock h.2 hx

theorem Stmt.isName_of_mem_assignedInArms {arms : List (Expr × List Stmt)}
    (h : Stmt.ArmsNamed arms) {x : String} (hx : x ∈ Stmt.assignedInArms arms) :
    Text.IsName x := by
  match arms, h with
  | [], _ => cases hx
  | (condition, body) :: rest, h =>
      rcases List.mem_append.1 hx with hx | hx
      · exact Stmt.isName_of_mem_assignedInBlock h.2.1 hx
      · exact Stmt.isName_of_mem_assignedInArms h.2.2 hx

end

theorem named_of_mem_functionsOf {stmts : List Stmt} (h : ∀ stmt ∈ stmts, stmt.Named)
    {f : FunctionDecl} (hf : f ∈ functionsOf stmts) :
    (Stmt.function f.name f.params f.body).Named := by
  induction stmts with
  | nil => cases hf
  | cons stmt rest ih =>
      obtain ⟨hstmt, hrest⟩ := List.forall_mem_cons.1 h
      cases stmt with
      | function name params body =>
          rcases List.mem_cons.1 hf with rfl | hf
          · exact hstmt
          · exact ih hrest hf
      | _ => exact ih hrest hf

namespace Program

variable {program : Program} {sheet : Sheet} {r : Register}

theorem named_of_mem_declared (hnamed : ∀ stmt ∈ program.statements, stmt.Named)
    {f : FunctionDecl} (hf : f ∈ program.declared) :
    (Stmt.function f.name f.params f.body).Named :=
  named_of_mem_functionsOf (fun stmt hstmt => hnamed stmt (List.mem_of_mem_filter hstmt)) hf

theorem isName_of_mem_globals (hnamed : ∀ stmt ∈ program.statements, stmt.Named) {x : String}
    (hx : x ∈ program.globals) : Text.IsName x :=
  Stmt.isName_of_mem_assignedInBlock
    (Stmt.allNamed_iff.2 fun stmt hstmt => hnamed stmt (List.mem_of_mem_filter hstmt)) hx

theorem Spelled.named_cells (h : program.Spelled sheet r)
    (hnamed : ∀ stmt ∈ program.statements, stmt.Named) : ∀ c ∈ r.cells, c.Named := by
  intro c hc
  cases c with
  | literal value => trivial
  | temporary n => trivial
  | var owner x =>
      cases owner with
      | none => exact ⟨by simp, isName_of_mem_globals hnamed ((h.globals x).1 hc)⟩
      | some f =>
          obtain ⟨g, hg, rfl, hx⟩ := (h.locals f x).1 hc
          obtain ⟨hname, hparams, hbody⟩ := named_of_mem_declared hnamed hg
          refine ⟨fun function hfunction => Option.some.inj hfunction ▸ hname, ?_⟩
          rcases hx with hx | ⟨hx, -⟩
          · exact hparams x hx
          · exact Stmt.isName_of_mem_assignedInBlock hbody hx

/-- Every place in the code has a label that is read as one. -/
theorem isLabel_of_mem_places (hnamed : ∀ stmt ∈ program.statements, stmt.Named) {l : Place}
    (hl : l ∈ places program.marks) : Field.IsLabel l.label := by
  obtain ⟨k, hfits⟩ := program.marks_fits
  obtain ⟨inner, hperm, -, hinner⟩ := hfits.places
  rcases List.mem_append.1 (hperm.mem_iff.1 hl) with hl | hl
  · obtain ⟨g, hg, rfl⟩ := List.mem_map.1 hl
    refine Place.isLabel_label trivial fun function hfunction => ?_
    obtain rfl : g.name = function := by simpa using hfunction
    exact (named_of_mem_declared hnamed hg).1
  · refine Place.isLabel_label (hinner l hl).2 fun function hfunction => ?_
    subst hfunction
    exact (hinner _ hl).1.elim

/-- Wherever an order of the program goes, there is a place. -/
theorem Spelled.mem_places (h : program.Spelled sheet r) {op : Opcode} {l : Place}
    (horder : (op, .place l) ∈ program.marks.flatMap Mark.orders) : l ∈ places program.marks := by
  obtain ⟨k, hfits⟩ := program.marks_fits
  obtain ⟨inner, hperm, -, -⟩ := hfits.places
  obtain ⟨m, hm, hmem⟩ := List.mem_flatMap.1 horder
  cases m with
  | place l' => cases hmem
  | order op' target =>
      obtain ⟨rfl, rfl⟩ : op = op' ∧ target = .place l := by
        simpa [Mark.orders, eq_comm] using hmem
      have hbranch : l ∈ branches program.marks := List.mem_filterMap.2 ⟨_, hm, rfl⟩
      simpa using hfits.branches l hbranch
  | call callee args result =>
      have hpushes : (op, .place l) ∉ pushes args := by simp [pushes]
      obtain ⟨-, rfl⟩ : op = .bra ∧ l = .entry callee := by
        simp only [Mark.orders, List.mem_append, hpushes] at hmem
        simpa using hmem
      obtain ⟨g, hg, rfl, -⟩ := h.calls callee args result hm
      exact hperm.mem_iff.2 (List.mem_append_left _ (List.mem_map.2 ⟨g, hg, rfl⟩))
  | giveBack value address => simp [Mark.orders] at hmem
  | receive params => simp [Mark.orders, pops] at hmem
  | refused => simp [Mark.orders] at hmem

theorem order_mem_of_mem_code (program : Program) {entry : Entry} (h : entry ∈ program.code) :
    entry.order ∈ program.marks.flatMap Mark.orders := by
  rw [← program.orders_code]
  exact List.mem_map_of_mem h

theorem Spelled.cell_of_target (h : program.Spelled sheet r) {entry : Entry}
    (hentry : entry ∈ program.code) {c : Cell} (htarget : entry.target = .cell c) :
    c ∈ r.cells :=
  h.cells (List.mem_filterMap.2
    ⟨_, program.order_mem_of_mem_code hentry, by simp [Entry.order, htarget]⟩)

theorem Spelled.place_of_target (h : program.Spelled sheet r) {entry : Entry}
    (hentry : entry ∈ program.code) {l : Place} (htarget : entry.target = .place l) :
    l ∈ places program.marks := by
  have horder : (entry.op, .place l) ∈ program.marks.flatMap Mark.orders :=
    htarget ▸ program.order_mem_of_mem_code hentry
  exact h.mem_places horder

/-! ## Instructions -/

theorem Spelled.readable (h : program.Spelled sheet r)
    (hnamed : ∀ stmt ∈ program.statements, stmt.Named) :
    ∀ line ∈ sheet.lines.toList, line.Readable := by
  have hwords : ∀ word ∈ sheet.words, word.Readable := by
    rw [h.words]
    intro word hword
    rcases List.mem_append.1 hword with hword | hword
    · obtain ⟨entry, hentry, rfl⟩ := List.mem_map.1 hword
      constructor
      · intro label hlabel
        obtain ⟨l, hplace, rfl⟩ := Option.map_eq_some_iff.1 hlabel
        refine isLabel_of_mem_places hnamed ?_
        rw [← program.places_code]
        exact List.mem_filterMap.2 ⟨entry, hentry, hplace⟩
      · intro operand hoperand
        cases htarget : entry.target with
        | none => simp [htarget, Target.text?] at hoperand
        | cell c =>
            obtain rfl : c.label = operand := by simpa [htarget, Target.text?] using hoperand
            exact Cell.isLabel_label (h.named_cells hnamed c (h.cell_of_target hentry htarget))
        | place l =>
            obtain rfl : l.label = operand := by simpa [htarget, Target.text?] using hoperand
            exact isLabel_of_mem_places hnamed (h.place_of_target hentry htarget)
    · obtain ⟨c, hc, rfl⟩ := List.mem_map.1 hword
      exact Cell.isLabel_label (h.named_cells hnamed c hc)
  intro line hline
  cases hisWord : line.isWord with
  | true => exact hwords line (List.mem_filter.2 ⟨hline, hisWord⟩)
  | false =>
      cases line with
      | note text => exact h.notes text hline
      | _ => simp [SheetLine.isWord] at hisWord

theorem isLegal_line {entry : Entry} (h : Mark.isLegal entry.op entry.target = true) :
    entry.line.isLegal = true := by
  obtain ⟨place, op, target⟩ := entry
  cases op <;> cases target <;>
    simp_all [Mark.isLegal, Mark.isSimple, Entry.line, SheetLine.isLegal, Target.text?,
      Opcode.takesAddress]

theorem isLegal_of_mem_code (program : Program) {entry : Entry} (h : entry ∈ program.code) :
    Mark.isLegal entry.op entry.target = true := by
  obtain ⟨k, hfits⟩ := program.marks_fits
  obtain ⟨m, hm, hmem⟩ := List.mem_flatMap.1 (program.order_mem_of_mem_code h)
  exact Mark.isLegal_of_isSound (List.all_eq_true.1 hfits.sound m hm) entry.order hmem

/-- The instructions that the sheet is read as. -/
theorem Spelled.instructions (h : program.Spelled sheet r)
    (hnamed : ∀ stmt ∈ program.statements, stmt.Named) :
    ∃ lines instructions, FieldLine.readAll sheet.text = .ok lines ∧
      List.Forall₂ (fun line instruction => Instruction.ofLine line = .ok instruction)
        lines instructions ∧
      instructions.map Instruction.parts =
        (program.code.map Entry.line ++ r.cells.map Cell.line).map SheetLine.parts := by
  obtain ⟨lines, hread, hfields⟩ := FieldLine.readAll_text h.waiting (h.readable hnamed)
  have hlegal : ∀ word ∈ program.code.map Entry.line ++ r.cells.map Cell.line,
      word.isLegal = true := by
    intro word hword
    rcases List.mem_append.1 hword with hword | hword
    · obtain ⟨entry, hentry, rfl⟩ := List.mem_map.1 hword
      exact isLegal_line (program.isLegal_of_mem_code hentry)
    · obtain ⟨c, -, rfl⟩ := List.mem_map.1 hword
      rfl
  have hwords : lines.map FieldLine.fields =
      (program.code.map Entry.line ++ r.cells.map Cell.line).map SheetLine.fields := by
    rw [hfields, ← h.words]
    rfl
  obtain ⟨instructions, hinstructions, hparts⟩ := Instruction.ofLine_words hwords hlegal
  exact ⟨lines, instructions, hread, hinstructions, hparts⟩

/-! ## Images -/

/-- The labels of the words of a program, in the order of the words. -/
def labels (program : Program) (r : Register) : List String :=
  (places program.marks).map Place.label ++ r.cells.map Cell.label

/-- Where the places and the cells of a program stand in its image, and what its words
are. -/
structure Assembled (program : Program) (r : Register) (image : Image) : Prop where
  fits : program.code.length + r.cells.length ≤ Image.memoryLimit
  place : ∀ {a : Nat} {l : Place}, PlaceAt program.code a l →
    image.labels.find? l.label = some a
  cell : ∀ {i : Nat} {c : Cell}, r.cells[i]? = some c →
    image.labels.find? c.label = some (program.code.length + i)
  found : ∀ {name : String} {a : Nat}, image.labels.find? name = some a →
    (∃ l, PlaceAt program.code a l ∧ l.label = name) ∨
      ∃ i c, r.cells[i]? = some c ∧ a = program.code.length + i ∧ c.label = name
  memory : image.memory.toList =
    program.code.map (fun entry =>
      entry.op.encode (Image.resolve image.labels entry.target.operand)) ++
      r.cells.map Cell.initial
  instructions : image.instructions.toList.map Instruction.parts =
    (program.code.map Entry.line ++ r.cells.map Cell.line).map SheetLine.parts

theorem mem_code_of_getElem? {a : Nat} {entry : Entry} {instructions : List Instruction}
    (hparts : instructions.map Instruction.parts =
      (program.code.map Entry.line ++ r.cells.map Cell.line).map SheetLine.parts)
    (hget : program.code[a]? = some entry) :
    ∃ instruction, instructions[a]? = some instruction ∧
      instruction.parts = entry.line.parts := by
  have hlt := (List.getElem?_eq_some_iff.1 hget).1
  have heq := congrArg (·[a]?) hparts
  simp only [List.getElem?_map, List.map_append, List.map_map] at heq
  rw [List.getElem?_append_left (by simpa using hlt), List.getElem?_map, hget] at heq
  simpa using Option.map_eq_some_iff.1 heq

theorem cell_of_getElem? {i : Nat} {c : Cell} {instructions : List Instruction}
    (hparts : instructions.map Instruction.parts =
      (program.code.map Entry.line ++ r.cells.map Cell.line).map SheetLine.parts)
    (hget : r.cells[i]? = some c) :
    ∃ instruction, instructions[program.code.length + i]? = some instruction ∧
      instruction.parts = c.line.parts := by
  have heq := congrArg (·[program.code.length + i]?) hparts
  simp only [List.getElem?_map, List.map_append, List.map_map] at heq
  rw [List.getElem?_append_right (by simp)] at heq
  simp only [List.length_map, Nat.add_sub_cancel_left, List.getElem?_map, hget] at heq
  simpa using Option.map_eq_some_iff.1 heq

theorem labels_eq {instructions : List Instruction}
    (hparts : instructions.map Instruction.parts =
      (program.code.map Entry.line ++ r.cells.map Cell.line).map SheetLine.parts) :
    instructions.filterMap Instruction.label = program.labels r := by
  have hlabels : instructions.filterMap Instruction.label =
      (instructions.map Instruction.parts).filterMap Prod.fst := by
    rw [List.filterMap_map]
    rfl
  rw [hlabels, hparts, List.map_append, List.filterMap_append, labels, ← program.places_code]
  simp only [List.map_map, List.filterMap_map, List.map_filterMap]
  congr 1
  induction r.cells with
  | nil => rfl
  | cons c rest ih =>
      rw [List.filterMap_cons, List.map_cons]
      exact congrArg (c.label :: ·) ih

theorem placeAt_of_mem (program : Program) {l : Place} (hl : l ∈ places program.marks) :
    ∃ a, PlaceAt program.code a l := by
  rw [← program.places_code] at hl
  obtain ⟨entry, hentry, hplace⟩ := List.mem_filterMap.1 hl
  obtain ⟨a, hget⟩ := List.getElem?_of_mem hentry
  exact ⟨a, entry, hget, hplace⟩

section Collected

variable {instructions : List Instruction} {table : Labels}

theorem find?_place (hindexes : table.Indexes instructions)
    (hparts : instructions.map Instruction.parts =
      (program.code.map Entry.line ++ r.cells.map Cell.line).map SheetLine.parts)
    {a : Nat} {l : Place} (hl : PlaceAt program.code a l) : table.find? l.label = some a := by
  obtain ⟨entry, hget, hplace⟩ := hl
  obtain ⟨instruction, hinstruction, hentry⟩ := mem_code_of_getElem? hparts hget
  refine (hindexes _ _).2 ⟨instruction, hinstruction, ?_⟩
  have hlabel : instruction.label = entry.place.map Place.label := congrArg Prod.fst hentry
  simp [hlabel, hplace]

theorem find?_cell (hindexes : table.Indexes instructions)
    (hparts : instructions.map Instruction.parts =
      (program.code.map Entry.line ++ r.cells.map Cell.line).map SheetLine.parts)
    {i : Nat} {c : Cell} (hc : r.cells[i]? = some c) :
    table.find? c.label = some (program.code.length + i) := by
  obtain ⟨instruction, hinstruction, hcell⟩ := cell_of_getElem? hparts hc
  exact (hindexes _ _).2 ⟨instruction, hinstruction, congrArg Prod.fst hcell⟩

/-- All operands of a program are known. -/
theorem Spelled.resolved (h : program.Spelled sheet r) (hindexes : table.Indexes instructions)
    (hparts : instructions.map Instruction.parts =
      (program.code.map Entry.line ++ r.cells.map Cell.line).map SheetLine.parts)
    (hfits : instructions.length ≤ Image.memoryLimit) :
    ∀ instruction ∈ instructions, Image.Resolved table instruction := by
  have hlimit : ∀ {name a}, table.find? name = some a → a < Image.memoryLimit :=
    fun hfind => (hindexes.lt_length hfind).trans_le hfits
  intro instruction hinstruction
  have hmem : instruction.parts ∈
      (program.code.map Entry.line ++ r.cells.map Cell.line).map SheetLine.parts := by
    rw [← hparts]
    exact List.mem_map_of_mem hinstruction
  obtain ⟨word, hword, heq⟩ := List.mem_map.1 hmem
  have hoperand : instruction.operand = word.parts.2.2 := congrArg (·.2.2) heq.symm
  unfold Image.Resolved
  rw [hoperand]
  rcases List.mem_append.1 hword with hword | hword
  · obtain ⟨entry, hentry, rfl⟩ := List.mem_map.1 hword
    cases htarget : entry.target with
    | none => simp [Entry.line, SheetLine.parts, htarget, Target.text?]
    | cell c =>
        obtain ⟨i, hi⟩ := List.getElem?_of_mem (h.cell_of_target hentry htarget)
        have hfind := find?_cell hindexes hparts hi
        simpa [Entry.line, SheetLine.parts, htarget, Target.text?] using
          ⟨_, hfind, hlimit hfind⟩
    | place l =>
        obtain ⟨a, ha⟩ := program.placeAt_of_mem (h.place_of_target hentry htarget)
        have hfind := find?_place hindexes hparts ha
        simpa [Entry.line, SheetLine.parts, htarget, Target.text?] using
          ⟨_, hfind, hlimit hfind⟩
  · obtain ⟨c, -, rfl⟩ := List.mem_map.1 hword
    exact congrArg (·.2.1) heq.symm

theorem Spelled.assembled (h : program.Spelled sheet r)
    (hcollected : Image.Collected instructions table)
    (hparts : instructions.map Instruction.parts =
      (program.code.map Entry.line ++ r.cells.map Cell.line).map SheetLine.parts)
    (hfits : instructions.length ≤ Image.memoryLimit) :
    ∃ memory, Image.pack instructions.toArray table = .ok memory ∧
      program.Assembled r ⟨memory, table, instructions.toArray⟩ := by
  have hpack := Image.packAll_eq (h.resolved hcollected.indexes hparts hfits)
  refine ⟨_, by simp only [Image.pack, hpack, Except.map]; rfl, ?_⟩
  have hlength : instructions.length = program.code.length + r.cells.length := by
    simpa using congrArg List.length hparts
  refine ⟨hlength ▸ hfits, find?_place hcollected.indexes hparts,
    find?_cell hcollected.indexes hparts, ?_, ?_, hparts⟩
  · intro name a hfind
    obtain ⟨instruction, hget, hlabel⟩ := (hcollected.indexes name a).1 hfind
    have hlt := (List.getElem?_eq_some_iff.1 hget).1
    by_cases hcode : a < program.code.length
    · obtain ⟨other, hother, hentry⟩ := mem_code_of_getElem? hparts
        (List.getElem?_eq_getElem hcode)
      obtain rfl : instruction = other := Option.some.inj (hget.symm.trans hother)
      have hplace : (program.code[a].place).map Place.label = some name :=
        (congrArg Prod.fst hentry).symm.trans hlabel
      obtain ⟨l, hl, rfl⟩ := Option.map_eq_some_iff.1 hplace
      exact .inl ⟨l, ⟨_, List.getElem?_eq_getElem hcode, hl⟩, rfl⟩
    · have hcell : a - program.code.length < r.cells.length := by omega
      obtain ⟨other, hother, hentry⟩ := cell_of_getElem? hparts (List.getElem?_eq_getElem hcell)
      rw [Nat.add_sub_of_le (Nat.not_lt.1 hcode)] at hother
      obtain rfl : instruction = other := Option.some.inj (hget.symm.trans hother)
      have hname : some r.cells[a - program.code.length].label = some name :=
        (congrArg Prod.fst hentry).symm.trans hlabel
      exact .inr ⟨_, _, List.getElem?_eq_getElem hcell, by omega, Option.some.inj hname⟩
  · have hmap : instructions.map (fun instruction =>
        instruction.opcode.encode (Image.resolve table instruction.operand)) =
        (instructions.map Instruction.parts).map (fun parts =>
          parts.2.1.encode (Image.resolve table parts.2.2)) := by
      rw [List.map_map]
      rfl
    rw [List.toList_toArray, hmap, hparts, List.map_append, List.map_append, List.map_map,
      List.map_map, List.map_map, List.map_map]
    congr 1
    refine List.map_congr_left fun entry _ => ?_
    cases htarget : entry.target <;>
      simp [Entry.line, SheetLine.parts, htarget, Target.text?, Target.operand]

end Collected

/-- What becomes of the sheet of a program when it is assembled, by the number of its
words. -/
theorem Spelled.assemble_split (h : program.Spelled sheet r)
    (hnamed : ∀ stmt ∈ program.statements, stmt.Named) :
    ((program.labels r).Nodup ∧ ∃ image, Image.assemble sheet.text = .ok image ∧
        program.Assembled r image) ∨
      ((program.labels r).Nodup ∧ Image.memoryLimit < sheet.words.length ∧
        Image.assemble sheet.text = .error (.programTooLarge sheet.words.length)) ∨
      (¬ (program.labels r).Nodup ∧
        ∃ line label first,
          Image.assemble sheet.text = .error (.duplicateLabel line label first)) := by
  obtain ⟨lines, instructions, hread, hinstructions, hparts⟩ := h.instructions hnamed
  have hassemble : Image.assemble sheet.text = (do
      let collected ← Image.collect lines
      let memory ← Image.pack collected.1 collected.2
      return { memory, labels := collected.2, instructions := collected.1 }) := by
    rw [Image.assemble, hread]
    rfl
  have hlength : instructions.length = sheet.words.length := by
    rw [h.words]
    simpa using congrArg List.length hparts
  have hcases := Image.collect_cases hinstructions
  rw [hassemble, ← labels_eq hparts]
  generalize Image.collect lines = result at hcases ⊢
  cases hcases with
  | ok collected fits =>
      obtain ⟨memory, hpack, hassembled⟩ := h.assembled collected hparts fits
      refine .inl ⟨collected.nodup, _, ?_, hassembled⟩
      simp [bind, Except.bind, pure, Except.pure, hpack]
  | tooLarge large nodup =>
      rw [hlength] at large ⊢
      exact .inr (.inl ⟨nodup, large, rfl⟩)
  | duplicate line label first twice => exact .inr (.inr ⟨twice, line, label, first, rfl⟩)

/-- What becomes of the sheet of a program when it is assembled. -/
theorem Spelled.assemble_cases (h : program.Spelled sheet r)
    (hnamed : ∀ stmt ∈ program.statements, stmt.Named) :
    ((program.labels r).Nodup ∧
      ((∃ image, Image.assemble sheet.text = .ok image ∧ program.Assembled r image) ∨
        ∃ n, Image.assemble sheet.text = .error (.programTooLarge n))) ∨
      (¬ (program.labels r).Nodup ∧
        ∃ line label first,
          Image.assemble sheet.text = .error (.duplicateLabel line label first)) := by
  rcases h.assemble_split hnamed with ⟨hnodup, hok⟩ | ⟨hnodup, -, hlarge⟩ | htwice
  · exact .inl ⟨hnodup, .inl hok⟩
  · exact .inl ⟨hnodup, .inr ⟨_, hlarge⟩⟩
  · exact .inr htwice

end Program
end LittleMan
