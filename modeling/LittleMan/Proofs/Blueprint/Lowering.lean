import LittleMan.Proofs.Names
import LittleMan.Proofs.Register

/-!
# The lowering writes the blueprint

`Lowering.Emits` relates a lowering to marks: if the draft follows a register and a
tablet, and the lowering succeeds, then the new draft follows a register that has
grown and the tablet with the marks laid on it.  Notes leave no trace.  The rule for
`bind` composes such facts, so that the proof for a construct walks along its `do`
block; a stretch of the block that only writes is one `Lowering.lay`.
-/

namespace LittleMan

/-! ## Sheets and tablets -/

def Target.text? : Target → Option String
  | .none => .none
  | .cell c => some c.label
  | .place l => some l.label

def Target.cell? : Target → Option Cell
  | .cell c => some c
  | _ => .none

@[simp] theorem Target.cell?_none : Target.none.cell? = .none := rfl

@[simp] theorem Target.cell?_cell (c : Cell) : (Target.cell c).cell? = some c := rfl

@[simp] theorem Target.cell?_place (l : Place) : (Target.place l).cell? = .none := rfl

def Entry.line (entry : Entry) : SheetLine :=
  .code (entry.place.map Place.label) entry.op entry.target.text?

/-- The lines of a sheet that take up a word. -/
def Sheet.words (sheet : Sheet) : List SheetLine :=
  sheet.lines.toList.filter SheetLine.isWord

structure Sheet.Shows (sheet : Sheet) (t : Tablet) : Prop where
  words : sheet.words = t.entries.map Entry.line
  waiting : sheet.waiting = t.pending.map Place.label
  notes : ∀ text, .note text ∈ sheet.lines.toList → '\n' ∉ text.toList

namespace Sheet

def order (sheet : Sheet) (o : Opcode × Target) : Sheet :=
  sheet.write o.1 o.2.text?

def mark (sheet : Sheet) : Mark → Sheet
  | .place l => sheet.label l.label
  | m => m.orders.foldl order sheet

def lay (sheet : Sheet) (marks : List Mark) : Sheet :=
  marks.foldl mark sheet

theorem Shows.order {sheet : Sheet} {t : Tablet} (h : sheet.Shows t) (o : Opcode × Target) :
    (sheet.order o).Shows (t.write o) := by
  refine ⟨?_, rfl, by simpa [Sheet.order, Sheet.write] using h.notes⟩
  have hwords := h.words
  unfold Sheet.words at hwords ⊢
  simp [Sheet.order, Sheet.write, Tablet.write, hwords, h.waiting, Entry.line, SheetLine.isWord]

theorem Shows.orders {sheet : Sheet} {t : Tablet} (h : sheet.Shows t)
    (os : List (Opcode × Target)) :
    (os.foldl Sheet.order sheet).Shows (os.foldl Tablet.write t) := by
  induction os generalizing sheet t with
  | nil => exact h
  | cons o rest ih => exact ih (h.order o)

theorem Shows.label {sheet : Sheet} {t : Tablet} (h : sheet.Shows t) (l : Place) :
    (sheet.label l.label).Shows (t.name l) := by
  have hwords := h.words
  have hwaiting := h.waiting
  have hnotes := h.notes
  refine ⟨?_, rfl, ?_⟩
  · unfold Sheet.words at hwords ⊢
    unfold Sheet.label Sheet.settle Tablet.name Tablet.settle
    cases hpending : t.pending with
    | none => simp [hwaiting, hpending, hwords]
    | some waiting =>
        simp [hwaiting, hpending, hwords, SheetLine.isWord, Entry.line, Target.text?]
  · unfold Sheet.label Sheet.settle
    split <;> simpa using hnotes

theorem Shows.lay {sheet : Sheet} {t : Tablet} (h : sheet.Shows t) (marks : List Mark) :
    (sheet.lay marks).Shows (t.lay marks) := by
  induction marks generalizing sheet t with
  | nil => exact h
  | cons m rest ih =>
      refine ih ?_
      cases m with
      | place l => exact h.label l
      | order op target => exact h.orders _
      | call callee args result => exact h.orders _
      | giveBack value address => exact h.orders _
      | receive params => exact h.orders _
      | refused => exact h.orders _

theorem Shows.note {sheet : Sheet} {t : Tablet} (h : sheet.Shows t) {text : String}
    (htext : '\n' ∉ text.toList) : (sheet.note text).Shows t := by
  have hwords := h.words
  refine ⟨?_, ?_, ?_⟩
  · unfold Sheet.words at hwords ⊢
    unfold Sheet.note
    split <;> simp [Sheet.push, SheetLine.isWord, hwords]
  · unfold Sheet.note
    split <;> exact h.waiting
  · unfold Sheet.note
    split
    · intro other hother
      simp only [Sheet.push, Array.toList_push, List.mem_append, List.mem_singleton,
        SheetLine.note.injEq] at hother
      rcases hother with hold | rfl
      · exact h.notes other hold
      · exact htext
    · exact h.notes

end Sheet

/-- The cells that marks read or write. -/
def Mark.cells (marks : List Mark) : List Cell :=
  (marks.flatMap Mark.orders).filterMap fun o => o.2.cell?

namespace Mark

@[simp] theorem cells_nil : cells [] = [] := rfl

@[simp] theorem cells_append (first second : List Mark) :
    cells (first ++ second) = cells first ++ cells second := by
  simp [cells]

@[simp] theorem cells_place (l : Place) (rest : List Mark) :
    cells (.place l :: rest) = cells rest := rfl

@[simp] theorem cells_cell (op : Opcode) (c : Cell) (rest : List Mark) :
    cells (.order op (.cell c) :: rest) = c :: cells rest := rfl

@[simp] theorem cells_jump (op : Opcode) (l : Place) (rest : List Mark) :
    cells (.order op (.place l) :: rest) = cells rest := rfl

@[simp] theorem cells_bare (op : Opcode) (rest : List Mark) :
    cells (.order op .none :: rest) = cells rest := rfl

@[simp] theorem cells_copy (source dest : Cell) : cells (copy source dest) = [source, dest] := rfl

@[simp] theorem cells_sum (a b dest : Cell) : cells (sum a b dest) = [a, b, dest] := rfl

@[simp] theorem cells_difference (a b dest : Cell) :
    cells (difference a b dest) = [a, b, dest] := rfl

@[simp] theorem cells_anchor (l : Place) : cells (anchor l) = [] := rfl

/-- A mark that is neither a call nor a return nor the entry of a function. -/
def isPlain : Mark → Bool
  | .place _ | .order .. => true
  | _ => false

end Mark

/-! ## Drafts -/

/-- The part of a draft that a lowering leaves as it found it. -/
structure Around where
  loops : Loops
  scope : Nat
  routines : List (String × Routine)
  inFunction : Bool

def Draft.around (d : Draft) : Around where
  loops := d.loops
  scope := d.scope
  routines := d.routines
  inFunction := d.inFunction

structure Draft.Follows (d : Draft) (r : Register) (t : Tablet) : Prop where
  scopes : d.scopes = r.scopes
  sheet : d.sheet.Shows t
  sound : r.Sound
  scope : d.scope < r.sections.length

/-- What a mark may be where it stands: a call is of a known function with the right
number of arguments, only a function gives back, and nothing is refused. -/
def Around.Allows (γ : Around) : Mark → Prop
  | .call callee args _ =>
      ∃ routine, γ.routines.lookup callee = some routine ∧ args.length = routine.params.length
  | .giveBack _ _ => γ.inFunction = true
  | .refused => False
  | _ => True

/-- What is known of a register while section `s` is being lowered: the cells of
variables, the counters, and some of its cells. -/
structure Register.Meets (r : Register) (s : Nat) (vars : String → Cell) (k : Counters)
    (known : List Cell) : Prop where
  vars : ∀ x, r.cellAt s x = vars x
  counters : r.counters = k
  cells : known ⊆ r.cells

/-- The code of every function starts at the place of its entry. -/
def Around.Starts (γ : Around) : Prop :=
  ∀ callee routine, γ.routines.lookup callee = some routine →
    routine.start = (Place.entry callee).label

theorem Around.allows_of_isPlain (γ : Around) {marks : List Mark}
    (h : marks.all Mark.isPlain = true) : ∀ m ∈ marks, γ.Allows m := by
  intro m hm
  have hplain := List.all_eq_true.1 h m hm
  cases m <;> simp_all [Mark.isPlain, Around.Allows]

namespace Lowering

/-- A lowering, around which `γ` stands, emits marks and assigns to variables.  It
starts with counters and known cells, and `Q` tells what it gives back, and with which
counters and known cells it ends. -/
def Emits {α : Type} (γ : Around) (vars : String → Cell) (k : Counters) (known : List Cell)
    (x : Lowering α) (assigned : List String) (marks : List Mark)
    (Q : α → Counters → List Cell → Prop) : Prop :=
  ∀ ⦃d : Draft⦄ ⦃r : Register⦄ ⦃t : Tablet⦄ ⦃a : α⦄ ⦃d' : Draft⦄,
    d.Follows r t → d.around = γ → r.Meets γ.scope vars k known → x d = .ok (a, d') →
      ∃ r' k' known', d'.Follows r' (t.lay marks) ∧ d'.around = γ ∧
        r'.Meets γ.scope vars k' known' ∧ Register.Grows γ.scope assigned r r' ∧
        Mark.cells marks ⊆ r'.cells ∧ (∀ m ∈ marks, γ.Allows m) ∧ Q a k' known'

/-- The lowering gives back the label of a cell. -/
def Yields (c : Cell) (k : Counters) (known : List Cell) (label : String) (k' : Counters)
    (known' : List Cell) : Prop :=
  label = c.label ∧ k = k' ∧ c :: known = known'

/-- The lowering gives back nothing. -/
def Leaves (k : Counters) (known : List Cell) (_ : Unit) (k' : Counters) (known' : List Cell) :
    Prop :=
  k = k' ∧ known = known'

theorem bind_eq_ok {α β : Type} {x : Lowering α} {f : α → Lowering β} {d : Draft}
    {result : β × Draft} :
    (x >>= f) d = .ok result ↔ ∃ a d', x d = .ok (a, d') ∧ f a d' = .ok result := by
  show (StateT.bind x f) d = .ok result ↔ _
  unfold StateT.bind
  cases hx : x d with
  | error e => simp [bind, Except.bind]
  | ok pair =>
      obtain ⟨a, d'⟩ := pair
      simp [bind, Except.bind]

/-! ### Marks on the sheet -/

def lay (marks : List Mark) : Lowering Unit :=
  write (·.lay marks)

section Lay

variable {β : Type}

theorem lay_bind_lay (first second : List Mark) :
    (lay first >>= fun _ => lay second) = lay (first ++ second) := by
  funext d
  show Except.ok _ = Except.ok _
  simp [Sheet.lay]

theorem lay_bind_lay_bind (first second : List Mark) (f : Unit → Lowering β) :
    (lay first >>= fun _ => lay second >>= f) = lay (first ++ second) >>= f := by
  rw [← lay_bind_lay]
  rfl

theorem op_eq (code : Opcode) : op code = lay [.bare code] := rfl

theorem opTo_label (code : Opcode) (c : Cell) : opTo code c.label = lay [.order code (.cell c)] :=
  rfl

theorem opTo_place (code : Opcode) (l : Place) : opTo code l.label = lay [.jump code l] := rfl

theorem opTo_point (code : Opcode) (family : Family) (n : Nat) (ending : String) :
    opTo code (family.stem ++ toString n ++ ending) =
      lay [.jump code (.point family n ending)] := rfl

theorem opTo_spot (code : Opcode) (n : Nat) (ending : String) :
    opTo code ((Cell.temporary n).label ++ ending) = lay [.jump code (Mark.spot n ending)] := rfl

theorem label_point (family : Family) (n : Nat) (ending : String) :
    label (family.stem ++ toString n ++ ending) = lay [.place (.point family n ending)] := rfl

theorem label_spot (n : Nat) (ending : String) :
    label ((Cell.temporary n).label ++ ending) = lay [.place (Mark.spot n ending)] := rfl

theorem anchor_point (family : Family) (n : Nat) (ending : String) :
    anchor (family.stem ++ toString n ++ ending) =
      lay (Mark.anchor (.point family n ending)) := rfl

theorem anchor_spot (n : Nat) (ending : String) :
    anchor ((Cell.temporary n).label ++ ending) = lay (Mark.anchor (Mark.spot n ending)) := rfl

theorem copy_label (a b : Cell) : copy a.label b.label = lay (Mark.copy a b) := rfl

theorem binary_add (a b dest : Cell) :
    binary a.label .add b.label dest.label = lay (Mark.sum a b dest) := rfl

theorem binary_sub (a b dest : Cell) :
    binary a.label .sub b.label dest.label = lay (Mark.difference a b dest) := rfl

end Lay

variable {α β : Type} {γ : Around} {vars : String → Cell} {k k' : Counters}
  {known known' : List Cell} {assigned assigned' : List String}
  {marks marks' : List Mark}

namespace Emits

variable {P : α → Counters → List Cell → Prop} {Q : β → Counters → List Cell → Prop}

theorem bind {x : Lowering α} {f : α → Lowering β} (hx : Emits γ vars k known x assigned marks P)
    (hf : ∀ a k' known', P a k' known' → Emits γ vars k' known' (f a) assigned' marks' Q) :
    Emits γ vars k known (x >>= f) (assigned ++ assigned') (marks ++ marks') Q := by
  intro d r t b d'' hfollows haround hmeets hok
  obtain ⟨a, d', hxd, hfd⟩ := bind_eq_ok.1 hok
  obtain ⟨r', k', known', hfollows', haround', hmeets', hgrows, hcells, hallows, hP⟩ :=
    hx hfollows haround hmeets hxd
  obtain ⟨r'', k'', known'', hfollows'', haround'', hmeets'', hgrows', hcells', hallows', hQ⟩ :=
    hf a k' known' hP hfollows' haround' hmeets' hfd
  refine ⟨r'', k'', known'', ?_, haround'', hmeets'', hgrows.trans hgrows', ?_, ?_, hQ⟩
  · rwa [Tablet.lay_append]
  · rw [Mark.cells_append]
    exact List.append_subset.2 ⟨fun c hc => hgrows'.cells (hcells hc), hcells'⟩
  · intro m hm
    rcases List.mem_append.1 hm with hm | hm
    · exact hallows m hm
    · exact hallows' m hm

/-- A lowering that only asks for a cell or a label goes first. -/
theorem ask {x : Lowering α} {f : α → Lowering β} (hx : Emits γ vars k known x [] [] P)
    (hf : ∀ a k' known', P a k' known' → Emits γ vars k' known' (f a) assigned marks Q) :
    Emits γ vars k known (x >>= f) assigned marks Q :=
  hx.bind hf

theorem congr {x : Lowering α} (h : Emits γ vars k known x assigned' marks' P)
    (hassigned : assigned = assigned') (hmarks : marks = marks') :
    Emits γ vars k known x assigned marks P := by
  subst hassigned hmarks
  exact h

/-- Some of the known cells may be forgotten. -/
theorem mono {x : Lowering α} {P' : α → Counters → List Cell → Prop}
    (h : Emits γ vars k known x assigned marks P)
    (hP : ∀ a k' known', P a k' known' → ∃ known'' ⊆ known', P' a k' known'') :
    Emits γ vars k known x assigned marks P' := by
  intro d r t a d' hfollows haround hmeets hok
  obtain ⟨r', k', known', hfollows', haround', hmeets', hgrows, hcells, hallows, hp⟩ :=
    h hfollows haround hmeets hok
  obtain ⟨known'', hsubset, hp'⟩ := hP a k' known' hp
  exact ⟨r', k', known'', hfollows', haround',
    ⟨hmeets'.vars, hmeets'.counters, fun c hc => hmeets'.cells (hsubset hc)⟩, hgrows, hcells,
    hallows, hp'⟩

theorem pure {b : β} (hQ : Q b k known) :
    Emits γ vars k known (Pure.pure b : Lowering β) [] [] Q := by
  intro d r t b' d' hfollows haround hmeets hok
  obtain ⟨rfl, rfl⟩ : b = b' ∧ d = d' := by
    simpa [Pure.pure, StateT.pure, Except.pure] using hok
  exact ⟨r, k, known, hfollows, haround, hmeets, .refl hfollows.sound, by simp,
    by simp, hQ⟩

theorem refuse (error : CompileError) :
    Emits γ vars k known (refuse error : Lowering β) assigned marks Q := by
  intro d r t b d' hfollows haround hmeets hok
  cases hok

/-- A change of the sheet that shows on the tablet as marks. -/
theorem write {change : Sheet → Sheet}
    (hshows : ∀ {sheet : Sheet} {t : Tablet}, sheet.Shows t → (change sheet).Shows (t.lay marks))
    (hcells : Mark.cells marks ⊆ known) (hallows : ∀ m ∈ marks, γ.Allows m) :
    Emits γ vars k known (Lowering.write change) [] marks (Leaves k known) := by
  intro d r t b d' hfollows haround hmeets hok
  obtain rfl : { d with sheet := change d.sheet } = d' := by
    simpa [Lowering.write] using hok
  exact ⟨r, k, known, ⟨hfollows.scopes, hshows hfollows.sheet, hfollows.sound, hfollows.scope⟩,
    haround, hmeets, .refl hfollows.sound, fun c hc => hmeets.cells (hcells hc), hallows, rfl, rfl⟩

theorem note {text : String} {f : Unit → Lowering β} (htext : '\n' ∉ text.toList)
    (hf : Emits γ vars k known (f ()) assigned marks Q) :
    Emits γ vars k known (note text >>= f) assigned marks Q := by
  have hnote : Emits γ vars k known (Lowering.note text) [] [] (Leaves k known) :=
    write (fun hshows => hshows.note htext) (by simp) (by simp)
  refine hnote.ask ?_
  rintro _ _ _ ⟨rfl, rfl⟩
  exact hf

theorem lay (hcells : Mark.cells marks ⊆ known) (hplain : marks.all Mark.isPlain = true) :
    Emits γ vars k known (lay marks) [] marks (Leaves k known) :=
  write (fun hshows => hshows.lay marks) hcells (γ.allows_of_isPlain hplain)

/-- What was asked for first may be forgotten in the end. -/
theorem forget {x : Lowering Unit} (hx : Emits γ vars k known x assigned marks (Leaves k' known))
    (hknown : known' ⊆ known) :
    Emits γ vars k known x assigned marks (Leaves k' known') := by
  refine hx.mono ?_
  rintro _ _ _ ⟨rfl, rfl⟩
  exact ⟨known', hknown, rfl, rfl⟩

/-- Marks are laid, and what was asked for on the way may be forgotten. -/
theorem layLast (hmarks : marks' = marks) (hcells : Mark.cells marks ⊆ known)
    (hplain : marks.all Mark.isPlain = true) (hknown : known' ⊆ known) :
    Emits γ vars k known (Lowering.lay marks') [] marks (Leaves k known') := by
  subst hmarks
  exact (lay hcells hplain).forget hknown

/-- Marks are laid, and the lowering goes on. -/
theorem layThen {f : Unit → Lowering β} (hcells : Mark.cells marks ⊆ known)
    (hplain : marks.all Mark.isPlain = true)
    (hf : Emits γ vars k known (f ()) assigned marks' Q) :
    Emits γ vars k known (Lowering.lay marks >>= f) assigned (marks ++ marks') Q := by
  refine (lay hcells hplain).bind ?_
  rintro _ _ _ ⟨rfl, rfl⟩
  exact hf

/-- A lowering goes first, and marks are laid after it. -/
theorem thenLay {x : Lowering Unit}
    (hx : Emits γ vars k known x assigned marks (Leaves k' known))
    (hcells : Mark.cells marks' ⊆ known) (hplain : marks'.all Mark.isPlain = true)
    (hknown : known' ⊆ known) :
    Emits γ vars k known (x >>= fun _ => Lowering.lay marks') assigned (marks ++ marks')
      (Leaves k' known') := by
  refine congr (hx.bind ?_) (List.append_nil _).symm rfl
  rintro _ _ _ ⟨rfl, rfl⟩
  exact layLast rfl hcells hplain hknown

/-- A request to the table that the register answers. -/
theorem request {ask : Scopes → Nat → β × Scopes} (known' : List Cell) (answer : β)
    (next : Register → Register)
    (hask : ∀ {r : Register}, r.Sound → γ.scope < r.sections.length → r.counters = k →
      (∀ x, r.cellAt γ.scope x = vars x) →
      ask r.scopes γ.scope = (answer, (next r).scopes) ∧
        Register.Grows γ.scope assigned r (next r) ∧ (next r).counters = k' ∧
        known' ⊆ (next r).cells)
    (hQ : Q answer k' (known' ++ known)) :
    Emits γ vars k known (withScopes ask) assigned [] Q := by
  intro d r t a d' hfollows haround hmeets hok
  subst haround
  obtain ⟨hanswer, hgrows, hcounters, hcells⟩ :=
    hask hfollows.sound hfollows.scope hmeets.counters hmeets.vars
  unfold Lowering.withScopes at hok
  rw [hfollows.scopes] at hok
  change ask r.scopes d.scope = _ at hanswer
  rw [hanswer] at hok
  obtain ⟨rfl, rfl⟩ := Prod.mk.inj (Except.ok.inj hok)
  refine ⟨next r, k', known' ++ known, ⟨rfl, hfollows.sheet, hgrows.sound, ?_⟩, rfl,
    ⟨?_, hcounters, ?_⟩, hgrows, by simp, by simp, hQ⟩
  · rw [hgrows.length]
    exact hfollows.scope
  · intro x
    exact (hgrows.cellAt x).trans (hmeets.vars x)
  · exact List.append_subset.2 ⟨hcells, fun c hc => hgrows.cells (hmeets.cells hc)⟩

end Emits

section Requests

theorem literal_emits (v : Word) :
    Emits γ vars k known (literal v) [] [] (Yields (.literal v) k known) := by
  refine Emits.request [.literal v] (Cell.literal v).label
    (·.add 0 (.literal v)) ?_ ⟨rfl, rfl, rfl⟩
  intro r hsound hscope hcounters _
  refine ⟨Register.internLiteral_eq hsound v, Register.grows_literal hsound _ v, ?_, ?_⟩
  · rw [Register.counters_add, hcounters]
  · simpa using Register.mem_cells_add hsound.length_pos rfl

theorem temporary_emits :
    Emits γ vars k known temporary [] []
      (Yields (.temporary k.temporaries) (k.taking 1) known) := by
  refine Emits.request [.temporary k.temporaries]
    (Cell.temporary k.temporaries).label (·.newTemporary γ.scope) ?_ ⟨rfl, rfl, rfl⟩
  rintro r hsound hscope rfl _
  refine ⟨Register.freshTemporary_eq hsound hscope, Register.grows_newTemporary hsound hscope,
    Register.counters_add _ _ _, ?_⟩
  simpa [Register.newTemporary] using
    Register.mem_cells_add (r := r.count (r.counters.taking 1)) hscope rfl

theorem loopLabel_emits :
    Emits γ vars k known loopLabel [] [] fun id k' known' =>
      id = Family.loop.stem ++ toString k.loops ∧ { k with loops := k.loops + 1 } = k' ∧
        known = known' := by
  refine Emits.request [] ("loop_" ++ toString k.loops) (·.newLoop γ.scope) ?_
    ⟨rfl, rfl, rfl⟩
  rintro r hsound hscope rfl _
  exact ⟨Register.freshLoop_eq hsound hscope, Register.grows_newLoop hsound hscope,
    Register.counters_add _ _ _, by simp⟩

theorem ifLabel_emits :
    Emits γ vars k known ifLabel [] [] fun id k' known' =>
      id = Family.choice.stem ++ toString k.ifs ∧ { k with ifs := k.ifs + 1 } = k' ∧ known = known' := by
  refine Emits.request [] ("if_" ++ toString k.ifs) (·.newChoice γ.scope) ?_
    ⟨rfl, rfl, rfl⟩
  rintro r hsound hscope rfl _
  exact ⟨Register.freshIf_eq hsound hscope, Register.grows_newChoice hsound hscope,
    Register.counters_add _ _ _, by simp⟩

theorem assertNumber_emits :
    Emits γ vars k known assertNumber [] [] fun n k' known' =>
      n = k.asserts ∧ { k with asserts := k.asserts + 1 } = k' ∧ known = known' := by
  refine Emits.request [] k.asserts
    (fun r => r.count { r.counters with asserts := r.counters.asserts + 1 }) ?_ ⟨rfl, rfl, rfl⟩
  rintro r hsound _ rfl _
  exact ⟨rfl, Register.grows_count hsound _ le_rfl le_rfl le_rfl, rfl, by simp⟩

theorem target_emits (x : String) :
    Emits γ vars k known (target x) [x] [] (Yields (vars x) k known) := by
  refine Emits.request [vars x] (vars x).label (·.addVariable γ.scope x) ?_
    ⟨rfl, rfl, rfl⟩
  intro r hsound hscope hcounters hvars
  rw [← hvars x]
  refine ⟨Register.internVariable_eq hsound hscope x, Register.grows_addVariable hsound hscope x,
    ?_, ?_⟩
  · unfold Register.addVariable
    split
    · exact hcounters
    · rw [Register.counters_add, hcounters]
  · simpa using Register.mem_cells_addVariable hsound hscope x

theorem variableCell_emits (x : String) :
    Emits γ vars k known (variableCell x) [] [] (Yields (vars x) k known) := by
  intro d r t a d' hfollows haround hmeets hok
  subst haround
  unfold Lowering.variableCell at hok
  rw [hfollows.scopes, Register.lookup?_eq hfollows.sound hfollows.scope] at hok
  cases hvisible : r.visible d.scope x with
  | none =>
      rw [hvisible] at hok
      cases hok
  | some c =>
      rw [hvisible] at hok
      obtain ⟨rfl, rfl⟩ : c.label = a ∧ d = d' := by simpa using hok
      obtain rfl : vars x = c := by
        rw [← hmeets.vars x]
        simp [Register.cellAt, hvisible, Draft.around]
      have hcell : vars x ∈ r.cells := Register.mem_cells_of_visible hfollows.sound hvisible
      exact ⟨r, k, vars x :: known, hfollows, rfl,
        ⟨hmeets.vars, hmeets.counters, List.cons_subset.2 ⟨hcell, hmeets.cells⟩⟩,
        .refl hfollows.sound, by simp, by simp, rfl, rfl, rfl⟩

theorem routine_emits {name : String} {f : Routine → Lowering β}
    {Q : β → Counters → List Cell → Prop}
    (hf : ∀ routine, γ.routines.lookup name = some routine →
      Emits γ vars k known (f routine) assigned marks Q) :
    Emits γ vars k known (routine name >>= f) assigned marks Q := by
  intro d r t b d' hfollows haround hmeets hok
  obtain ⟨found, d₁, hfound, hrest⟩ := bind_eq_ok.1 hok
  unfold Lowering.routine at hfound
  cases hlookup : d.routines.lookup name with
  | none =>
      rw [hlookup] at hfound
      cases hfound
  | some known =>
      rw [hlookup] at hfound
      obtain ⟨rfl, rfl⟩ : known = found ∧ d = d₁ := by simpa using hfound
      refine hf known ?_ hfollows haround hmeets hrest
      rw [← haround]
      exact hlookup

end Requests

end Lowering
end LittleMan
