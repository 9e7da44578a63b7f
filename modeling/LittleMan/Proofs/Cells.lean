import LittleMan.Proofs.Clashes
import LittleMan.Proofs.Requests

/-!
# One cell for every literal and every temporary

While a program is lowered, cells for literals and for temporaries are asked for from many
places and from every scope.  `Lowering.Asks` keeps the log of these requests with their
answers.  Every request for a value is answered with the label of that value, and no
temporary is handed out twice.  In the finished text each of these labels stands before one
cell only, and the instructions that use a value refer to the label of its cell.
-/

namespace LittleMan

/-- A request for a cell, with the label that it was answered with. -/
inductive CellRequest where
  | literal (value : Word) (label : String)
  | temporary (label : String)
deriving DecidableEq, Repr

namespace CellRequest

def values : List CellRequest → List Word
  | [] => []
  | .literal value _ :: log => value :: values log
  | .temporary _ :: log => values log

def handed : List CellRequest → List String
  | [] => []
  | .literal _ _ :: log => handed log
  | .temporary label :: log => label :: handed log

theorem values_append (log log' : List CellRequest) :
    values (log ++ log') = values log ++ values log' := by
  induction log with
  | nil => rfl
  | cons request log ih => cases request <;> simp [values, ih]

theorem mem_of_mem_values {value : Word} {log : List CellRequest} (h : value ∈ values log) :
    ∃ label, .literal value label ∈ log := by
  induction log with
  | nil => simp [values] at h
  | cons request log ih =>
      cases request with
      | temporary label =>
          obtain ⟨other, hmem⟩ := ih h
          exact ⟨other, .tail _ hmem⟩
      | literal value' label =>
          rcases List.mem_cons.1 h with rfl | hmem
          · exact ⟨label, .head _⟩
          · obtain ⟨other, hmem⟩ := ih hmem
            exact ⟨other, .tail _ hmem⟩

theorem handed_append (log log' : List CellRequest) :
    handed (log ++ log') = handed log ++ handed log' := by
  induction log with
  | nil => rfl
  | cons request log ih => cases request <;> simp [handed, ih]

end CellRequest

/-! ## The log of a lowering -/

namespace Lowering

/-- The steps of a lowering that ask neither for a literal nor for a temporary. -/
inductive Plain : {α : Type} → Lowering α → Prop
  | pure {α : Type} (a : α) : Plain (Pure.pure a : Lowering α)
  | write (change : Sheet → Sheet) : Plain (write change)
  | loopLabel : Plain loopLabel
  | ifLabel : Plain ifLabel
  | assertNumber : Plain assertNumber
  | target (name : String) : Plain (target name)
  | variableCell (name : String) : Plain (variableCell name)
  | routine (name : String) : Plain (routine name)
  | inspect : Plain (get : Lowering Draft)
  | loops (change : Loops → Loops) :
      Plain (modify fun draft => { draft with loops := change draft.loops } : Lowering Unit)
  | enterScope (routine : Routine) : Plain (enterScope routine)
  | leaveScope : Plain leaveScope
  | enterRoutine (name : String) (params : List String) : Plain (enterRoutine name params)
  | declareData : Plain declareData

/-- The lowering goes from one draft to another, gives a result, and makes the requests of
the log on its way. -/
inductive Asks : {α : Type} → Lowering α → Draft → List CellRequest → α → Draft → Prop
  | plain {α : Type} {x : Lowering α} {d d' : Draft} {a : α} (hplain : Plain x)
      (hok : x d = .ok (a, d')) : Asks x d [] a d'
  | literal (value : Word) (d : Draft) :
      Asks (literal value) d [.literal value (d.scopes.internLiteral value).1]
        (d.scopes.internLiteral value).1
        { d with scopes := (d.scopes.internLiteral value).2 }
  | temporary (d : Draft) :
      Asks temporary d [.temporary (d.scopes.freshTemporary d.scope).1]
        (d.scopes.freshTemporary d.scope).1
        { d with scopes := (d.scopes.freshTemporary d.scope).2 }
  | bind {α β : Type} {x : Lowering α} {f : α → Lowering β} {d d' d'' : Draft} {a : α} {b : β}
      {log log' : List CellRequest} (hx : Asks x d log a d') (hf : Asks (f a) d' log' b d'') :
      Asks (x >>= f) d (log ++ log') b d''

end Lowering

namespace Lowering

theorem withScopes_ok {α : Type} {ask : Scopes → Nat → α × Scopes} {d d' : Draft} {a answer : α}
    {scopes : Scopes} (hask : ask d.scopes d.scope = (answer, scopes))
    (hok : withScopes ask d = .ok (a, d')) : a = answer ∧ d' = { d with scopes } := by
  rw [withScopes, hask] at hok
  obtain ⟨rfl, rfl⟩ := Prod.mk.inj (Except.ok.inj hok)
  exact ⟨rfl, rfl⟩

theorem routine_ok {name : String} {d d' : Draft} {found : Routine}
    (hok : routine name d = .ok (found, d')) : d' = d ∧ (name, found) ∈ d.routines := by
  unfold routine at hok
  cases hlookup : d.routines.lookup name with
  | none =>
      rw [hlookup] at hok
      cases hok
  | some other =>
      rw [hlookup] at hok
      obtain ⟨rfl, rfl⟩ := Prod.mk.inj (Except.ok.inj hok)
      obtain ⟨before, after, heq, -⟩ := List.lookup_eq_some_iff.1 hlookup
      exact ⟨rfl, by simp [heq]⟩

end Lowering

structure Draft.Keeps (d : Draft) (r : Register) : Prop where
  scopes : d.scopes = r.scopes
  sound : r.Sound
  scope : d.scope < r.sections.length
  routines : ∀ entry ∈ d.routines, entry.2.scope < r.sections.length

/-- Between two registers the requests of the log have been made, and the literals of the
log have the given values. -/
structure Register.Answers (r r' : Register) (values : List Word) (log : List CellRequest) :
    Prop where
  items : ∀ i, r.items i ⊆ r'.items i
  asked : ∀ value, .literal value ∈ r'.items 0 → .literal value ∈ r.items 0 ∨ value ∈ values
  values : CellRequest.values log = values
  literals : ∀ value label, .literal value label ∈ log →
    label = (Cell.literal value).label ∧ .literal value ∈ r'.items 0
  handed : CellRequest.handed log =
    (List.range' r.counters.temporaries (CellRequest.handed log).length).map
      fun n => (Cell.temporary n).label
  count : r'.counters.temporaries = r.counters.temporaries + (CellRequest.handed log).length
  placed : ∀ n, r.counters.temporaries ≤ n → n < r'.counters.temporaries →
    ∃ s, .temporary n ∈ r'.items s

theorem Register.literal_of_mem_add {r : Register} {k : Counters} {s i : Nat}
    (hs : s < r.sections.length) {item : Item} (hitem : ∀ value, item ≠ .literal value)
    {value : Word} (h : .literal value ∈ ((r.count k).add s item).items i) :
    .literal value ∈ r.items i := by
  rcases (mem_items_add (r := r.count k) hs).1 h with hold | ⟨-, heq⟩
  · exact hold
  · exact absurd heq.symm (hitem value)

namespace Register.Answers

variable {r r' r'' : Register} {values values' : List Word} {log log' : List CellRequest}

theorem plain {s : Nat} {assigned : List String} (hgrows : Grows s assigned r r')
    (hliterals : ∀ value, .literal value ∈ r'.items 0 → .literal value ∈ r.items 0)
    (hcount : r'.counters.temporaries = r.counters.temporaries) : Answers r r' [] [] where
  items := hgrows.items
  values := rfl
  literals := by simp
  asked := fun value hmem => .inl (hliterals value hmem)
  handed := rfl
  count := hcount
  placed := by
    intro n hle hlt
    omega

theorem refl (h : r.Sound) : Answers r r [] [] :=
  plain (Grows.refl (s := 0) h) (fun _ hmem => hmem) rfl

theorem literal (h : r.Sound) (value : Word) :
    Answers r (r.add 0 (.literal value)) [value] [.literal value (Cell.literal value).label] where
  items := (grows_literal h 0 value).items
  values := rfl
  literals := by
    intro other label hmem
    obtain ⟨rfl, rfl⟩ : other = value ∧ label = (Cell.literal value).label := by
      simpa using hmem
    exact ⟨rfl, (mem_items_add h.length_pos).2 (.inr ⟨rfl, rfl⟩)⟩
  asked := by
    intro other hmem
    rcases (mem_items_add h.length_pos).1 hmem with hold | ⟨-, heq⟩
    · exact .inl hold
    · exact .inr (by simpa using heq)
  handed := rfl
  count := counters_add r 0 _ ▸ rfl
  placed := by
    intro n hle hlt
    rw [counters_add] at hlt
    omega

theorem temporary (h : r.Sound) {s : Nat} (hs : s < r.sections.length) :
    Answers r (r.newTemporary s) []
      [.temporary (Cell.temporary r.counters.temporaries).label] where
  items := (grows_newTemporary h hs).items
  values := rfl
  literals := by simp
  asked := fun _ hmem => .inl (literal_of_mem_add hs (by simp) hmem)
  handed := rfl
  count := by
    rw [newTemporary, counters_add]
    rfl
  placed := by
    intro n hle hlt
    have hn : n = r.counters.temporaries := by
      rw [newTemporary, counters_add] at hlt
      have hlt' : n < r.counters.temporaries + 1 := hlt
      omega
    subst hn
    exact ⟨s, (mem_items_add (r := r.count (r.counters.taking 1)) hs).2 (.inr ⟨rfl, rfl⟩)⟩

theorem trans (h : Answers r r' values log) (h' : Answers r' r'' values' log') :
    Answers r r'' (values ++ values') (log ++ log') where
  items := fun i _ hitem => h'.items i (h.items i hitem)
  values := by rw [CellRequest.values_append, h.values, h'.values]
  literals := by
    intro value label hmem
    rcases List.mem_append.1 hmem with hmem | hmem
    · obtain ⟨hlabel, hitem⟩ := h.literals value label hmem
      exact ⟨hlabel, h'.items 0 hitem⟩
    · exact h'.literals value label hmem
  asked := by
    intro value hmem
    rw [List.mem_append]
    rcases h'.asked value hmem with hmem | hasked
    · exact (h.asked value hmem).imp_right .inl
    · exact .inr (.inr hasked)
  handed := by
    rw [CellRequest.handed_append, List.length_append, ← List.range'_append_1, List.map_append,
      ← h.handed, ← h.count, ← h'.handed]
  count := by
    rw [h'.count, h.count, CellRequest.handed_append, List.length_append, Nat.add_assoc]
  placed := by
    intro n hle hlt
    by_cases hn : n < r'.counters.temporaries
    · obtain ⟨s, hs⟩ := h.placed n hle hn
      exact ⟨s, h'.items s hs⟩
    · exact h'.placed n (Nat.le_of_not_lt hn) hlt

end Register.Answers

namespace Draft.Keeps

variable {d : Draft} {r r' : Register}

theorem grown (h : d.Keeps r) {s : Nat} {assigned : List String}
    (hgrows : Register.Grows s assigned r r') : Keeps { d with scopes := r'.scopes } r' where
  scopes := rfl
  sound := hgrows.sound
  scope := hgrows.length ▸ h.scope
  routines := hgrows.length ▸ h.routines

theorem plainly {α : Type} {x : Lowering α} {a : α} {d' : Draft} (h : d.Keeps r)
    (hplain : Lowering.Plain x) (hok : x d = .ok (a, d')) (hkeeps : d'.Keeps r) :
    ∃ r' log, d'.Keeps r' ∧ Lowering.Asks x d log a d' ∧ r.Answers r' [] log :=
  ⟨r, [], hkeeps, .plain hplain hok, .refl h.sound⟩

theorem requested {α : Type} {ask : Scopes → Nat → α × Scopes} {answer a : α} {d' : Draft}
    (h : d.Keeps r) (hplain : Lowering.Plain (Lowering.withScopes ask))
    (hask : ask r.scopes d.scope = (answer, r'.scopes)) {assigned : List String}
    (hgrows : Register.Grows d.scope assigned r r')
    (hliterals : ∀ value, .literal value ∈ r'.items 0 → .literal value ∈ r.items 0)
    (hcount : r'.counters.temporaries = r.counters.temporaries)
    (hok : Lowering.withScopes ask d = .ok (a, d')) :
    ∃ r' log, d'.Keeps r' ∧ Lowering.Asks (Lowering.withScopes ask) d log a d' ∧
      r.Answers r' [] log := by
  obtain ⟨rfl, rfl⟩ := Lowering.withScopes_ok (h.scopes ▸ hask) hok
  exact ⟨r', [], h.grown hgrows, .plain hplain hok, .plain hgrows hliterals hcount⟩

end Draft.Keeps

theorem Register.counters_addVariable (r : Register) (s : Nat) (x : String) :
    (r.addVariable s x).counters = r.counters := by
  unfold addVariable
  split
  · rfl
  · exact counters_add r s _

namespace Lowering

open Register in
theorem Draws.asks {α : Type} {x : Lowering α} {values : List Word} (h : Draws x values) :
    ∀ {d : Draft} {r : Register} {a : α} {d' : Draft}, d.Keeps r → x d = .ok (a, d') →
      ∃ r' log, d'.Keeps r' ∧ Asks x d log a d' ∧ r.Answers r' values log := by
  induction h with
  | pure a =>
      intro d r a d' hd hok
      obtain ⟨-, rfl⟩ := Prod.mk.inj (Except.ok.inj hok)
      exact hd.plainly (.pure _) hok hd
  | refuse error values =>
      intro d r a d' hd hok
      cases hok
  | bind _ _ hx hf =>
      intro d r b d'' hd hok
      obtain ⟨a, d', hok, hok'⟩ := bind_eq_ok.1 hok
      obtain ⟨r', log, hd', hasks, hanswers⟩ := hx hd hok
      obtain ⟨r'', log', hd'', hasks', hanswers'⟩ := hf a hd' hok'
      exact ⟨r'', log ++ log', hd'', hasks.bind hasks', hanswers.trans hanswers'⟩
  | write change =>
      intro d r a d' hd hok
      obtain ⟨-, rfl⟩ := Prod.mk.inj (Except.ok.inj hok)
      exact hd.plainly (.write _) hok ⟨hd.scopes, hd.sound, hd.scope, hd.routines⟩
  | literal value =>
      intro d r a d' hd hok
      have hasks := Asks.literal value d
      have hask := internLiteral_eq hd.sound value
      rw [← hd.scopes] at hask
      rw [hask] at hasks
      obtain ⟨rfl, rfl⟩ := withScopes_ok hask hok
      exact ⟨_, _, hd.grown (grows_literal hd.sound 0 value), hasks, .literal hd.sound value⟩
  | temporary =>
      intro d r a d' hd hok
      have hasks := Asks.temporary d
      have hask := freshTemporary_eq hd.sound hd.scope
      rw [← hd.scopes] at hask
      rw [hask] at hasks
      obtain ⟨rfl, rfl⟩ := withScopes_ok hask hok
      exact ⟨_, _, hd.grown (grows_newTemporary hd.sound hd.scope), hasks,
        .temporary hd.sound hd.scope⟩
  | loopLabel =>
      intro d r a d' hd hok
      refine hd.requested .loopLabel (freshLoop_eq hd.sound hd.scope)
        (grows_newLoop hd.sound hd.scope) ?_ ?_ hok
      · exact fun _ hmem => literal_of_mem_add hd.scope (by simp) hmem
      · rw [newLoop, counters_add]
        rfl
  | ifLabel =>
      intro d r a d' hd hok
      refine hd.requested .ifLabel (freshIf_eq hd.sound hd.scope)
        (grows_newChoice hd.sound hd.scope) ?_ ?_ hok
      · exact fun _ hmem => literal_of_mem_add hd.scope (by simp) hmem
      · rw [newChoice, counters_add]
        rfl
  | assertNumber =>
      intro d r a d' hd hok
      have hask : r.scopes.nextAssert = (r.counters.asserts,
          (r.count { r.counters with asserts := r.counters.asserts + 1 }).scopes) := rfl
      exact hd.requested .assertNumber hask (grows_count hd.sound d.scope le_rfl le_rfl le_rfl)
        (fun _ hmem => hmem) rfl hok
  | target name =>
      intro d r a d' hd hok
      refine hd.requested (.target name) (internVariable_eq hd.sound hd.scope name)
        (grows_addVariable hd.sound hd.scope name) ?_ ?_ hok
      · intro value hmem
        unfold addVariable at hmem
        split at hmem
        · exact hmem
        · exact literal_of_mem_add (k := r.counters) hd.scope (by simp) hmem
      · rw [counters_addVariable]
  | variableCell name =>
      intro d r a d' hd hok
      have hsame : d' = d := by
        unfold Lowering.variableCell at hok
        split at hok
        · exact (Prod.mk.inj (Except.ok.inj hok)).2.symm
        · cases hok
      subst hsame
      exact hd.plainly (.variableCell name) hok hd
  | routine name =>
      intro d r a d' hd hok
      obtain ⟨rfl, -⟩ := routine_ok hok
      exact hd.plainly (.routine name) hok hd
  | inspect _ _ hf =>
      intro d r a d' hd hok
      obtain ⟨r', log, hd', hasks, hanswers⟩ := hf d hd hok
      exact ⟨r', log, hd', .bind (.plain .inspect rfl) hasks, hanswers⟩
  | loops change =>
      intro d r a d' hd hok
      obtain ⟨-, rfl⟩ := Prod.mk.inj (Except.ok.inj hok)
      exact hd.plainly (.loops change) hok ⟨hd.scopes, hd.sound, hd.scope, hd.routines⟩
  | within _ hf =>
      intro d r a d' hd hok
      obtain ⟨found, d₁, hroutine, hok⟩ := bind_eq_ok.1 hok
      obtain ⟨_, d₂, henter, hok⟩ := bind_eq_ok.1 hok
      obtain ⟨rfl, hmem⟩ := routine_ok hroutine
      obtain ⟨-, rfl⟩ := Prod.mk.inj (Except.ok.inj henter)
      have hinside : Draft.Keeps { d₁ with scope := found.scope, inFunction := true } r :=
        ⟨hd.scopes, hd.sound, hd.routines _ hmem, hd.routines⟩
      obtain ⟨r', log, hd', hasks, hanswers⟩ := hf found hinside hok
      exact ⟨r', log, hd', .bind (.plain (.routine _) hroutine)
        (.bind (.plain (.enterScope found) henter) hasks), hanswers⟩
  | leave =>
      intro d r a d' hd hok
      obtain ⟨-, rfl⟩ := Prod.mk.inj (Except.ok.inj hok)
      exact hd.plainly .leaveScope hok ⟨hd.scopes, hd.sound, hd.sound.length_pos, hd.routines⟩

theorem enterRoutines_asks {stmts : List Stmt} {d d' : Draft}
    (hok : enterRoutines stmts d = .ok ((), d')) : Asks (enterRoutines stmts) d [] () d' := by
  induction stmts generalizing d with
  | nil => exact .plain (.pure ()) hok
  | cons stmt rest ih =>
      cases stmt with
      | function name params body =>
          obtain ⟨_, d₁, henter, hrest⟩ := bind_eq_ok.1 hok
          exact .bind (.plain (.enterRoutine name params) henter) (ih hrest)
      | _ => exact ih hok

theorem program_asks {p : Program} {sheet : Sheet} {d : Draft}
    (hok : program p { sheet } = .ok ((), d)) :
    ∃ (r₀ r : Register) (log : List CellRequest), r₀.counters = {} ∧ r.Sound ∧
      d.scopes = r.scopes ∧ Asks (program p) { sheet } log () d ∧
      r₀.Answers r p.literals log ∧ ∀ value, .literal value ∈ r.items 0 → value ∈ p.literals := by
  rw [program_eq] at hok ⊢
  obtain ⟨_, d₁, henter, hok⟩ := bind_eq_ok.1 hok
  obtain ⟨_, d₂, hcode, hdata⟩ := bind_eq_ok.1 hok
  obtain ⟨r₀, hentered⟩ := (entered_nil rfl rfl).all henter
  have hscope : d₁.scope = 0 := by
    rw [hentered.rest]
    rfl
  have hkeeps : d₁.Keeps r₀ := by
    refine ⟨hentered.scopes, hentered.sound, hscope ▸ hentered.sound.length_pos, ?_⟩
    intro entry hentry
    have hlength : r₀.sections.length = (functionsOf p.functions).length + 1 := by
      simpa using congrArg List.length hentered.owners
    rw [hentered.routines, List.nil_append] at hentry
    obtain ⟨i, hi, rfl⟩ := List.mem_mapIdx.1 hentry
    simp only [routineOf, hlength]
    omega
  obtain ⟨r, log, hkeeps', hasks, hanswers⟩ := (code_draws p).asks hkeeps hcode
  obtain ⟨-, rfl⟩ := Prod.mk.inj (Except.ok.inj hdata)
  refine ⟨r₀, r, log, hentered.counters, hkeeps'.sound, hkeeps'.scopes, ?_, hanswers,
    fun value hmem => (hanswers.asked value hmem).resolve_left (hentered.literals 0 value)⟩
  have hrest : Asks (code p >>= fun _ => declareData) d₁ (log ++ []) () _ :=
    .bind hasks (.plain .declareData hdata)
  rw [List.append_nil] at hrest
  exact .bind (enterRoutines_asks henter) hrest

end Lowering

/-! ## The cells of a text -/

/-- Exactly one line of the text stands under the label, and it reserves a cell that holds
the value. -/
def FieldLine.OneCell (lines : List FieldLine) (label : String) (value : Word) : Prop :=
  (lines.map FieldLine.fields).filter (fun fields => fields.head? = some (.label label)) =
    [[.label label, .opcode .dat, .number value]]

def FieldLine.operand? (line : FieldLine) : Option String :=
  match line.fields with
  | [.opcode _, .label name] => some name
  | [.label _, .opcode _, .label name] => some name
  | _ => none

def Entry.literal? (entry : Entry) : Option Word :=
  match entry.target with
  | .cell (.literal value) => some value
  | _ => none

theorem Entry.operand?_line {entry : Entry} {line : FieldLine}
    (h : line.fields = entry.line.fields) : line.operand? = entry.target.text? := by
  obtain ⟨place, op, target⟩ := entry
  cases place <;> cases target <;>
    simp [FieldLine.operand?, h, Entry.line, SheetLine.fields, Target.text?]

theorem Entry.literal?_eq_some_iff {entry : Entry} {value : Word} :
    entry.literal? = some value ↔ entry.target = .cell (.literal value) := by
  unfold literal?
  split <;> simp_all

/-- The labels of literals and temporaries belong to one cell only. -/
def Cell.Singular : Cell → Prop
  | .var _ _ => False
  | _ => True

theorem Cell.eq_of_label_eq {c c' : Cell} (h : c.Singular) (heq : c'.label = c.label) :
    c' = c := by
  rcases Cell.label_eq_cases heq with rfl | ⟨f, g, x, y, rfl, rfl⟩
  · rfl
  · exact h.elim

namespace Program

variable {program : Program} {r : Register}

theorem code_head?_ne {c : Cell} (h : c.Singular) {entry : Entry} (hentry : entry ∈ program.code) :
    entry.line.fields.head? ≠ some (.label c.label) := by
  intro hhead
  cases hplace : entry.place with
  | none => simp [Entry.line, SheetLine.fields, hplace] at hhead
  | some l =>
      have hlabel : l.label = c.label := by
        simpa [Entry.line, SheetLine.fields, hplace] using hhead
      have hmem : l ∈ Mark.places program.marks := by
        rw [← program.places_code]
        exact List.mem_filterMap.2 ⟨entry, hentry, hplace⟩
      obtain ⟨g, f, x, -, rfl⟩ := Place.label_eq_cell (program.formed_of_mem_places hmem) hlabel
      exact h.elim

theorem oneCell (hsound : r.Sound) {lines : List FieldLine}
    (hlines : lines.map FieldLine.fields =
      (program.code.map Entry.line ++ r.cells.map Cell.line).map SheetLine.fields) {c : Cell}
    (hc : c ∈ r.cells) (hsingular : c.Singular) : FieldLine.OneCell lines c.label c.initial := by
  rw [FieldLine.OneCell, hlines, List.map_append, List.filter_append]
  have hcode : ((program.code.map Entry.line).map SheetLine.fields).filter
      (fun fields => fields.head? = some (.label c.label)) = [] := by
    rw [List.filter_eq_nil_iff]
    intro fields hfields
    rw [List.map_map] at hfields
    obtain ⟨entry, hentry, rfl⟩ := List.mem_map.1 hfields
    simpa using code_head?_ne hsingular hentry
  have hcells : r.cells.filter (fun c' => c'.label = c.label) = [c] := by
    have hsame : ∀ c' ∈ r.cells, decide (c'.label = c.label) = (c' == c) := by
      intro c' _
      by_cases heq : c' = c
      · simp [heq]
      · have hne : c'.label ≠ c.label := fun hlabel => heq (Cell.eq_of_label_eq hsingular hlabel)
        rw [decide_eq_false hne, beq_false_of_ne heq]
    rw [List.filter_congr hsame, List.filter_beq,
      List.count_eq_one_of_mem hsound.nodup_cells hc]
    rfl
  rw [hcode, List.nil_append, List.map_map, List.filter_map]
  have hhead : ∀ c' ∈ r.cells,
      ((fun fields : List Field => decide (fields.head? = some (.label c.label))) ∘
        (SheetLine.fields ∘ Cell.line)) c' = decide (c'.label = c.label) := by
    intro c' _
    simp [Cell.line, SheetLine.fields]
  rw [List.filter_congr hhead, hcells]
  rfl

theorem Spelled.text?_eq_literal_iff {sheet : Sheet} (h : program.Spelled sheet r) {entry : Entry}
    (hentry : entry ∈ program.code) {value : Word} :
    entry.target.text? = some (Scopes.literalName value.text) ↔ entry.literal? = some value := by
  rw [Entry.literal?_eq_some_iff]
  constructor
  · intro htext
    cases htarget : entry.target with
    | none => simp [htarget, Target.text?] at htext
    | cell c =>
        have hlabel : c.label = (Cell.literal value).label := by
          simpa [htarget, Target.text?, Cell.label] using htext
        obtain rfl : c = .literal value := Cell.eq_of_label_eq trivial hlabel
        rfl
    | place l =>
        have hlabel : l.label = (Cell.literal value).label := by
          simpa [htarget, Target.text?, Cell.label] using htext
        have hl := program.formed_of_mem_places (h.place_of_target hentry htarget)
        obtain ⟨g, f, x, -, hvar⟩ := Place.label_eq_cell hl hlabel
        cases hvar
  · intro htarget
    rw [htarget]
    rfl

/-- A line of the text refers to the label of a literal exactly where the code refers to the
literal itself. -/
theorem Spelled.operand?_eq_literal_iff {sheet : Sheet} (h : program.Spelled sheet r)
    {cells : List Cell} {lines : List FieldLine}
    (hlines : lines.map FieldLine.fields =
      (program.code.map Entry.line ++ cells.map Cell.line).map SheetLine.fields)
    (i : Nat) (value : Word) :
    lines[i]?.bind FieldLine.operand? = some (Scopes.literalName value.text) ↔
      program.code[i]?.bind Entry.literal? = some value := by
  have hfields := congrArg (·[i]?) hlines
  simp only [List.map_append, List.map_map, List.getElem?_map, List.getElem?_append,
    List.length_map] at hfields
  cases hline : lines[i]? with
  | none =>
      have hcode : program.code[i]? = none := by
        by_contra hcode
        obtain ⟨entry, hentry⟩ := Option.ne_none_iff_exists'.1 hcode
        rw [if_pos (List.getElem?_eq_some_iff.1 hentry).1, hline, hentry] at hfields
        cases hfields
      simp [hcode]
  | some line =>
      rw [hline] at hfields
      cases hentry : program.code[i]? with
      | some entry =>
          rw [if_pos (List.getElem?_eq_some_iff.1 hentry).1, hentry] at hfields
          rw [Option.bind_some, Option.bind_some, Entry.operand?_line (Option.some.inj hfields)]
          exact h.text?_eq_literal_iff (List.mem_of_getElem? hentry)
      | none =>
          -- Behind the code stand the cells, which refer to no label.
          rw [if_neg (Nat.not_lt.2 (List.getElem?_eq_none_iff.1 hentry)), Option.map_some,
            eq_comm, Option.map_eq_some_iff] at hfields
          obtain ⟨c, -, hcell⟩ := hfields
          have hnone : line.operand? = none := by
            simp [FieldLine.operand?, ← hcell, Cell.line, SheetLine.fields]
          simp [hnone]

end Program

theorem Register.Sound.literal_mem_items {r : Register} (h : r.Sound) {value : Word}
    (hline : (Cell.literal value).line ∈ r.cells.map Cell.line) : .literal value ∈ r.items 0 := by
  obtain ⟨c, hc, heq⟩ := List.mem_map.1 hline
  have hlabel : c.label = (Cell.literal value).label :=
    congrArg Declaration.label (SheetLine.data.inj heq)
  obtain rfl : c = .literal value := Cell.eq_of_label_eq trivial hlabel
  obtain ⟨s, item, hitem, hcell⟩ := Register.mem_cells.1 hc
  obtain rfl : item = .literal value := Item.cell?_injective hcell rfl
  obtain rfl := h.literals s value hitem
  exact hitem

/-- A temporary that is in one section of a register is declared in that scope only. -/
theorem Register.Sound.existsUnique_scope {r : Register} (h : r.Sound) {s n : Nat}
    (hitem : .temporary n ∈ r.items s) :
    ∃! s, ∃ declaration ∈ r.scopes.declarations s,
      declaration.label = (Cell.temporary n).label := by
  have hiff : ∀ i, (∃ declaration ∈ r.scopes.declarations i,
      declaration.label = (Cell.temporary n).label) ↔ .temporary n ∈ r.items i := by
    intro i
    constructor
    · rintro ⟨declaration, hmem, hlabel⟩
      have hline : .data declaration ∈ (r.sectionCells i).map Cell.line := by
        rw [← declarations_eq]
        exact List.mem_map_of_mem hmem
      obtain ⟨c, hc, heq⟩ := List.mem_map.1 hline
      obtain rfl := SheetLine.data.inj heq
      obtain rfl : c = .temporary n := Cell.eq_of_label_eq trivial hlabel
      obtain ⟨item, hitem, hcell⟩ := mem_sectionCells.1 hc
      obtain rfl : item = .temporary n := Item.cell?_injective hcell rfl
      exact hitem
    · intro hitem
      have hline : (Cell.temporary n).line ∈ (r.scopes.declarations i).map SheetLine.data := by
        rw [declarations_eq]
        exact List.mem_map_of_mem (mem_sectionCells.2 ⟨_, hitem, rfl⟩)
      obtain ⟨declaration, hmem, heq⟩ := List.mem_map.1 hline
      obtain rfl := SheetLine.data.inj heq
      exact ⟨_, hmem, rfl⟩
  refine ⟨s, (hiff s).2 hitem, fun i hi => ?_⟩
  exact h.temporaries i s n ((hiff i).1 hi) hitem

/-- One cell for every literal and one for every temporary.  The lowering of a program asks for
exactly the literals of its tree.  Each request for a value is answered with the label of that
value, and in the text one line stands under that label, which reserves a cell with the value.
A line refers to the label of a value exactly where the code uses the value, and all values that
the code uses have been asked for.  The temporaries that are handed out differ; each has one line
in the text, with the value zero, and is declared in one scope. -/
theorem compile_cells {source : String} {takesNotes : Bool} {compilation : Compilation}
    (hok : compile source takesNotes = .ok compilation) :
    ∃ program draft log lines, Program.parse source = .ok program ∧
      Lowering.program program { sheet := { takesNotes } } = .ok ((), draft) ∧
      draft.sheet = compilation.sheet ∧
      Lowering.Asks (Lowering.program program) { sheet := { takesNotes } } log () draft ∧
      FieldLine.readAll compilation.text = .ok lines ∧
      CellRequest.values log = program.literals ∧
      (∀ value label, .literal value label ∈ log → label = Scopes.literalName value.text) ∧
      (∀ value ∈ program.literals,
        FieldLine.OneCell lines (Scopes.literalName value.text) value) ∧
      (∀ (i : Nat) (value : Word),
        lines[i]?.bind FieldLine.operand? = some (Scopes.literalName value.text) ↔
          program.code[i]?.bind Entry.literal? = some value) ∧
      (∀ entry ∈ program.code, ∀ value ∈ entry.literal?, value ∈ program.literals) ∧
      (∀ value value' : Word, Scopes.literalName value.text = Scopes.literalName value'.text →
        value = value') ∧
      (CellRequest.handed log).length = compilation.temporaries ∧
      (CellRequest.handed log).Nodup ∧
      ∀ label ∈ CellRequest.handed log, FieldLine.OneCell lines label 0 ∧
        ∃! scope, ∃ declaration ∈ draft.scopes.declarations scope, declaration.label = label := by
  obtain ⟨program, draft, hparse, hlower, hsheet, htemporaries⟩ := Program.lowered_of_compile hok
  have hnamed := Program.parse_named hparse
  obtain ⟨r', hspelled, hscopes'⟩ := Program.spelled_of_lowering hnamed ⟨rfl, rfl, by simp⟩ hlower
  obtain ⟨r₀, r, log, hcounters, hsound, hscopes, hasks, hanswers, hliterals⟩ :=
    Lowering.program_asks hlower
  obtain ⟨lines, hread, hfields⟩ :=
    FieldLine.readAll_text hspelled.waiting (hspelled.readable hnamed)
  have hdata : r'.cells.map Cell.line = r.cells.map Cell.line := by
    rw [← Register.allDeclarations_eq, ← Register.allDeclarations_eq, ← hscopes', hscopes]
  have hlines : lines.map FieldLine.fields =
      (program.code.map Entry.line ++ r.cells.map Cell.line).map SheetLine.fields := by
    rw [hfields, ← hdata, ← hspelled.words]
    rfl
  have hcount : (CellRequest.handed log).length = r.counters.temporaries := by
    simpa [hcounters] using hanswers.count.symm
  have hhanded : CellRequest.handed log =
      (List.range r.counters.temporaries).map fun n => (Cell.temporary n).label := by
    rw [hanswers.handed, hcount, hcounters, List.range_eq_range']
  have htext : compilation.text = draft.sheet.text := by rw [Compilation.text, hsheet]
  refine ⟨program, draft, log, lines, hparse, hlower, hsheet, hasks, htext ▸ hread,
    hanswers.values, fun value label hmem => (hanswers.literals value label hmem).1, ?_,
    hspelled.operand?_eq_literal_iff hlines, ?_, fun _ _ => Item.literalName_injective,
    ?_, ?_, ?_⟩
  · intro value hvalue
    rw [← hanswers.values] at hvalue
    obtain ⟨label, hmem⟩ := CellRequest.mem_of_mem_values hvalue
    have hitem := (hanswers.literals value label hmem).2
    have hcell : .literal value ∈ r.cells := Register.mem_cells.2 ⟨0, _, hitem, rfl⟩
    exact Program.oneCell hsound hlines hcell trivial
  · intro entry hentry value hvalue
    have hused := hspelled.cell_of_target hentry (Entry.literal?_eq_some_iff.1 hvalue)
    exact hliterals value (hsound.literal_mem_items (hdata ▸ List.mem_map_of_mem hused))
  · rw [hcount, ← htemporaries, hscopes]
    rfl
  · rw [hhanded]
    refine List.nodup_range.map fun m n heq => ?_
    have hsame : Cell.temporary m = .temporary n := Cell.eq_of_label_eq trivial heq
    simpa using hsame
  · intro label hlabel
    rw [hhanded] at hlabel
    obtain ⟨n, hn, rfl⟩ := List.mem_map.1 hlabel
    obtain ⟨s, hitem⟩ := hanswers.placed n (by simp [hcounters]) (List.mem_range.1 hn)
    have hcell : .temporary n ∈ r.cells := Register.mem_cells.2 ⟨s, _, hitem, rfl⟩
    refine ⟨Program.oneCell hsound hlines hcell trivial, ?_⟩
    rw [hscopes]
    exact hsound.existsUnique_scope hitem

def manyLiterals : String :=
  "function f(n)\nreturn n * true\nendfunction\nprint(\"a\")\nx = f(-5)\n"

theorem compile_cells_manyLiterals :
    ∃ compilation lines log, compile manyLiterals = .ok compilation ∧
      FieldLine.readAll compilation.text = .ok lines ∧
      FieldLine.OneCell lines "literal_97" 97 ∧ FieldLine.OneCell lines "literal_5" 5 ∧
      lines[0]?.bind FieldLine.operand? = some "literal_97" ∧
      (CellRequest.handed log).Nodup ∧ (CellRequest.handed log).length = 7 := by
  have hliterals : (Program.parse manyLiterals).toOption.any
      (fun program => decide ((97 ∈ program.literals ∧ 5 ∈ program.literals) ∧
        program.code[0]?.bind Entry.literal? = some 97)) = true := by
    decide +kernel
  have hcompiles : (compile manyLiterals).toOption.any
      (fun compilation => decide (compilation.temporaries = 7)) = true := by
    decide +kernel
  cases hcompile : compile manyLiterals with
  | error error =>
      rw [hcompile] at hcompiles
      cases hcompiles
  | ok compilation =>
      obtain ⟨program, draft, log, lines, hparse, -, -, -, hread, -, -, hone, hoperands, -, -,
        hlength, hnodup, -⟩ := compile_cells hcompile
      rw [hcompile] at hcompiles
      rw [hparse] at hliterals
      obtain ⟨hmem, hused⟩ : (97 ∈ program.literals ∧ 5 ∈ program.literals) ∧
          program.code[0]?.bind Entry.literal? = some 97 := of_decide_eq_true hliterals
      have hcount : compilation.temporaries = 7 := of_decide_eq_true hcompiles
      have hlabel : Scopes.literalName (Word.text 97) = "literal_97" := by decide +kernel
      have hlabel' : Scopes.literalName (Word.text 5) = "literal_5" := by decide +kernel
      exact ⟨compilation, lines, log, rfl, hread, hlabel ▸ hone 97 hmem.1,
        hlabel' ▸ hone 5 hmem.2, hlabel ▸ (hoperands 0 97).2 hused, hnodup, hlength.trans hcount⟩

end LittleMan
