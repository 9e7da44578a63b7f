import LittleMan.Proofs.Blueprint.Emission
import LittleMan.Proofs.Word

/-!
# Registers

The table of scopes keeps its symbols under strings.  A register keeps the same
symbols as items: what a name of the table stands for is a constructor here, and not
a stem in front of a string.  `Register.scopes` spells a register out as a table, and
every request of the lowering to the table is a change of the register.

The names of different items differ, so that a look-up in the table is a question of
membership in the register.
-/

namespace LittleMan

inductive Item where
  | var (name : String)
  | literal (value : Word)
  | temporary (n : Nat)
  | loop (n : Nat)
  | choice (n : Nat)
  | function (name : String)
deriving DecidableEq, Repr

namespace Item

def name : Item → String
  | .var x => Scopes.variableName x
  | .literal value => Scopes.literalName value.text
  | .temporary n => "temp_" ++ toString n
  | .loop n => "loop_" ++ toString n
  | .choice n => "if_" ++ toString n
  | .function f => "func_" ++ f

def kind : Item → SymbolKind
  | .var _ => .var
  | .literal _ => .literal
  | .temporary _ => .temporary
  | .loop _ => .loopLabel
  | .choice _ => .ifLabel
  | .function _ => .function

def symbol (item : Item) : Symbol where
  name := item.name
  kind := item.kind
  initial :=
    match item with
    | .literal value => value
    | _ => 0

/-- The cell of an item in the scope of `owner`. -/
def cell? (owner : Option String) : Item → Option Cell
  | .var x => some (.var owner x)
  | .literal value => some (.literal value)
  | .temporary n => some (.temporary n)
  | _ => none

theorem literalName_toList (value : Word) :
    (Scopes.literalName value.text).toList =
      "literal_".toList ++
        ((if value.toInt < 0 then "neg".toList else []) ++
          Nat.toDigits 10 value.toInt.natAbs) := by
  have htext := Word.text_toList value
  unfold Scopes.literalName
  split
  · rename_i magnitude hminus
    rw [hminus] at htext
    split at htext
    · rename_i hneg
      simp only [List.cons_append, List.nil_append, List.cons.injEq, true_and] at htext
      simp [hneg, htext]
    · have hmem : '-' ∈ Nat.toDigits 10 value.toInt.natAbs := by
        rw [List.nil_append] at htext
        simp [← htext]
      exact absurd (Nat.isDigit_of_mem_toDigits (by decide) (by decide) hmem) (by decide)
  · rename_i hminus
    split at htext
    · exact absurd htext (hminus _)
    · rename_i hpos
      simp [hpos, htext]

theorem literalName_injective {v w : Word}
    (h : Scopes.literalName v.text = Scopes.literalName w.text) : v = w := by
  have hlists := congrArg String.toList h
  simp only [literalName_toList, List.append_cancel_left_eq] at hlists
  apply Word.text_injective
  apply String.toList_injective
  rw [Word.text_toList, Word.text_toList]
  have hletter : ∀ {n : Nat} {rest : List Char}, Nat.toDigits 10 n ≠ 'n' :: rest := by
    intro n rest heq
    have hmem : 'n' ∈ Nat.toDigits 10 n := by simp [heq]
    exact absurd (Nat.isDigit_of_mem_toDigits (by decide) (by decide) hmem) (by decide)
  by_cases hv : v.toInt < 0 <;> by_cases hw : w.toInt < 0 <;>
    simp only [hv, hw, if_true, if_false, List.nil_append, List.append_cancel_left_eq] at hlists ⊢
  · exact hlists
  · exact absurd hlists.symm hletter
  · exact absurd hlists hletter
  · exact hlists

/-- The first two letters of a name tell what it is the name of. -/
theorem kind_eq_of_name_eq {a b : Item} (h : a.name = b.name) : a.kind = b.kind := by
  have hlists := congrArg (fun s => s.toList.take 2) h
  cases a <;> cases b <;>
    simp [name, kind, Scopes.variableName, literalName_toList] at hlists ⊢

theorem name_injective {a b : Item} (h : a.name = b.name) : a = b := by
  have hkind := kind_eq_of_name_eq h
  cases a <;> cases b <;> simp only [kind, reduceCtorEq] at hkind
  · simpa [name, Scopes.variableName] using h
  · rw [literalName_injective h]
  · rw [Numeral.toString_injective ((String.append_right_inj _).1 h)]
  · rw [Numeral.toString_injective ((String.append_right_inj _).1 h)]
  · rw [Numeral.toString_injective ((String.append_right_inj _).1 h)]
  · simpa [name] using h

@[simp] theorem name_inj {a b : Item} : a.name = b.name ↔ a = b :=
  ⟨name_injective, congrArg name⟩

end Item

/-- The sections of a register are the scopes of a table, each with its owner; the
first one belongs to the main program. -/
structure Register where
  sections : List (Option String × List Item) := [(none, [])]
  counters : Counters := {}
deriving DecidableEq, Repr

namespace Register

def scope (part : Option String × List Item) : Scope :=
  part.2.foldl (fun here item => here.add item.symbol)
    (.empty (scopeStem part.1) (part.1.map fun _ => Scopes.root))

def scopes (r : Register) : Scopes where
  table := (r.sections.map scope).toArray
  counters := r.counters

def items (r : Register) (s : Nat) : List Item :=
  (r.sections[s]?).elim [] Prod.snd

def owner (r : Register) (s : Nat) : Option String :=
  (r.sections[s]?).bind Prod.fst

/-- Adds an item to a section that does not have it. -/
def add (r : Register) (s : Nat) (item : Item) : Register :=
  if item ∈ r.items s then r
  else { r with sections := r.sections.modify s fun part => (part.1, part.2 ++ [item]) }

/-- The cells of a register, in the order of the data of a program. -/
def cells (r : Register) : List Cell :=
  r.sections.flatMap fun part => part.2.filterMap (Item.cell? part.1)

/-- The cell of a variable as seen from a section. -/
def visible (r : Register) (s : Nat) (x : String) : Option Cell :=
  if .var x ∈ r.items s then some (.var (r.owner s) x)
  else if .var x ∈ r.items 0 then some (.var none x)
  else none

end Register

/-- The numbers of numbered items have been handed out. -/
def Counters.Handed (k : Counters) : Item → Prop
  | .temporary n => n < k.temporaries
  | .loop n => n < k.loops
  | .choice n => n < k.ifs
  | _ => True

/-- What holds of every register that a lowering can come to. -/
structure Register.Sound (r : Register) : Prop where
  main : r.sections[0]?.map Prod.fst = some none
  functions : ∀ s part, r.sections[s + 1]? = some part → part.1.isSome
  owners : (r.sections.map Prod.fst).Nodup
  nodup : ∀ s, (r.items s).Nodup
  handed : ∀ s, ∀ item ∈ r.items s, r.counters.Handed item
  literals : ∀ s v, .literal v ∈ r.items s → s = 0
  temporaries : ∀ s s' n, .temporary n ∈ r.items s → .temporary n ∈ r.items s' → s = s'

namespace Register

theorem sound_empty : ({} : Register).Sound where
  main := rfl
  functions := by simp
  owners := by simp
  nodup := by
    intro s
    cases s <;> simp [items]
  handed := by
    intro s
    cases s <;> simp [items]
  literals := by
    intro s v
    cases s <;> simp [items]
  temporaries := by
    intro s s' n
    cases s <;> simp [items]

theorem Sound.length_pos {r : Register} (h : r.Sound) : 0 < r.sections.length := by
  have hmain := h.main
  cases hsections : r.sections with
  | nil => simp [hsections] at hmain
  | cons part rest => simp

theorem Sound.owner_zero {r : Register} (h : r.Sound) : r.owner 0 = none := by
  have hmain := h.main
  unfold owner
  cases hpart : r.sections[0]? with
  | none => simp [hpart] at hmain
  | some part => simpa [hpart] using hmain

/-! ## Look-up -/

theorem scope_append (owner : Option String) (items : List Item) (last : Item) :
    scope (owner, items ++ [last]) = (scope (owner, items)).add last.symbol := by
  simp [scope]

@[simp] theorem stem_scope (part : Option String × List Item) :
    (scope part).stem = scopeStem part.1 :=
  List.foldlRecOn (motive := (Scope.stem · = _)) part.2 _ rfl fun _ ih _ _ => ih

@[simp] theorem parent_scope (part : Option String × List Item) :
    (scope part).parent = part.1.map fun _ => Scopes.root :=
  List.foldlRecOn (motive := (Scope.parent · = _)) part.2 _ rfl fun _ ih _ _ => ih

@[simp] theorem symbols_scope (part : Option String × List Item) :
    (scope part).symbols = (part.2.map Item.symbol).toArray := by
  obtain ⟨owner, items⟩ := part
  induction items using List.reverseRecOn with
  | nil => rfl
  | append_singleton items last ih => simp [scope_append, Scope.add, ih]

theorem find?_scope (part : Option String × List Item) (item : Item) :
    (scope part).find? item.name = if item ∈ part.2 then some item.symbol else none := by
  obtain ⟨owner, items⟩ := part
  induction items using List.reverseRecOn with
  | nil => rfl
  | append_singleton items last ih =>
      have hname : last.symbol.name = item.name ↔ last = item := Item.name_inj
      rw [scope_append, Scope.find?_add, ih]
      by_cases hlast : last = item
      · simp [hlast, Item.symbol]
      · have hother : item ≠ last := fun heq => hlast heq.symm
        simp [hname, hlast, hother]

theorem resolve_name {r : Register} (h : r.Sound) {s : Nat} (hs : s < r.sections.length)
    (item : Item) :
    r.scopes.resolve s item.name =
      if item ∈ r.items s then some (item.symbol, s)
      else if item ∈ r.items 0 then some (item.symbol, 0)
      else none := by
  obtain ⟨first, hfirst⟩ : ∃ first, r.sections[0]? = some first :=
    ⟨_, List.getElem?_eq_getElem h.length_pos⟩
  obtain ⟨part, hpart⟩ : ∃ part, r.sections[s]? = some part :=
    ⟨_, List.getElem?_eq_getElem hs⟩
  have hmain : first.1 = none := by
    simpa [hfirst] using h.main
  have htable : ∀ i : Nat, r.scopes.table[i]? = (r.sections[i]?).map scope := by
    intro i
    simp [scopes]
  have hsize : r.scopes.table.size = r.sections.length := by
    simp [scopes]
  have hitems : r.items s = part.2 := by simp [items, hpart]
  have hroot : r.items 0 = first.2 := by simp [items, hfirst]
  unfold Scopes.resolve
  rw [hsize, hitems, hroot]
  cases s with
  | zero =>
      obtain rfl : part = first := by simpa [hfirst] using hpart.symm
      obtain ⟨n, hn⟩ := Nat.exists_eq_succ_of_ne_zero h.length_pos.ne'
      rw [hn, Scopes.resolveWithin, htable, hfirst]
      simp only [Option.map_some, find?_scope]
      split
      · simp_all
      · rename_i hnone
        have hnot : item ∉ part.2 := by
          intro hmem
          simp [hmem] at hnone
        simp [hnot, hmain]
  | succ s =>
      have howner := h.functions s part hpart
      obtain ⟨n, hn⟩ : ∃ n, r.sections.length = n + 2 := ⟨r.sections.length - 2, by omega⟩
      rw [hn, Scopes.resolveWithin, htable, hpart]
      simp only [Option.map_some, find?_scope]
      split
      · simp_all
      · rename_i hnone
        have hnot : item ∉ part.2 := by
          intro hmem
          simp [hmem] at hnone
        obtain ⟨f, hf⟩ := Option.isSome_iff_exists.1 howner
        simp only [parent_scope, hf, hmain, Option.map_some, Option.map_none,
          Scopes.resolveWithin, htable, Scopes.root, hfirst, find?_scope, hnot, if_false]
        split
        · simp_all
        · simp_all

theorem stem_scopes {r : Register} {s : Nat} (hs : s < r.sections.length) :
    r.scopes.stem s = scopeStem (r.owner s) := by
  simp [Scopes.stem, scopes, owner, List.getElem?_eq_getElem hs]

theorem label?_name {r : Register} (h : r.Sound) {s : Nat} (hs : s < r.sections.length)
    (item : Item) :
    r.scopes.label? s item.name =
      if item ∈ r.items s then some (r.scopes.accessLabel item.kind item.name s)
      else if item ∈ r.items 0 then some (r.scopes.accessLabel item.kind item.name 0)
      else none := by
  unfold Scopes.label?
  rw [resolve_name h hs]
  split
  · rfl
  · split <;> rfl

theorem lookup?_eq {r : Register} (h : r.Sound) {s : Nat} (hs : s < r.sections.length)
    (x : String) : r.scopes.lookup? s x = (r.visible s x).map Cell.label := by
  have hlabel := label?_name h hs (.var x)
  simp only [Item.name, Item.kind] at hlabel
  unfold Scopes.lookup? visible
  rw [hlabel]
  simp only [Scopes.accessLabel_var, stem_scopes hs, stem_scopes h.length_pos, h.owner_zero]
  split
  · rfl
  · split <;> rfl

/-! ## Additions -/

@[simp] theorem length_add (r : Register) (s : Nat) (item : Item) :
    (r.add s item).sections.length = r.sections.length := by
  unfold add
  split <;> simp

@[simp] theorem counters_add (r : Register) (s : Nat) (item : Item) :
    (r.add s item).counters = r.counters := by
  unfold add
  split <;> rfl

@[simp] theorem owners_add (r : Register) (s : Nat) (item : Item) :
    (r.add s item).sections.map Prod.fst = r.sections.map Prod.fst := by
  unfold add
  split
  · rfl
  · apply List.ext_getElem?
    intro i
    simp only [List.getElem?_map, List.getElem?_modify]
    cases r.sections[i]? with
    | none => rfl
    | some part =>
        simp only [Option.map_eq_map, Option.map_some]
        split <;> rfl

theorem items_add {r : Register} {s : Nat} (hs : s < r.sections.length) (item : Item) (i : Nat) :
    (r.add s item).items i =
      if i = s ∧ item ∉ r.items s then r.items s ++ [item] else r.items i := by
  unfold add
  by_cases hmem : item ∈ r.items s
  · simp [hmem]
  · simp only [hmem, if_false, not_false_eq_true, and_true]
    unfold items
    simp only [List.getElem?_modify]
    by_cases hi : i = s
    · subst hi
      simp [List.getElem?_eq_getElem hs]
    · have hne : s ≠ i := fun heq => hi heq.symm
      simp [hi, hne]

theorem mem_items_add {r : Register} {s : Nat} (hs : s < r.sections.length) {item other : Item}
    {i : Nat} :
    other ∈ (r.add s item).items i ↔ other ∈ r.items i ∨ (i = s ∧ other = item) := by
  rw [items_add hs]
  by_cases hi : i = s
  · subst hi
    by_cases hmem : item ∈ r.items i
    · simp only [hmem, not_true_eq_false, and_false, if_false, true_and]
      constructor
      · exact Or.inl
      · rintro (hother | rfl)
        · exact hother
        · exact hmem
    · simp [hmem]
  · simp [hi]

theorem owner_eq_of_owners {r r' : Register}
    (h : r'.sections.map Prod.fst = r.sections.map Prod.fst) (s : Nat) :
    r'.owner s = r.owner s := by
  have hget := congrArg (fun l => l[s]?) h
  simp only [List.getElem?_map] at hget
  unfold owner
  cases h1 : r'.sections[s]? <;> cases h2 : r.sections[s]? <;> simp_all

@[simp] theorem owner_add (r : Register) (s : Nat) (item : Item) (i : Nat) :
    (r.add s item).owner i = r.owner i :=
  owner_eq_of_owners (owners_add r s item) i

/-- An item that was never handed out elsewhere may be added. -/
theorem Sound.add {r : Register} (h : r.Sound) {s : Nat} (hs : s < r.sections.length)
    {item : Item} (hhanded : r.counters.Handed item)
    (hliteral : ∀ v, item = .literal v → s = 0)
    (htemporary : ∀ n, item = .temporary n → ∀ i, item ∉ r.items i) :
    (r.add s item).Sound := by
  have howners := owners_add r s item
  refine ⟨?_, ?_, ?_, ?_, ?_, ?_, ?_⟩
  · have hget := congrArg (fun l => l[0]?) howners
    simp only [List.getElem?_map] at hget
    exact hget.trans h.main
  · intro i part hpart
    have hget := congrArg (fun l => l[i + 1]?) howners
    simp only [List.getElem?_map, hpart, Option.map_some] at hget
    cases hold : r.sections[i + 1]? with
    | none => simp [hold] at hget
    | some old =>
        rw [hold, Option.map_some, Option.some.injEq] at hget
        rw [hget]
        exact h.functions i old hold
  · rw [howners]
    exact h.owners
  · intro i
    rw [items_add hs]
    split
    · rename_i hi
      exact (h.nodup s).append (by simp) (by simpa using hi.2)
    · exact h.nodup i
  · intro i other hother
    rw [counters_add]
    rcases (mem_items_add hs).1 hother with hold | ⟨_, rfl⟩
    · exact h.handed i other hold
    · exact hhanded
  · intro i v hv
    rcases (mem_items_add hs).1 hv with hold | ⟨rfl, heq⟩
    · exact h.literals i v hold
    · exact hliteral v heq.symm
  · intro i j n hi hj
    rcases (mem_items_add hs).1 hi with hold | ⟨rfl, heq⟩
    · rcases (mem_items_add hs).1 hj with hold' | ⟨rfl, heq⟩
      · exact h.temporaries i j n hold hold'
      · exact absurd (heq ▸ hold) (htemporary n heq.symm i)
    · rcases (mem_items_add hs).1 hj with hold' | ⟨rfl, _⟩
      · exact absurd (heq ▸ hold') (htemporary n heq.symm j)
      · rfl

theorem scopes_add {r : Register} {s : Nat} (hs : s < r.sections.length) (item : Item)
    {value : Word} (hvalue : item.symbol.initial = if item.kind = .var then 0 else value) :
    (r.scopes.declare s item.name item.kind value).2 = (r.add s item).scopes := by
  have hpart : r.scopes.table[s]? = some (scope r.sections[s]) := by
    simp [scopes, List.getElem?_eq_getElem hs]
  have hitems : r.items s = r.sections[s].2 := by
    simp [items, List.getElem?_eq_getElem hs]
  unfold Scopes.declare Register.add
  rw [hpart, hitems]
  simp only [← Scope.isSome_find?, find?_scope]
  by_cases hmem : item ∈ r.sections[s].2
  · simp [hmem]
  · simp only [hmem, if_false, Option.isSome_none, Bool.false_eq_true]
    simp only [scopes, List.modify_toArray, Scopes.mk.injEq, and_true]
    congr 1
    apply List.ext_getElem?
    intro i
    simp only [List.getElem?_modify, List.getElem?_map]
    cases hi : r.sections[i]? with
    | none => rfl
    | some part =>
        simp only [Option.map_eq_map, Option.map_some]
        split
        · simp [scope_append, Item.symbol, ← hvalue]
        · rfl

/-! ## Requests -/

/-- The register after a number of a family has been taken. -/
def count (r : Register) (k : Counters) : Register :=
  { r with counters := k }

def newTemporary (r : Register) (s : Nat) : Register :=
  (r.count (r.counters.taking 1)).add s (.temporary r.counters.temporaries)

def newLoop (r : Register) (s : Nat) : Register :=
  (r.count { r.counters with loops := r.counters.loops + 1 }).add s (.loop r.counters.loops)

def newChoice (r : Register) (s : Nat) : Register :=
  (r.count { r.counters with ifs := r.counters.ifs + 1 }).add s (.choice r.counters.ifs)

/-- The cell that a variable has, or gets when it is assigned to. -/
def cellAt (r : Register) (s : Nat) (x : String) : Cell :=
  (r.visible s x).getD (.var (r.owner s) x)

def addVariable (r : Register) (s : Nat) (x : String) : Register :=
  if (r.visible s x).isSome then r else r.add s (.var x)

theorem Sound.count {r : Register} (h : r.Sound) {k : Counters}
    (htemporaries : r.counters.temporaries ≤ k.temporaries) (hloops : r.counters.loops ≤ k.loops)
    (hifs : r.counters.ifs ≤ k.ifs) : (r.count k).Sound where
  main := h.main
  functions := h.functions
  owners := h.owners
  nodup := h.nodup
  handed := by
    intro s item hitem
    have hold := h.handed s item hitem
    cases item <;> simp only [Counters.Handed, Register.count] at hold ⊢ <;> omega
  literals := h.literals
  temporaries := h.temporaries

theorem internLiteral_eq {r : Register} (h : r.Sound) (v : Word) :
    r.scopes.internLiteral v = ((Cell.literal v).label, (r.add 0 (.literal v)).scopes) := by
  have hlabel := label?_name h h.length_pos (.literal v)
  simp only [Item.name, Item.kind, Scopes.accessLabel_literal] at hlabel
  unfold Scopes.internLiteral Scopes.intern
  simp only [Scopes.home, Scopes.symbolName, Scopes.root]
  rw [hlabel]
  by_cases hmem : .literal v ∈ r.items 0
  · simp [hmem, Cell.label, Register.add]
  · simp only [hmem, if_false]
    exact Prod.ext rfl (scopes_add h.length_pos (.literal v) rfl)

/-- A numbered item whose number is new is not yet in the table. -/
theorem intern_numbered {r : Register} (h : r.Sound) {s : Nat} (hs : s < r.sections.length)
    (item : Item) {k : Counters} (hfresh : ¬r.counters.Handed item)
    (hlabel : r.scopes.accessLabel item.kind item.name s = item.name)
    (hvalue : item.symbol.initial = 0)
    (hname : r.scopes.symbolName item.kind "" = (item.name, { r.scopes with counters := k }))
    (hhome : Scopes.home item.kind s = s) (hsound : (r.count k).Sound) :
    r.scopes.intern s item.kind "" 0 = (item.name, ((r.count k).add s item).scopes) := by
  have hnot : ∀ i, item ∉ (r.count k).items i := fun i hmem => hfresh (h.handed i item hmem)
  have hscopes : ({ r.scopes with counters := k } : Scopes) = (r.count k).scopes := rfl
  unfold Scopes.intern
  simp only [hhome, hname, hscopes]
  rw [label?_name hsound hs]
  rw [if_neg (hnot s), if_neg (hnot 0)]
  refine Prod.ext hlabel ?_
  exact scopes_add (r := r.count k) hs item (by rw [hvalue]; split <;> rfl)

theorem freshTemporary_eq {r : Register} (h : r.Sound) {s : Nat} (hs : s < r.sections.length) :
    r.scopes.freshTemporary s =
      ((Cell.temporary r.counters.temporaries).label, (r.newTemporary s).scopes) :=
  intern_numbered h hs (.temporary r.counters.temporaries) (by simp [Counters.Handed])
    rfl rfl rfl rfl (h.count (by simp [Counters.taking]) le_rfl le_rfl)

theorem freshLoop_eq {r : Register} (h : r.Sound) {s : Nat} (hs : s < r.sections.length) :
    r.scopes.freshLoop s =
      ("loop_" ++ toString r.counters.loops, (r.newLoop s).scopes) :=
  intern_numbered h hs (.loop r.counters.loops) (by simp [Counters.Handed])
    rfl rfl rfl rfl (h.count le_rfl (by simp) le_rfl)

theorem freshIf_eq {r : Register} (h : r.Sound) {s : Nat} (hs : s < r.sections.length) :
    r.scopes.freshIf s =
      ("if_" ++ toString r.counters.ifs, (r.newChoice s).scopes) :=
  intern_numbered h hs (.choice r.counters.ifs) (by simp [Counters.Handed])
    rfl rfl rfl rfl (h.count le_rfl le_rfl (by simp))

theorem internVariable_eq {r : Register} (h : r.Sound) {s : Nat} (hs : s < r.sections.length)
    (x : String) :
    r.scopes.internVariable s x = ((r.cellAt s x).label, (r.addVariable s x).scopes) := by
  have hlabel := lookup?_eq h hs x
  unfold Scopes.lookup? at hlabel
  unfold Scopes.internVariable Scopes.intern
  simp only [Scopes.home, Scopes.symbolName]
  rw [hlabel]
  unfold cellAt addVariable
  cases hvisible : r.visible s x with
  | some cell => simp
  | none =>
      simp only [Option.map_none, Option.getD_none, Option.isSome_none, Bool.false_eq_true,
        if_false]
      refine Prod.ext ?_ (scopes_add hs (.var x) rfl)
      simp [stem_scopes hs, Cell.label]

/-! ## Growth -/

/-- A register has grown by what a lowering in section `s` asks for, if the lowering
assigns to the variables `assigned`. -/
structure Grows (s : Nat) (assigned : List String) (r r' : Register) : Prop where
  owners : r'.sections.map Prod.fst = r.sections.map Prod.fst
  items : ∀ i, r.items i ⊆ r'.items i
  vars : ∀ i x, .var x ∈ r'.items i ↔
    .var x ∈ r.items i ∨ (i = s ∧ x ∈ assigned ∧ r.visible s x = none)
  sound : r'.Sound

theorem Grows.length {s : Nat} {assigned : List String} {r r' : Register}
    (h : Grows s assigned r r') : r'.sections.length = r.sections.length := by
  simpa using congrArg List.length h.owners

theorem Grows.owner {s : Nat} {assigned : List String} {r r' : Register}
    (h : Grows s assigned r r') (i : Nat) : r'.owner i = r.owner i :=
  owner_eq_of_owners h.owners i

theorem Grows.refl {s : Nat} {r : Register} (h : r.Sound) : Grows s [] r r where
  owners := rfl
  items := fun _ _ hmem => hmem
  vars := by simp
  sound := h

/-- Only what is assigned to can become visible, and only where it was not. -/
theorem Grows.visible_eq_none_iff {s : Nat} {assigned : List String} {r r' : Register}
    (h : Grows s assigned r r') {x : String} :
    r'.visible s x = none ↔ r.visible s x = none ∧ x ∉ assigned := by
  have hown := h.vars s x
  have hmain := h.vars 0 x
  simp only [visible] at hown hmain ⊢
  by_cases h1 : .var x ∈ r.items s <;> by_cases h2 : .var x ∈ r.items 0 <;>
    by_cases h3 : x ∈ assigned <;> simp_all

theorem Grows.trans {s : Nat} {first second : List String} {r r' r'' : Register}
    (h : Grows s first r r') (h' : Grows s second r' r'') :
    Grows s (first ++ second) r r'' where
  owners := h'.owners.trans h.owners
  items := fun i _ hmem => h'.items i (h.items i hmem)
  vars := by
    intro i x
    rw [h'.vars, h.vars, h.visible_eq_none_iff, List.mem_append]
    tauto
  sound := h'.sound

theorem mem_cells {r : Register} {c : Cell} :
    c ∈ r.cells ↔ ∃ s, ∃ item ∈ r.items s, item.cell? (r.owner s) = some c := by
  unfold cells
  simp only [List.mem_flatMap, List.mem_filterMap]
  constructor
  · rintro ⟨part, hpart, item, hitem, hcell⟩
    obtain ⟨s, hs⟩ := List.getElem?_of_mem hpart
    exact ⟨s, item, by simpa [items, hs] using hitem, by simpa [owner, hs] using hcell⟩
  · rintro ⟨s, item, hitem, hcell⟩
    cases hs : r.sections[s]? with
    | none => simp [items, hs] at hitem
    | some part =>
        exact ⟨part, List.mem_of_getElem? hs, item, by simpa [items, hs] using hitem,
          by simpa [owner, hs] using hcell⟩

theorem Grows.cells {s : Nat} {assigned : List String} {r r' : Register}
    (h : Grows s assigned r r') : r.cells ⊆ r'.cells := by
  intro c hc
  obtain ⟨i, item, hitem, hcell⟩ := mem_cells.1 hc
  exact mem_cells.2 ⟨i, item, h.items i hitem, by rwa [h.owner]⟩

theorem mem_cells_of_visible {r : Register} (h : r.Sound) {s : Nat} {x : String} {c : Cell}
    (hvisible : r.visible s x = some c) : c ∈ r.cells := by
  unfold visible at hvisible
  split at hvisible
  · rename_i hmem
    exact mem_cells.2 ⟨s, .var x, hmem, by simpa [Item.cell?] using hvisible⟩
  · split at hvisible
    · rename_i hmem
      exact mem_cells.2 ⟨0, .var x, hmem, by simpa [Item.cell?, h.owner_zero] using hvisible⟩
    · cases hvisible

/-- A variable that is there keeps its cell, and one that is not gets the cell it was
meant to get. -/
theorem Grows.cellAt {s : Nat} {assigned : List String} {r r' : Register}
    (h : Grows s assigned r r') (x : String) : r'.cellAt s x = r.cellAt s x := by
  have hown := h.vars s x
  have hmain := h.vars 0 x
  simp only [Register.cellAt, visible, h.owner] at hown hmain ⊢
  by_cases h1 : .var x ∈ r.items s <;> by_cases h2 : .var x ∈ r.items 0 <;>
    by_cases h3 : x ∈ assigned <;> by_cases h4 : s = 0 <;> simp_all

theorem mem_cells_add {r : Register} {s : Nat} (hs : s < r.sections.length) {item : Item}
    {c : Cell} (hc : item.cell? (r.owner s) = some c) : c ∈ (r.add s item).cells :=
  mem_cells.2 ⟨s, item, (mem_items_add hs).2 (.inr ⟨rfl, rfl⟩), by rwa [owner_add]⟩

theorem mem_cells_addVariable {r : Register} (h : r.Sound) {s : Nat}
    (hs : s < r.sections.length) (x : String) : r.cellAt s x ∈ (r.addVariable s x).cells := by
  unfold Register.cellAt addVariable
  cases hvisible : r.visible s x with
  | some c => simpa using mem_cells_of_visible h hvisible
  | none => simpa using mem_cells_add hs rfl

/-- An addition of an item that is no variable. -/
theorem grows_add {r : Register} {k : Counters} {s i : Nat} {item : Item}
    (hitem : ∀ x, item ≠ .var x) (hsound : ((r.count k).add i item).Sound)
    (hi : i < r.sections.length) : Grows s [] r ((r.count k).add i item) where
  owners := owners_add (r.count k) i item
  items := fun j other hother =>
    (mem_items_add (r := r.count k) hi).2 (.inl hother)
  vars := by
    intro j x
    rw [mem_items_add (r := r.count k) hi]
    constructor
    · rintro (hold | ⟨_, heq⟩)
      · exact .inl hold
      · exact absurd heq.symm (hitem x)
    · rintro (hold | ⟨_, hnil, _⟩)
      · exact .inl hold
      · simp at hnil
  sound := hsound

theorem grows_literal {r : Register} (h : r.Sound) (s : Nat) (v : Word) :
    Grows s [] r (r.add 0 (.literal v)) :=
  grows_add (k := r.counters) (by simp)
    (h.add h.length_pos (by simp [Counters.Handed]) (by simp) (by simp)) h.length_pos

theorem grows_newTemporary {r : Register} (h : r.Sound) {s : Nat}
    (hs : s < r.sections.length) : Grows s [] r (r.newTemporary s) := by
  refine grows_add (by simp) ?_ hs
  have hcount : (r.count (r.counters.taking 1)).Sound :=
    h.count (by simp [Counters.taking]) le_rfl le_rfl
  refine hcount.add hs (by simp [Counters.Handed, count, Counters.taking]) (by simp) ?_
  intro n _ i hmem
  have hhanded := h.handed i _ hmem
  simp [Counters.Handed] at hhanded

theorem grows_newLoop {r : Register} (h : r.Sound) {s : Nat}
    (hs : s < r.sections.length) : Grows s [] r (r.newLoop s) := by
  refine grows_add (by simp) ?_ hs
  have hcount : (r.count { r.counters with loops := r.counters.loops + 1 }).Sound :=
    h.count le_rfl (by simp) le_rfl
  exact hcount.add hs (by simp [Counters.Handed, count]) (by simp) (by simp)

theorem grows_newChoice {r : Register} (h : r.Sound) {s : Nat}
    (hs : s < r.sections.length) : Grows s [] r (r.newChoice s) := by
  refine grows_add (by simp) ?_ hs
  have hcount : (r.count { r.counters with ifs := r.counters.ifs + 1 }).Sound :=
    h.count le_rfl le_rfl (by simp)
  exact hcount.add hs (by simp [Counters.Handed, count]) (by simp) (by simp)

theorem grows_count {r : Register} (h : r.Sound) (s : Nat) {k : Counters}
    (htemporaries : r.counters.temporaries ≤ k.temporaries) (hloops : r.counters.loops ≤ k.loops)
    (hifs : r.counters.ifs ≤ k.ifs) : Grows s [] r (r.count k) where
  owners := rfl
  items := fun _ _ hmem => hmem
  vars := by simp [count, Register.items]
  sound := h.count htemporaries hloops hifs

theorem grows_addVariable {r : Register} (h : r.Sound) {s : Nat}
    (hs : s < r.sections.length) (x : String) : Grows s [x] r (r.addVariable s x) := by
  unfold addVariable
  cases hvisible : r.visible s x with
  | some c =>
      refine ⟨rfl, fun _ _ hmem => hmem, ?_, h⟩
      intro i y
      constructor
      · exact .inl
      · rintro (hold | ⟨_, hy, hnone⟩)
        · exact hold
        · rw [List.mem_singleton.1 hy, hvisible] at hnone
          cases hnone
  | none =>
      refine ⟨owners_add r s _, fun i other hother => (mem_items_add hs).2 (.inl hother), ?_, ?_⟩
      · intro i y
        simp only [Option.isSome_none, Bool.false_eq_true, if_false]
        rw [mem_items_add hs, List.mem_singleton]
        constructor
        · rintro (hold | ⟨hi, heq⟩)
          · exact .inl hold
          · obtain rfl : y = x := by simpa using heq
            exact .inr ⟨hi, rfl, hvisible⟩
        · rintro (hold | ⟨hi, rfl, _⟩)
          · exact .inl hold
          · exact .inr ⟨hi, rfl⟩
      · exact h.add hs (by simp [Counters.Handed]) (by simp) (by simp)

end Register
end LittleMan
