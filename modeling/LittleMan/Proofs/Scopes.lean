import LittleMan.Scope
import Mathlib

/-!
# Tables of scopes

Scopes are added to the end of a table and name their parent by its place, so a parent
stands before its scope and a look-up that goes outwards comes to an end.  `Scopes.Chain`
is the way outwards, and `Scopes.resolve_eq` says that a look-up finds the first scope on
it that has the name.

A scope finds its symbols by an index that grows with them.  `Scope.Indexed` says that the
two agree, and holds as long as no name is added twice (`Scope.Indexed.add`).

A label that has been written into code must not change its meaning.  Symbols that are
interned enter a scope only if their name is not visible from there.  A scope between a
look-up and the owner it finds sees the name too, so nothing is ever interned between them;
`Scopes.Extends` carries this through any number of requests.
-/

namespace LittleMan

/-! ## The index of a scope -/

namespace Scope

def names (scope : Scope) : List String :=
  scope.symbols.toList.map Symbol.name

/-- The index has every name, each with its one place. -/
def Indexed (scope : Scope) : Prop :=
  ∀ (name : String) (i : Nat), scope.index.lookup name = some i ↔
    ∃ symbol, scope.symbols[i]? = some symbol ∧ symbol.name = name

variable {scope : Scope}

theorem indexed_empty (stem : String) (parent : Option Nat) :
    (Scope.empty stem parent).Indexed := by
  intro name i
  simp

theorem Indexed.add (h : scope.Indexed) {symbol : Symbol}
    (hnew : scope.find? symbol.name = none) : (scope.add symbol).Indexed := by
  have hunused : scope.index.lookup symbol.name = none := by
    simpa [hnew] using scope.isSome_find? symbol.name
  intro name i
  have hget : (scope.add symbol).symbols[i]? =
      if i = scope.symbols.size then some symbol else scope.symbols[i]? :=
    Array.getElem?_push
  rw [lookup_add, hget]
  by_cases hname : symbol.name = name
  · subst hname
    simp only [if_true, Option.some.injEq]
    constructor
    · rintro rfl
      exact ⟨symbol, by simp, rfl⟩
    · rintro ⟨other, hother, hsame⟩
      split at hother
      next hi => exact hi.symm
      next =>
        have hplace := (h symbol.name i).2 ⟨other, hother, hsame⟩
        rw [hunused] at hplace
        cases hplace
  · rw [if_neg hname, h]
    refine exists_congr fun other => and_congr_left fun hsame => ?_
    split
    next hi =>
      rw [Array.getElem?_eq_none hi.ge]
      simp only [reduceCtorEq, Option.some.injEq, false_iff]
      rintro rfl
      exact hname hsame
    next => rfl

/-- Two symbols of one name would both have the place that the index gives to it. -/
theorem Indexed.nodup_names (h : scope.Indexed) : scope.names.Nodup := by
  have hplace : ∀ (i : Nat) (hi : i < scope.names.length),
      scope.index.lookup scope.names[i] = some i := by
    intro i hi
    have hsize : i < scope.symbols.size := by simpa [names] using hi
    exact (h _ _).2 ⟨scope.symbols[i], Array.getElem?_eq_getElem hsize, by simp [names]⟩
  refine List.nodup_iff_injective_getElem.2 fun i j heq => ?_
  have hsame : some i.1 = some j.1 := by
    rw [← hplace i.1 i.2, ← hplace j.1 j.2]
    exact congrArg (scope.index.lookup ·) heq
  exact Fin.ext (Option.some.inj hsame)

/-- What the index leads to is what a search through the symbols finds. -/
theorem Indexed.find?_eq (h : scope.Indexed) (name : String) :
    scope.find? name = scope.symbols.find? fun symbol => symbol.name == name := by
  cases hfound : scope.symbols.find? fun symbol => symbol.name == name with
  | none =>
      have hplace : scope.index.lookup name = none := by
        cases hplace : scope.index.lookup name with
        | none => rfl
        | some i =>
            obtain ⟨symbol, hget, hname⟩ := (h name i).1 hplace
            have hother := Array.find?_eq_none.1 hfound symbol (Array.mem_of_getElem? hget)
            exact absurd hname (by simpa using hother)
      rw [find?, hplace, Option.bind_none]
  | some symbol =>
      obtain ⟨hname, i, hi, hget, -⟩ := Array.find?_eq_some_iff_getElem.1 hfound
      have hsymbol : scope.symbols[i]? = some symbol := by rw [Array.getElem?_eq_getElem hi, hget]
      rw [find?, (h name i).2 ⟨symbol, hsymbol, by simpa using hname⟩, Option.bind_some, hsymbol]

end Scope

/-! ## Looking outwards -/

namespace Scopes

/-- The symbol of a name in one scope, with the place of the scope. -/
def symbolAt? (scopes : Scopes) (name : String) (s : Nat) : Option (Symbol × Nat) :=
  (scopes.table[s]?).bind fun here => (here.find? name).map (·, s)

/-- The scopes from one outwards, as far as there are parents. -/
inductive Chain (scopes : Scopes) : Nat → List Nat → Prop
  | outermost {s : Nat} (parent : scopes.parent s = none) : Chain scopes s [s]
  | inner {s p : Nat} {chain : List Nat} (parent : scopes.parent s = some p)
      (outwards : Chain scopes p chain) : Chain scopes s (s :: chain)

structure Sound (scopes : Scopes) : Prop where
  parents : ∀ {s p : Nat}, scopes.parent s = some p → p < s
  indexed : ∀ {s : Nat} {here : Scope}, scopes.table[s]? = some here → here.Indexed

variable {a b scopes : Scopes} {s : Nat} {name : String}

theorem Sound.exists_chain (h : scopes.Sound) (s : Nat) : ∃ chain, scopes.Chain s chain := by
  induction s using Nat.strong_induction_on with
  | _ s ih =>
      cases hparent : scopes.parent s with
      | none => exact ⟨[s], .outermost hparent⟩
      | some p =>
          obtain ⟨chain, hchain⟩ := ih p (h.parents hparent)
          exact ⟨s :: chain, .inner hparent hchain⟩

/-- A look-up that may go through more scopes than there are in front of it walks along the
whole chain. -/
theorem Chain.resolveWithin_eq {chain : List Nat} (hchain : scopes.Chain s chain) (h : scopes.Sound)
    {depth : Nat} (hdepth : s < depth) :
    scopes.resolveWithin name depth s = chain.findSome? (scopes.symbolAt? name) := by
  induction hchain generalizing depth with
  | @outermost s hparent =>
      obtain ⟨depth, rfl⟩ := Nat.exists_eq_succ_of_ne_zero (Nat.ne_zero_of_lt hdepth)
      rw [resolveWithin, List.findSome?_singleton, symbolAt?]
      cases hhere : scopes.table[s]? with
      | none => rfl
      | some here =>
          have hnone : here.parent = none := by simpa [parent, hhere] using hparent
          cases hfind : here.find? name <;> simp [hfind, hnone]
  | @inner s p chain hparent outwards ih =>
      obtain ⟨depth, rfl⟩ := Nat.exists_eq_succ_of_ne_zero (Nat.ne_zero_of_lt hdepth)
      have hless := h.parents hparent
      rw [resolveWithin, List.findSome?_cons, symbolAt?]
      cases hhere : scopes.table[s]? with
      | none => simp [parent, hhere] at hparent
      | some here =>
          have hsome : here.parent = some p := by simpa [parent, hhere] using hparent
          have hdeep : p < depth := by omega
          cases hfind : here.find? name with
          | none => simp [hfind, hsome, ih hdeep]
          | some symbol => simp [hfind]

/-- A look-up finds the nearest scope on the way outwards that has the name. -/
theorem Chain.resolve_eq {chain : List Nat} (hchain : scopes.Chain s chain) (h : scopes.Sound)
    (name : String) : scopes.resolve s name = chain.findSome? (scopes.symbolAt? name) := by
  by_cases hs : s < scopes.table.size
  · exact hchain.resolveWithin_eq h hs
  have hnone : scopes.table[s]? = none := Array.getElem?_eq_none (Nat.not_lt.1 hs)
  have hresolve : scopes.resolve s name = none := by
    unfold resolve
    cases scopes.table.size <;> simp [resolveWithin, hnone]
  cases hchain with
  | outermost hparent => simp [hresolve, symbolAt?, hnone]
  | inner hparent outwards => simp [parent, hnone] at hparent

theorem resolve_of_find? {here : Scope} {symbol : Symbol} (hhere : scopes.table[s]? = some here)
    (hfind : here.find? name = some symbol) : scopes.resolve s name = some (symbol, s) := by
  have hs := (Array.getElem?_eq_some_iff.1 hhere).1
  obtain ⟨depth, hdepth⟩ := Nat.exists_eq_succ_of_ne_zero (Nat.ne_zero_of_lt hs)
  simp [resolve, hdepth, resolveWithin, hhere, hfind]

/-! ## Requests -/

end Scopes

/-- What can be asked of a table of scopes. -/
inductive ScopeRequest where
  | add (stem : String) (parent : Nat)
  | declare (scope : Nat) (name : String) (kind : SymbolKind) (value : Word)
  | declareLocal (scope : Nat) (name : String)
  | symbolName (kind : SymbolKind) (key : String)
  | intern (scope : Nat) (kind : SymbolKind) (key : String) (value : Word)
  | internLiteral (value : Word)
  | internVariable (scope : Nat) (name : String)
  | freshTemporary (scope : Nat)
  | freshLoop (scope : Nat)
  | freshIf (scope : Nat)
  | nextAssert
deriving DecidableEq, Repr

/-- The parent of the scope that a request adds. -/
def ScopeRequest.parent? : ScopeRequest → Option Nat
  | .add _ parent => some parent
  | _ => none

/-- Whether a request adds a symbol only where its name cannot be seen.  The others put it
into a scope whatever is visible around it. -/
def ScopeRequest.isDiscreet : ScopeRequest → Bool
  | .declare _ _ _ _ | .declareLocal _ _ => false
  | _ => true

namespace Scopes

def serve (scopes : Scopes) : ScopeRequest → Scopes
  | .add stem parent => (scopes.add stem parent).2
  | .declare scope name kind value => (scopes.declare scope name kind value).2
  | .declareLocal scope name => (scopes.declareLocal scope name).2
  | .symbolName kind key => (scopes.symbolName kind key).2
  | .intern scope kind key value => (scopes.intern scope kind key value).2
  | .internLiteral value => (scopes.internLiteral value).2
  | .internVariable scope name => (scopes.internVariable scope name).2
  | .freshTemporary scope => (scopes.freshTemporary scope).2
  | .freshLoop scope => (scopes.freshLoop scope).2
  | .freshIf scope => (scopes.freshIf scope).2
  | .nextAssert => scopes.nextAssert.2

def serveAll (scopes : Scopes) (requests : List ScopeRequest) : Scopes :=
  requests.foldl serve scopes

/-- Every scope that is added has a parent that is there already. -/
def Admits (scopes : Scopes) : List ScopeRequest → Prop
  | [] => True
  | request :: rest =>
      (∀ parent ∈ request.parent?, parent < scopes.table.size) ∧
        (scopes.serve request).Admits rest

instance decidableAdmits (scopes : Scopes) : (requests : List ScopeRequest) →
    Decidable (scopes.Admits requests)
  | [] => .isTrue trivial
  | request :: rest =>
      have := decidableAdmits (scopes.serve request) rest
      inferInstanceAs (Decidable (_ ∧ _))

/-- The ways in which a request can change the table. -/
inductive ServeCases (a : Scopes) (request : ScopeRequest) (b : Scopes) : Prop
  | counts (table : b.table = a.table)
  | adds {stem : String} {parent : Nat} (request : request = .add stem parent)
      (table : b.table = (a.add stem parent).2.table)
  | declares {scope : Nat} {name : String} {kind : SymbolKind} {value : Word}
      (table : b.table = (a.declare scope name kind value).2.table)
      (unseen : request.isDiscreet = true → a.resolve scope name = none)

variable {a b scopes : Scopes} {s : Nat} {name : String}

theorem resolve_congr (h : b.table = a.table) (s : Nat) (name : String) :
    b.resolve s name = a.resolve s name := by
  have hwithin : ∀ depth s, b.resolveWithin name depth s = a.resolveWithin name depth s := by
    intro depth
    induction depth with
    | zero => exact fun _ => rfl
    | succ depth ih =>
        intro s
        simp only [resolveWithin, h, ih]
  rw [resolve, resolve, h, hwithin]

theorem declare_congr (h : b.table = a.table) (s : Nat) (name : String) (kind : SymbolKind)
    (value : Word) :
    (b.declare s name kind value).2.table = (a.declare s name kind value).2.table := by
  simp only [declare, h]
  split
  · exact h
  · split
    · exact h
    · rfl

theorem table_symbolName (scopes : Scopes) (kind : SymbolKind) (key : String) :
    (scopes.symbolName kind key).2.table = scopes.table := by
  cases kind <;> rfl

theorem serve_intern_cases (scopes : Scopes) (request : ScopeRequest) (scope : Nat)
    (kind : SymbolKind) (key : String) (value : Word) :
    ServeCases scopes request (scopes.intern scope kind key value).2 := by
  have htable := scopes.table_symbolName kind key
  simp only [intern]
  generalize (scopes.symbolName kind key).1 = name
  generalize (scopes.symbolName kind key).2 = named at htable
  cases hlabel : named.label? (home kind scope) name with
  | some label => exact .counts htable
  | none =>
      refine .declares (declare_congr htable _ name kind value) fun _ => ?_
      rw [← resolve_congr htable]
      simpa [label?] using hlabel

theorem serve_cases (scopes : Scopes) (request : ScopeRequest) :
    ServeCases scopes request (scopes.serve request) := by
  cases request with
  | add stem parent => exact .adds rfl rfl
  | declare scope name kind value => exact .declares rfl nofun
  | declareLocal scope name => exact .declares rfl nofun
  | symbolName kind key => exact .counts (scopes.table_symbolName kind key)
  | nextAssert => exact .counts rfl
  | _ => exact serve_intern_cases scopes _ _ _ _ _

/-- A scope gets one more symbol. -/
structure Declared (a : Scopes) (t : Nat) (symbol : Symbol) (b : Scopes) : Prop where
  unused : ∀ {here : Scope}, a.table[t]? = some here → here.find? symbol.name = none
  table : b.table = a.table.modify t (·.add symbol)

/-- A symbol is declared, or its scope is not there or has the name already. -/
theorem declare_cases (scopes : Scopes) (t : Nat) (name : String) (kind : SymbolKind)
    (value : Word) :
    ((scopes.declare t name kind value).2 = scopes ∧
        ∀ {here : Scope}, scopes.table[t]? = some here → (here.find? name).isSome = true) ∨
      Declared scopes t ⟨name, kind, if kind = .var then 0 else value⟩
        (scopes.declare t name kind value).2 := by
  unfold declare
  cases hhere : scopes.table[t]? with
  | none => exact .inl ⟨rfl, nofun⟩
  | some here =>
      dsimp only
      rw [← here.isSome_find? name]
      split
      next hold => exact .inl ⟨rfl, fun hother => Option.some.inj hother ▸ hold⟩
      next hnew =>
        refine .inr ⟨fun hother => ?_, rfl⟩
        rw [← Option.some.inj (hhere.symm.trans hother)]
        simpa using hnew

namespace Declared

variable {t : Nat} {symbol : Symbol}

theorem getElem?_table (h : Declared a t symbol b) (s : Nat) :
    b.table[s]? = if t = s then (a.table[s]?).map (·.add symbol) else a.table[s]? := by
  rw [h.table, Array.getElem?_modify]

theorem parent_eq (h : Declared a t symbol b) (s : Nat) : b.parent s = a.parent s := by
  rw [parent, parent, h.getElem?_table]
  split
  · cases a.table[s]? <;> rfl
  · rfl

theorem stem_eq (h : Declared a t symbol b) (s : Nat) : b.stem s = a.stem s := by
  rw [stem, stem, h.getElem?_table]
  split
  · cases a.table[s]? <;> rfl
  · rfl

theorem symbolAt?_eq_some (h : Declared a t symbol b) {found : Symbol × Nat}
    (hentry : a.symbolAt? name s = some found) : b.symbolAt? name s = some found := by
  rw [symbolAt?] at hentry ⊢
  rw [h.getElem?_table]
  split
  next hs =>
    cases hhere : a.table[s]? with
    | none => simp [hhere] at hentry
    | some here =>
        simp only [hhere, Option.bind_some, Option.map_some, Scope.find?_add] at hentry ⊢
        rw [if_neg]
        · exact hentry
        rintro rfl
        have hunused := h.unused (hs ▸ hhere)
        simp [hunused] at hentry
  next => exact hentry

theorem symbolAt?_eq_none (h : Declared a t symbol b) (hentry : a.symbolAt? name s = none)
    (hother : t = s → symbol.name ≠ name) : b.symbolAt? name s = none := by
  rw [symbolAt?] at hentry ⊢
  rw [h.getElem?_table]
  split
  next hs =>
    cases hhere : a.table[s]? with
    | none => rfl
    | some here =>
        have hfind : here.find? name = none := by simpa [hhere] using hentry
        simp [Scope.find?_add, hfind, hother hs]
  next => exact hentry

theorem sound (h : Declared a t symbol b) (ha : a.Sound) : b.Sound where
  parents hparent := ha.parents (h.parent_eq _ ▸ hparent)
  indexed := by
    intro s here hhere
    rw [h.getElem?_table] at hhere
    split at hhere
    next hs =>
      subst hs
      obtain ⟨before, hbefore, rfl⟩ := Option.map_eq_some_iff.1 hhere
      exact (ha.indexed hbefore).add (h.unused hbefore)
    next => exact ha.indexed hhere

theorem chain (h : Declared a t symbol b) {chain : List Nat} (hchain : a.Chain s chain) :
    b.Chain s chain := by
  induction hchain with
  | outermost parent => exact .outermost (h.parent_eq _ ▸ parent)
  | inner parent outwards ih => exact .inner (h.parent_eq _ ▸ parent) ih

/-- A name that is found stays with its owner, unless the new symbol stands in front of it.
It does not, if its name was not visible from its scope. -/
theorem findSome?_chain (h : Declared a t symbol b) (ha : a.Sound)
    (hunseen : a.resolve t symbol.name = none) {chain : List Nat} (hchain : a.Chain s chain)
    {found : Symbol × Nat} (hfound : chain.findSome? (a.symbolAt? name) = some found) :
    chain.findSome? (b.symbolAt? name) = some found := by
  induction hchain with
  | outermost parent =>
      rw [List.findSome?_singleton] at hfound ⊢
      exact h.symbolAt?_eq_some hfound
  | @inner s p chain parent outwards ih =>
      cases hentry : a.symbolAt? name s with
      | some other =>
          simp only [List.findSome?_cons, hentry] at hfound
          simp only [List.findSome?_cons, h.symbolAt?_eq_some hentry, hfound]
      | none =>
          have hother : t = s → symbol.name ≠ name := by
            rintro rfl rfl
            have hseen := (Chain.inner parent outwards).resolve_eq ha symbol.name
            rw [hfound, hunseen] at hseen
            cases hseen
          simp only [List.findSome?_cons, hentry] at hfound
          simp only [List.findSome?_cons, h.symbolAt?_eq_none hentry hother]
          exact ih hfound

end Declared

/-! ## Names keep their meaning -/

/-- Whatever is found in the first table is found in the second, in the same scope. -/
structure Extends (a b : Scopes) : Prop where
  size : a.table.size ≤ b.table.size
  stem : ∀ {s : Nat}, s < a.table.size → b.stem s = a.stem s
  resolve : ∀ {s : Nat} {name : String} {found : Symbol × Nat},
    a.resolve s name = some found → b.resolve s name = some found

theorem Extends.refl (a : Scopes) : Extends a a :=
  ⟨le_rfl, fun _ => rfl, id⟩

theorem Extends.trans {c : Scopes} (h : Extends a b) (h' : Extends b c) : Extends a c where
  size := h.size.trans h'.size
  stem hs := (h'.stem (hs.trans_le h.size)).trans (h.stem hs)
  resolve hfound := h'.resolve (h.resolve hfound)

theorem Sound.owner_lt (h : scopes.Sound) {symbol : Symbol} {owner : Nat}
    (hfound : scopes.resolve s name = some (symbol, owner)) : owner < scopes.table.size := by
  obtain ⟨chain, hchain⟩ := h.exists_chain s
  rw [hchain.resolve_eq h] at hfound
  obtain ⟨u, -, hentry⟩ := List.exists_of_findSome?_eq_some hfound
  cases hhere : scopes.table[u]? with
  | none => simp [symbolAt?, hhere] at hentry
  | some here =>
      simp only [symbolAt?, hhere, Option.bind_some, Option.map_eq_some_iff,
        Prod.mk.injEq] at hentry
      obtain ⟨other, -, -, rfl⟩ := hentry
      exact (Array.getElem?_eq_some_iff.1 hhere).1

theorem Extends.label? (h : Extends a b) (ha : a.Sound) {label : String}
    (hlabel : a.label? s name = some label) : b.label? s name = some label := by
  obtain ⟨⟨symbol, owner⟩, hfound, rfl⟩ := Option.map_eq_some_iff.1 hlabel
  refine Option.map_eq_some_iff.2 ⟨(symbol, owner), h.resolve hfound, ?_⟩
  simp only [accessLabel, h.stem (ha.owner_lt hfound)]

theorem Declared.extends {t : Nat} {symbol : Symbol} (h : Declared a t symbol b) (ha : a.Sound)
    (hunseen : a.resolve t symbol.name = none) : Extends a b where
  size := by simp [h.table]
  stem _ := h.stem_eq _
  resolve := by
    intro s name found hfound
    obtain ⟨chain, hchain⟩ := ha.exists_chain s
    rw [hchain.resolve_eq ha] at hfound
    rw [(h.chain hchain).resolve_eq (h.sound ha)]
    exact h.findSome?_chain ha hunseen hchain hfound

section Add

variable (stem : String) (parent : Nat)

theorem getElem?_add (scopes : Scopes) (s : Nat) : (scopes.add stem parent).2.table[s]? =
    if s = scopes.table.size then some (.empty stem (some parent)) else scopes.table[s]? :=
  Array.getElem?_push

variable {stem parent}

theorem Sound.add (h : scopes.Sound) (hparent : parent < scopes.table.size) :
    (scopes.add stem parent).2.Sound := by
  constructor
  · intro s p hp
    rw [Scopes.parent, getElem?_add] at hp
    split at hp
    next hs =>
      obtain rfl : parent = p := by simpa using hp
      omega
    next => exact h.parents hp
  · intro s here hhere
    rw [getElem?_add] at hhere
    split at hhere
    next =>
      obtain rfl := Option.some.inj hhere
      exact Scope.indexed_empty _ _
    next => exact h.indexed hhere

theorem symbolAt?_add (hs : s < scopes.table.size) (name : String) :
    (scopes.add stem parent).2.symbolAt? name s = scopes.symbolAt? name s := by
  rw [symbolAt?, symbolAt?, getElem?_add, if_neg hs.ne]

/-- The way outwards from an old scope does not meet the new one. -/
theorem Chain.add (h : scopes.Sound) {chain : List Nat} (hchain : scopes.Chain s chain)
    (hs : s < scopes.table.size) (name : String) :
    (scopes.add stem parent).2.Chain s chain ∧
      chain.findSome? ((scopes.add stem parent).2.symbolAt? name) =
        chain.findSome? (scopes.symbolAt? name) := by
  induction hchain with
  | @outermost s hparent =>
      constructor
      · refine .outermost ?_
        rwa [Scopes.parent, getElem?_add, if_neg hs.ne]
      · rw [List.findSome?_singleton, symbolAt?_add hs, List.findSome?_singleton]
  | @inner s p chain hparent outwards ih =>
      obtain ⟨hchain, hsame⟩ := ih ((h.parents hparent).trans hs)
      refine ⟨.inner ?_ hchain, by simp only [List.findSome?_cons, symbolAt?_add hs, hsame]⟩
      rwa [Scopes.parent, getElem?_add, if_neg hs.ne]

theorem Sound.extends_add (h : scopes.Sound) (hparent : parent < scopes.table.size) :
    Extends scopes (scopes.add stem parent).2 where
  size := by simp [Scopes.add]
  stem hs := by rw [Scopes.stem, Scopes.stem, getElem?_add, if_neg hs.ne]
  resolve := by
    intro s name found hfound
    have hs : s < scopes.table.size := by
      by_contra hs
      have hnone : scopes.table[s]? = none := Array.getElem?_eq_none (Nat.not_lt.1 hs)
      unfold Scopes.resolve at hfound
      cases hsize : scopes.table.size <;> simp [hsize, resolveWithin, hnone] at hfound
    obtain ⟨chain, hchain⟩ := h.exists_chain s
    obtain ⟨hchain', hsame⟩ : (scopes.add stem parent).2.Chain s chain ∧ _ := hchain.add h hs name
    rw [hchain'.resolve_eq (h.add hparent), hsame, ← hchain.resolve_eq h, hfound]

end Add

theorem Sound.congr (h : a.Sound) (htable : b.table = a.table) : b.Sound where
  parents hparent := h.parents (by rwa [parent, htable] at hparent)
  indexed hhere := h.indexed (htable ▸ hhere)

theorem Extends.congr (h : Extends a b) {c : Scopes} (htable : c.table = b.table) :
    Extends a c where
  size := htable ▸ h.size
  stem hs := by rw [← h.stem hs, Scopes.stem, Scopes.stem, htable]
  resolve hfound := (resolve_congr htable _ _).trans (h.resolve hfound)

/-- A request keeps the table sound, and a discreet one keeps the meaning of every name. -/
theorem Sound.serve (h : scopes.Sound) {request : ScopeRequest}
    (hadmits : ∀ parent ∈ request.parent?, parent < scopes.table.size) :
    (scopes.serve request).Sound ∧
      (request.isDiscreet = true → Extends scopes (scopes.serve request)) := by
  cases serve_cases scopes request with
  | counts table => exact ⟨h.congr table, fun _ => (Extends.refl scopes).congr table⟩
  | adds hrequest table =>
      have hparent := hadmits _ (by rw [hrequest]; rfl)
      exact ⟨(h.add hparent).congr table, fun _ => (h.extends_add hparent).congr table⟩
  | @declares t name kind value table unseen =>
      rcases declare_cases scopes t name kind value with ⟨hsame, -⟩ | hdeclared
      · rw [hsame] at table
        exact ⟨h.congr table, fun _ => (Extends.refl scopes).congr table⟩
      · exact ⟨(hdeclared.sound h).congr table, fun hdiscreet =>
          (hdeclared.extends h (unseen hdiscreet)).congr table⟩

theorem Sound.serveAll (h : scopes.Sound) {requests : List ScopeRequest}
    (hadmits : scopes.Admits requests) :
    (scopes.serveAll requests).Sound ∧
      ((∀ request ∈ requests, request.isDiscreet = true) →
        Extends scopes (scopes.serveAll requests)) := by
  induction requests generalizing scopes with
  | nil => exact ⟨h, fun _ => .refl scopes⟩
  | cons request requests ih =>
      obtain ⟨hrequest, hrest⟩ := hadmits
      obtain ⟨hnext, hextends⟩ := h.serve hrequest
      obtain ⟨hlast, hothers⟩ := ih hnext hrest
      refine ⟨hlast, fun hdiscreet => ?_⟩
      obtain ⟨hfirst, hlater⟩ := List.forall_mem_cons.1 hdiscreet
      exact (hextends hfirst).trans (hothers hlater)

theorem sound_empty : ({} : Scopes).Sound := by
  constructor
  · intro s p hparent
    cases s <;> simp [parent] at hparent
  · intro s here hhere
    cases s with
    | zero =>
        obtain rfl := Option.some.inj hhere
        exact Scope.indexed_empty _ _
    | succ s => simp at hhere

/-! ## Variables that are interned twice -/

theorem internVariable_of_label? {x label : String}
    (h : scopes.label? s (variableName x) = some label) :
    scopes.internVariable s x = (label, scopes) := by
  simp [internVariable, intern, home, symbolName, h]

theorem label?_internVariable (hs : s < scopes.table.size) (x : String) :
    (scopes.internVariable s x).2.label? s (variableName x) =
      some (scopes.internVariable s x).1 := by
  cases hlabel : scopes.label? s (variableName x) with
  | some label => rw [internVariable_of_label? hlabel, hlabel]
  | none =>
      have hintern : scopes.internVariable s x =
          (scopes.accessLabel .var (variableName x) s,
            (scopes.declare s (variableName x) .var 0).2) := by
        simp [internVariable, intern, home, symbolName, hlabel]
      have hunseen : scopes.resolve s (variableName x) = none := by simpa [label?] using hlabel
      have hhere : scopes.table[s]? = some scopes.table[s] := Array.getElem?_eq_getElem hs
      rw [hintern]
      rcases declare_cases scopes s (variableName x) .var 0 with ⟨-, hold⟩ | hdeclared
      · obtain ⟨symbol, hfind⟩ := Option.isSome_iff_exists.1 (hold hhere)
        rw [resolve_of_find? hhere hfind] at hunseen
        cases hunseen
      · have hafter : (scopes.declare s (variableName x) .var 0).2.table[s]? =
            some (scopes.table[s].add ⟨variableName x, .var, 0⟩) := by
          rw [hdeclared.getElem?_table, if_pos rfl, hhere]
          rfl
        have hfind : (scopes.table[s].add ⟨variableName x, .var, 0⟩).find? (variableName x) =
            some ⟨variableName x, .var, 0⟩ := by
          simp [Scope.find?_add]
        simp only [label?, resolve_of_find? hafter hfind, Option.map_some, accessLabel,
          hdeclared.stem_eq]

/-- After any requests to a new table, whose scopes are added under scopes that are there:
every parent stands before its scope; no scope has a name twice, and its index finds every
name at its place; and a look-up goes outwards along a finite chain of scopes and finds the
first one that has the name.  From there on a label never changes, as long as no symbol is
declared in spite of what is visible, and a variable that is interned again gets the same
label and leaves the table as it is. -/
theorem lookup_sound_stable {requests : List ScopeRequest}
    (hadmits : ({} : Scopes).Admits requests) :
    let scopes := ({} : Scopes).serveAll requests
    (∀ s p, scopes.parent s = some p → p < s) ∧
      (∀ (s : Nat) here, scopes.table[s]? = some here → here.names.Nodup ∧
        (∀ (name : String) (i : Nat), here.index.lookup name = some i ↔
          ∃ symbol, here.symbols[i]? = some symbol ∧ symbol.name = name) ∧
        ∀ name, here.find? name = here.symbols.find? fun symbol => symbol.name == name) ∧
      (∀ s, ∃ chain, scopes.Chain s chain ∧
        ∀ name, scopes.resolve s name = chain.findSome? (scopes.symbolAt? name)) ∧
      (∀ later, scopes.Admits later → (∀ request ∈ later, request.isDiscreet = true) →
        ∀ s name label, scopes.label? s name = some label →
          (scopes.serveAll later).label? s name = some label) ∧
      ∀ s < scopes.table.size, ∀ x later,
        let first := scopes.internVariable s x
        first.2.Admits later → (∀ request ∈ later, request.isDiscreet = true) →
          (first.2.serveAll later).internVariable s x = (first.1, first.2.serveAll later) := by
  intro scopes
  have hsound : scopes.Sound := (sound_empty.serveAll hadmits).1
  refine ⟨fun _ _ => hsound.parents, fun s here hhere => ?_, fun s => ?_, ?_, ?_⟩
  · have hindexed := hsound.indexed hhere
    exact ⟨hindexed.nodup_names, hindexed, hindexed.find?_eq⟩
  · obtain ⟨chain, hchain⟩ := hsound.exists_chain s
    exact ⟨chain, hchain, hchain.resolve_eq hsound⟩
  · intro later hlater hdiscreet s name label hlabel
    exact ((hsound.serveAll hlater).2 hdiscreet).label? hsound hlabel
  · intro s hs x later first hlater hdiscreet
    have hparent : ∀ parent ∈ (ScopeRequest.internVariable s x).parent?,
        parent < scopes.table.size := nofun
    have hfirst : first.2.Sound := (hsound.serve hparent).1
    have hextends := (hfirst.serveAll hlater).2 hdiscreet
    exact internVariable_of_label? (hextends.label? hfirst (label?_internVariable hs x))

/-- A parameter that hides a global variable, and a variable of a function whose name the
main program uses later. -/
theorem lookup_sound_stable_shadowed :
    let requests : List ScopeRequest :=
      [.add "func_f" 0, .declareLocal 1 "n", .internVariable 0 "n"]
    let later : List ScopeRequest :=
      [.add "func_g" 1, .internVariable 2 "n", .internVariable 0 "m", .freshTemporary 1]
    let scopes := ({} : Scopes).serveAll requests
    let first := scopes.internVariable 1 "m"
    ({} : Scopes).Admits requests ∧ scopes.Admits later ∧ first.2.Admits later ∧
      scopes.label? 1 "var_n" = some "func_f_var_n" ∧
      (scopes.serveAll later).label? 1 "var_n" = some "func_f_var_n" ∧
      first.1 = "func_f_var_m" ∧
      (first.2.serveAll later).internVariable 1 "m" = (first.1, first.2.serveAll later) := by
  intro requests later scopes first
  have hrequests : ({} : Scopes).Admits requests := by decide +kernel
  have hlater : scopes.Admits later := by decide +kernel
  have hafter : first.2.Admits later := by decide +kernel
  have hdiscreet : ∀ request ∈ later, request.isDiscreet = true := by decide
  have hlabel : scopes.label? 1 "var_n" = some "func_f_var_n" := by decide +kernel
  obtain ⟨-, -, -, hstable, htwice⟩ := lookup_sound_stable hrequests
  exact ⟨hrequests, hlater, hafter, hlabel, hstable later hlater hdiscreet 1 _ _ hlabel,
    by decide +kernel, htwice 1 (by decide +kernel) "m" later hafter hdiscreet⟩

end Scopes
end LittleMan
