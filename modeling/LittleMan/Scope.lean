import LittleMan.Word

/-!
# Symbols and scopes

A symbol names a variable, a literal, a temporary, or a place in the code.  Scopes
stand in a table and point at the scope around them; a name is looked up from a
scope outwards and belongs to the nearest scope that has it.  Literals and
functions live in the outermost scope, so that a program has one cell for every
literal value.  Within a scope the symbols keep the order in which they came,
which is the order of the data cells in the finished program.

The table also numbers temporaries, loops, choices and assertions, so that the
labels made from the numbers are never handed out twice.
-/

namespace LittleMan

inductive SymbolKind where
  | var
  | literal
  | temporary
  | loopLabel
  | ifLabel
  | function
deriving DecidableEq, Repr

namespace SymbolKind

def hasStorage : SymbolKind → Bool
  | .var | .literal | .temporary => true
  | _ => false

/-- Whether the label of a symbol carries the name of its scope. -/
def isScoped : SymbolKind → Bool
  | .var => true
  | _ => false

end SymbolKind

structure Symbol where
  name : String
  kind : SymbolKind
  initial : Word
deriving DecidableEq, Repr

/-- The index of a scope has the places of its symbols under their names. -/
structure Scope where
  stem : String
  parent : Option Nat
  symbols : Array Symbol
  index : List (String × Nat)
  within : ∀ entry ∈ index, entry.2 < symbols.size
deriving DecidableEq, Repr

namespace Scope

def empty (stem : String) (parent : Option Nat) : Scope where
  stem := stem
  parent := parent
  symbols := #[]
  index := []
  within := by simp

@[simp] theorem parent_empty (stem : String) (parent : Option Nat) :
    (empty stem parent).parent = parent := rfl

@[simp] theorem symbols_empty (stem : String) (parent : Option Nat) :
    (empty stem parent).symbols = #[] := rfl

@[simp] theorem index_empty (stem : String) (parent : Option Nat) :
    (empty stem parent).index = [] := rfl

def find? (scope : Scope) (name : String) : Option Symbol :=
  (scope.index.lookup name).bind (scope.symbols[·]?)

def add (scope : Scope) (symbol : Symbol) : Scope where
  stem := scope.stem
  parent := scope.parent
  symbols := scope.symbols.push symbol
  index := (symbol.name, scope.symbols.size) :: scope.index
  within := by
    intro entry hentry
    rw [Array.size_push]
    rcases List.mem_cons.1 hentry with rfl | hold
    · exact Nat.lt_succ_self _
    · exact Nat.lt_succ_of_lt (scope.within entry hold)

theorem lt_size_of_lookup {scope : Scope} {name : String} {i : Nat}
    (h : scope.index.lookup name = some i) : i < scope.symbols.size := by
  obtain ⟨before, after, hindex, -⟩ := List.lookup_eq_some_iff.1 h
  exact scope.within (name, i) (by simp [hindex])

theorem isSome_find? (scope : Scope) (name : String) :
    (scope.find? name).isSome = (scope.index.lookup name).isSome := by
  unfold find?
  cases hplace : scope.index.lookup name with
  | none => rfl
  | some i => simp [lt_size_of_lookup hplace]

theorem lookup_add (scope : Scope) (symbol : Symbol) (name : String) :
    (scope.add symbol).index.lookup name =
      if symbol.name = name then some scope.symbols.size else scope.index.lookup name := by
  by_cases h : symbol.name = name
  · simp [add, h]
  · have hne : (name == symbol.name) = false := beq_eq_false_iff_ne.2 fun heq => h heq.symm
    simp [add, List.lookup_cons, hne, h]

theorem find?_add (scope : Scope) (symbol : Symbol) (name : String) :
    (scope.add symbol).find? name =
      if symbol.name = name then some symbol else scope.find? name := by
  unfold find?
  rw [lookup_add]
  split
  · simp [add]
  · cases hplace : scope.index.lookup name with
    | none => rfl
    | some i => simp [add, Array.getElem?_push, Nat.ne_of_lt (lt_size_of_lookup hplace)]

end Scope

/-- How many labels of each sort have been handed out. -/
structure Counters where
  temporaries : Nat := 0
  loops : Nat := 0
  ifs : Nat := 0
  asserts : Nat := 0
deriving DecidableEq, Repr

namespace Counters

def nextTemporary (counters : Counters) : Nat × Counters :=
  (counters.temporaries, { counters with temporaries := counters.temporaries + 1 })

def nextLoop (counters : Counters) : Nat × Counters :=
  (counters.loops, { counters with loops := counters.loops + 1 })

def nextIf (counters : Counters) : Nat × Counters :=
  (counters.ifs, { counters with ifs := counters.ifs + 1 })

def nextAssert (counters : Counters) : Nat × Counters :=
  (counters.asserts, { counters with asserts := counters.asserts + 1 })

end Counters

/-- A data cell: the label it is reached by and the word it starts with. -/
structure Declaration where
  label : String
  initial : Word
deriving DecidableEq, Repr

def Declaration.text (declaration : Declaration) : String :=
  declaration.label ++ " DAT " ++ declaration.initial.text

structure Scopes where
  table : Array Scope := #[.empty "global" none]
  counters : Counters := {}
deriving DecidableEq, Repr

namespace Scopes

/-- The outermost scope. -/
def root : Nat :=
  0

def add (scopes : Scopes) (stem : String) (parent : Nat) : Nat × Scopes :=
  (scopes.table.size,
    { scopes with table := scopes.table.push (.empty stem (some parent)) })

def stem (scopes : Scopes) (scope : Nat) : String :=
  (scopes.table[scope]?).elim "" Scope.stem

def parent (scopes : Scopes) (scope : Nat) : Option Nat :=
  (scopes.table[scope]?).bind Scope.parent

def ids (scopes : Scopes) : List Nat :=
  List.range scopes.table.size

def symbols (scopes : Scopes) (scope : Nat) : List Symbol :=
  (scopes.table[scope]?).elim [] fun scope => scope.symbols.toList

/-- Adds a symbol unless the scope has the name already, and tells which it was.
Variables start at zero. -/
def declare (scopes : Scopes) (scope : Nat) (name : String) (kind : SymbolKind) (value : Word) :
    Bool × Scopes :=
  match scopes.table[scope]? with
  | none => (false, scopes)
  | some here =>
      if (here.index.lookup name).isSome then (false, scopes)
      else
        let initial := if kind = .var then 0 else value
        (true, { scopes with table := scopes.table.modify scope (·.add { name, kind, initial }) })

/-- Looks outwards through at most `depth` scopes. -/
def resolveWithin (scopes : Scopes) (name : String) : Nat → Nat → Option (Symbol × Nat)
  | 0, _ => none
  | depth + 1, scope =>
      match scopes.table[scope]? with
      | none => none
      | some here =>
          match here.find? name with
          | some symbol => some (symbol, scope)
          | none =>
              match here.parent with
              | none => none
              | some parent => resolveWithin scopes name depth parent

/-- The symbol that a name means in a scope, and the scope that owns it. -/
def resolve (scopes : Scopes) (scope : Nat) (name : String) : Option (Symbol × Nat) :=
  scopes.resolveWithin name scopes.table.size scope

def accessLabel (scopes : Scopes) (kind : SymbolKind) (name : String) (owner : Nat) : String :=
  if kind.isScoped then scopes.stem owner ++ "_" ++ name
  else if kind = .function then name ++ "_start"
  else name

section

variable (scopes : Scopes) (name : String) (owner : Nat)

@[simp] theorem accessLabel_var :
    scopes.accessLabel .var name owner = scopes.stem owner ++ "_" ++ name := rfl

@[simp] theorem accessLabel_literal : scopes.accessLabel .literal name owner = name := rfl

@[simp] theorem accessLabel_temporary : scopes.accessLabel .temporary name owner = name := rfl

end

/-- The label of a name as seen from a scope, made with the stem of its owner. -/
def label? (scopes : Scopes) (scope : Nat) (name : String) : Option String :=
  (scopes.resolve scope name).map fun (symbol, owner) =>
    scopes.accessLabel symbol.kind symbol.name owner

def literalName (key : String) : String :=
  match key.toList with
  | '-' :: magnitude => "literal_neg" ++ String.ofList magnitude
  | _ => "literal_" ++ key

def variableName (key : String) : String :=
  "var_" ++ key

/-- The name of a new symbol inside its scope.  Symbols that are numbered take
the next number and pay no heed to the key. -/
def symbolName (scopes : Scopes) (kind : SymbolKind) (key : String) : String × Scopes :=
  match kind with
  | .literal => (literalName key, scopes)
  | .var => (variableName key, scopes)
  | .function => ("func_" ++ key, scopes)
  | .temporary =>
      let (n, counters) := scopes.counters.nextTemporary
      ("temp_" ++ toString n, { scopes with counters })
  | .loopLabel =>
      let (n, counters) := scopes.counters.nextLoop
      ("loop_" ++ toString n, { scopes with counters })
  | .ifLabel =>
      let (n, counters) := scopes.counters.nextIf
      ("if_" ++ toString n, { scopes with counters })

/-- The scope that a new symbol goes to. -/
def home (kind : SymbolKind) (scope : Nat) : Nat :=
  match kind with
  | .literal | .function => root
  | _ => scope

/-- The label of a symbol that is visible already or else is added. -/
def intern (scopes : Scopes) (scope : Nat) (kind : SymbolKind) (key : String) (value : Word) :
    String × Scopes :=
  let owner := home kind scope
  let (name, scopes) := scopes.symbolName kind key
  match scopes.label? owner name with
  | some label => (label, scopes)
  | none => (scopes.accessLabel kind name owner, (scopes.declare owner name kind value).2)

def internLiteral (scopes : Scopes) (value : Word) : String × Scopes :=
  scopes.intern root .literal value.text value

def internVariable (scopes : Scopes) (scope : Nat) (name : String) : String × Scopes :=
  scopes.intern scope .var name 0

def lookup? (scopes : Scopes) (scope : Nat) (name : String) : Option String :=
  scopes.label? scope (variableName name)

/-- Declares a variable in the scope itself, whatever is visible around it. -/
def declareLocal (scopes : Scopes) (scope : Nat) (name : String) : String × Scopes :=
  (scopes.accessLabel .var (variableName name) scope,
    (scopes.declare scope (variableName name) .var 0).2)

def freshTemporary (scopes : Scopes) (scope : Nat) : String × Scopes :=
  scopes.intern scope .temporary "" 0

def freshLoop (scopes : Scopes) (scope : Nat) : String × Scopes :=
  scopes.intern scope .loopLabel "" 0

def freshIf (scopes : Scopes) (scope : Nat) : String × Scopes :=
  scopes.intern scope .ifLabel "" 0

def nextAssert (scopes : Scopes) : Nat × Scopes :=
  let (n, counters) := scopes.counters.nextAssert
  (n, { scopes with counters })

/-- The data cells that a scope owns, in the order of its symbols. -/
def declarations (scopes : Scopes) (scope : Nat) : List Declaration :=
  ((scopes.symbols scope).filter fun symbol => symbol.kind.hasStorage).map fun symbol =>
    { label := scopes.accessLabel symbol.kind symbol.name scope, initial := symbol.initial }

def allDeclarations (scopes : Scopes) : List Declaration :=
  scopes.ids.flatMap scopes.declarations

end Scopes
end LittleMan
