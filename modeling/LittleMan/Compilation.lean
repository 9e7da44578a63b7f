import LittleMan.Lowering.Statement

/-!
# Compiled programs

A program is laid out as its main statements, a `HLT`, the bodies of its functions
in the order of their declarations, and one cell for every symbol that is stored.
The functions are entered into the draft before any code is written, so that a
call may come before the declaration.
-/

namespace LittleMan

namespace Lowering

def builtins : List String :=
  ["print", "input", "assert"]

def declareParams (scope : Nat) : List String → Scopes → Scopes
  | [], scopes => scopes
  | param :: rest, scopes => declareParams scope rest (scopes.declareLocal scope param).2

/-- Enters a function into the draft: the label of its code, a scope for its
variables, and its parameters in that scope. -/
def enterRoutine (name : String) (params : List String) : Lowering Unit := fun draft =>
  let builtin := builtins.contains name
  if builtin || (draft.routines.lookup name).isSome then
    .error (.duplicateFunction name builtin)
  else
    let (start, scopes) := draft.scopes.intern Scopes.root .function name 0
    let (scope, scopes) := scopes.add ("func_" ++ name) Scopes.root
    .ok ((), { draft with
      scopes := declareParams scope params scopes
      routines := draft.routines ++ [(name, { params, scope, start })] })

def enterRoutines : List Stmt → Lowering Unit
  | .function name params _ :: rest => do
      enterRoutine name params
      enterRoutines rest
  | _ :: rest => enterRoutines rest
  | [] => return ()

/-- Takes the arguments off the stack, the last one first. -/
def popParams : List String → Lowering Unit
  | [] => return ()
  | param :: rest => do
      let cell ← variableCell param
      op .pop
      opTo .sta cell
      popParams rest

def function (name : String) (body : List Stmt) : Lowering Unit := do
  let routine ← routine name
  modify fun draft => { draft with scope := routine.scope, inFunction := true }
  note ("function " ++ name ++ "(" ++ ", ".intercalate routine.params ++ ")")
  anchor routine.start
  popParams routine.params.reverse
  block body
  returnFrom (← literal 0)
  modify fun draft => { draft with scope := Scopes.root, inFunction := false }

def functions : List Stmt → Lowering Unit
  | .function name _ body :: rest => do
      function name body
      functions rest
  | _ :: rest => functions rest
  | [] => return ()

def declareData : Lowering Unit := fun draft =>
  .ok ((), { draft with
    sheet := draft.scopes.allDeclarations.foldl Sheet.declare draft.sheet })

def program (program : Program) : Lowering Unit := do
  enterRoutines program.functions
  note "main"
  block program.main
  op .hlt
  functions program.functions
  note "data"
  declareData

end Lowering

/-- The sheet of a compiled program, and how many temporaries and functions it has. -/
structure Compilation where
  sheet : Sheet
  temporaries : Nat
  functions : Nat
deriving DecidableEq, Repr

def Compilation.text (compilation : Compilation) : String :=
  compilation.sheet.text

def Program.compile (program : Program) (takesNotes : Bool := true) :
    Except CompileError Compilation :=
  (Lowering.program program { sheet := { takesNotes } }).map fun ((), draft) =>
    { sheet := draft.sheet
      temporaries := draft.scopes.counters.temporaries
      functions := draft.routines.length }

end LittleMan
