import LittleMan.Assembly.Sheet
import LittleMan.Loops
import LittleMan.Lowering.Error

/-!
# Drafts

A draft is a program on its way to assembly code: the symbols known so far, the
loops around the current statement, the functions that can be called, and the
sheet that the code is written on.  A lowering changes the draft, gives back a
result, and fails at the first thing that the language does not allow.
-/

namespace LittleMan

/-- A declared function: its parameters, its scope and the label of its code. -/
structure Routine where
  params : List String
  scope : Nat
  start : String
deriving DecidableEq, Repr

structure Draft where
  scopes : Scopes := {}
  loops : Loops := {}
  sheet : Sheet := {}
  scope : Nat := Scopes.root
  routines : List (String × Routine) := []
  inFunction : Bool := false
deriving DecidableEq, Repr

abbrev Lowering (α : Type) := StateT Draft (Except CompileError) α

namespace Lowering

def refuse {α : Type} (error : CompileError) : Lowering α := fun _ =>
  .error error

/-- Writes on the sheet. -/
def write (change : Sheet → Sheet) : Lowering Unit := fun draft =>
  .ok ((), { draft with sheet := change draft.sheet })

/-- Asks the table of scopes for a label, which may add a symbol to it. -/
def withScopes {α : Type} (ask : Scopes → Nat → α × Scopes) : Lowering α := fun draft =>
  let (answer, scopes) := ask draft.scopes draft.scope
  .ok (answer, { draft with scopes })

def op (op : Opcode) : Lowering Unit :=
  write (·.op op)

def opTo (op : Opcode) (operand : String) : Lowering Unit :=
  write (·.opTo op operand)

def label (label : String) : Lowering Unit :=
  write (·.label label)

def anchor (label : String) : Lowering Unit :=
  write (·.anchor label)

def binary (a : String) (op : Opcode) (b dest : String) : Lowering Unit :=
  write (·.binary a op b dest)

def copy (source dest : String) : Lowering Unit :=
  write (·.copy source dest)

def note (text : String) : Lowering Unit :=
  write (·.note text)

def literal (value : Word) : Lowering String :=
  withScopes fun scopes _ => scopes.internLiteral value

def temporary : Lowering String :=
  withScopes fun scopes scope => scopes.freshTemporary scope

def loopLabel : Lowering String :=
  withScopes fun scopes scope => scopes.freshLoop scope

def ifLabel : Lowering String :=
  withScopes fun scopes scope => scopes.freshIf scope

def assertNumber : Lowering Nat :=
  withScopes fun scopes _ => scopes.nextAssert

/-- The cell of a variable that is assigned to. -/
def target (name : String) : Lowering String :=
  withScopes fun scopes scope => scopes.internVariable scope name

/-- The cell of a variable that is read. -/
def variableCell (name : String) : Lowering String := fun draft =>
  match draft.scopes.lookup? draft.scope name with
  | some cell => .ok (cell, draft)
  | none => .error (.undefined name)

def routine (name : String) : Lowering Routine := fun draft =>
  match draft.routines.lookup name with
  | some routine => .ok (routine, draft)
  | none => .error (.unknownFunction name)

/-- Lowers the body of a loop, so that `break` and `continue` in it mean the loop. -/
def insideLoop (label continueTarget : String) (body : Lowering Unit) : Lowering Unit := do
  modify fun draft => { draft with loops := draft.loops.enter label continueTarget }
  body
  modify fun draft => { draft with loops := draft.loops.leave.2 }

end Lowering
end LittleMan
