import LittleMan.Word

/-!
# Programs

The syntax tree of the pseudocode language.  Any word other than zero counts as
true.  A program is a list of statements in which function declarations may stand
anywhere; `Program.functions` and `Program.main` separate them from the
statements that run.  The tree keeps parentheses, and it keeps both names of a
`for` loop, so that later phases can refuse what does not match.
-/

namespace LittleMan

inductive BinaryOp where
  | add
  | sub
  | mul
  | div
  | mod
  | pow
  | eq
  | notEq
  | lt
  | gt
  | ltEq
  | gtEq
  | and
  | or
deriving DecidableEq, Repr

namespace BinaryOp

def all : List BinaryOp :=
  [.add, .sub, .mul, .div, .mod, .pow, .eq, .notEq, .lt, .gt, .ltEq, .gtEq, .and, .or]

def symbol : BinaryOp → String
  | .add => "+"
  | .sub => "-"
  | .mul => "*"
  | .div => "/"
  | .mod => "MOD"
  | .pow => "^"
  | .eq => "=="
  | .notEq => "!="
  | .lt => "<"
  | .gt => ">"
  | .ltEq => "<="
  | .gtEq => ">="
  | .and => "AND"
  | .or => "OR"

def isComparison : BinaryOp → Bool
  | .eq | .notEq | .lt | .gt | .ltEq | .gtEq => true
  | _ => false

end BinaryOp

inductive UnaryOp where
  | neg
  | not
deriving DecidableEq, Repr

inductive Expr where
  | integer (value : Word)
  | bool (value : Bool)
  | text (content : String)
  | name (word : String)
  | group (inner : Expr)
  | unary (op : UnaryOp) (operand : Expr)
  | binary (left : Expr) (op : BinaryOp) (right : Expr)
  | call (callee : String) (args : List Expr)
deriving Repr

/-- The arms of a choice are pairs of what is tested and what is then done. -/
inductive Stmt where
  | assign (target : String) (value : Expr)
  | choose (arms : List (Expr × List Stmt)) (otherwise : Option (List Stmt))
  | whileLoop (condition : Expr) (body : List Stmt)
  | untilLoop (body : List Stmt) (condition : Expr)
  | forLoop (var : String) (first last : Expr) (body : List Stmt) (closing : String)
  | switch (subject : Expr) (cases : List (Expr × List Stmt)) (otherwise : Option (List Stmt))
  | function (name : String) (params : List String) (body : List Stmt)
  | giveBack (value : Option Expr)
  | leaveLoop
  | nextPass
  | evaluate (value : Expr)
deriving Repr

structure Program where
  statements : List Stmt := []
deriving Repr

namespace Stmt

def isFunction : Stmt → Bool
  | .function .. => true
  | _ => false

end Stmt

namespace Program

def functions (program : Program) : List Stmt :=
  program.statements.filter Stmt.isFunction

def main (program : Program) : List Stmt :=
  program.statements.filter fun stmt => !stmt.isFunction

end Program
end LittleMan
