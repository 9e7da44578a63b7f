import LittleMan.Program
import LittleMan.Proofs.Word

/-!
# Evaluation of programs

What a program without functions means, told by its tree.  Variables hold integers and
start at zero, operands are evaluated from left to right, and an evaluation reads inputs and
puts out text as it goes.  It stops early at an assertion that fails, at an input that is
not there, and at an operation that overflows.

Integers are exact.  `BinaryOp.Fits` says for which of them an operation does not overflow:
the result has to be a word, and so have the numbers that the machine goes through on the
way to it.

The number of passes of a loop is not bounded by the tree, so loops are given fuel.
-/

namespace LittleMan

/-- What statements see and change. -/
structure Store where
  vars : String → Int := fun _ => 0
  queue : List Word := []
  transcript : String := ""

inductive Interrupt where
  | failed (σ : Store)
  | waiting (σ : Store)
  | overflowed
  | unsupported
  | unfinished

abbrev Eval := StateT Store (Except Interrupt)

def truth (p : Prop) [Decidable p] : Int :=
  if p then 1 else 0

/-! ## Operators -/

namespace BinaryOp

def value : BinaryOp → Int → Int → Int
  | .add, x, y => x + y
  | .sub, x, y => x - y
  | .mul, x, y => x * y
  | .div, x, y => x.fdiv y
  | .mod, x, y => x.fmod y
  | .pow, x, y => if y ≤ 0 then 1 else x ^ y.toNat
  | .eq, x, y => truth (x = y)
  | .notEq, x, y => truth (x ≠ y)
  | .lt, x, y => truth (x < y)
  | .gt, x, y => truth (y < x)
  | .ltEq, x, y => truth (x ≤ y)
  | .gtEq, x, y => truth (y ≤ x)
  | .and, x, y => truth (x ≠ 0 ∧ y ≠ 0)
  | .or, x, y => truth (x ≠ 0 ∨ y ≠ 0)

/-- The operation does not overflow.  A comparison computes the difference of its operands,
and a division by zero goes on until its quotient overflows. -/
def Fits : BinaryOp → Int → Int → Prop
  | .add, x, y => Word.InRange (x + y)
  | .sub, x, y => Word.InRange (x - y)
  | .mul, x, y => y ≠ -0x8000000000000000 ∧ Word.InRange (x * y)
  | .div, x, y | .mod, x, y =>
      x ≠ -0x8000000000000000 ∧ y ≠ -0x8000000000000000 ∧ y ≠ 0 ∧
        ¬ (|x| = 0x7fffffffffffffff ∧ |y| = 1)
  | .pow, x, y => 0 < y → x ≠ -0x8000000000000000 ∧ Word.InRange (x ^ y.toNat)
  | .lt, x, y | .gtEq, x, y | .notEq, x, y => Word.InRange (x - y)
  | .gt, x, y | .ltEq, x, y | .eq, x, y => Word.InRange (y - x)
  | .and, _, _ | .or, _, _ => True

instance : (op : BinaryOp) → (x y : Int) → Decidable (op.Fits x y)
  | .add, _, _ | .sub, _, _ | .lt, _, _ | .gtEq, _, _ | .notEq, _, _ | .gt, _, _ | .ltEq, _, _
  | .eq, _, _ => inferInstanceAs (Decidable (Word.InRange _))
  | .mul, _, _ => inferInstanceAs (Decidable (_ ∧ _))
  | .div, _, _ | .mod, _, _ => inferInstanceAs (Decidable (_ ∧ _ ∧ _ ∧ _))
  | .pow, _, _ => inferInstanceAs (Decidable (_ → _))
  | .and, _, _ | .or, _, _ => inferInstanceAs (Decidable True)

/-- The value of an operation, or an overflow. -/
def apply (op : BinaryOp) (x y : Int) : Eval Int :=
  if op.Fits x y then pure (op.value x y) else throw .overflowed

end BinaryOp

/-! ## Expressions -/

namespace Eval

def lookup (x : String) : Eval Int :=
  fun σ => .ok (σ.vars x, σ)

def assign (x : String) (n : Int) : Eval Unit :=
  fun σ => .ok ((), { σ with vars := Function.update σ.vars x n })

def write (text : String) : Eval Unit :=
  fun σ => .ok ((), { σ with transcript := σ.transcript ++ text })

def input : Eval Int :=
  fun σ => match σ.queue with
    | value :: queue => .ok (value.toInt, { σ with queue })
    | [] => .error (.waiting σ)

def fail : Eval Int :=
  fun σ => .error (.failed σ)

end Eval

mutual

def Expr.eval : Expr → Eval Int
  | .integer value => pure value.toInt
  | .bool value => pure (truth value)
  | .text _ => throw .unsupported
  | .name x => Eval.lookup x
  | .group inner => inner.eval
  | .unary .neg operand => do BinaryOp.sub.apply 0 (← operand.eval)
  | .unary .not operand => do return truth ((← operand.eval) = 0)
  | .binary left .and right => do
      if (← left.eval) = 0 then return 0
      else return truth ((← right.eval) ≠ 0)
  | .binary left .or right => do
      if (← left.eval) = 0 then return truth ((← right.eval) ≠ 0)
      else return 1
  | .binary left op right => do
      let x ← left.eval
      let y ← right.eval
      op.apply x y
  | .call callee args =>
      if callee = "print" then do
        Expr.print args true
        return 0
      else if callee = "input" then
        match args with
        | [] => Eval.input
        | _ => throw .unsupported
      else if callee = "assert" then
        match args with
        | [condition] => do
            if (← condition.eval) = 0 then Eval.fail else return 1
        | _ => throw .unsupported
      else throw .unsupported

/-- A number ends its line, and a line that is open at the end is ended. -/
def Expr.print : List Expr → Bool → Eval Unit
  | [], isOpen => if isOpen then Eval.write "\n" else pure ()
  | .text content :: rest, _ => do
      Eval.write content
      Expr.print rest true
  | e :: rest, _ => do
      Eval.write (toString (← e.eval) ++ "\n")
      Expr.print rest false

end

/-! ## Statements -/

/-- How a statement ends: the next one follows, the loop is left, or its next pass begins. -/
inductive Flow where
  | next
  | leave
  | again
deriving DecidableEq, Repr

/-- Makes passes as long as they ask for another one. -/
def Eval.loop (pass : Eval Bool) : Nat → Eval Unit
  | 0 => throw .unfinished
  | fuel + 1 => do
      if ← pass then Eval.loop pass fuel else pure ()

def whilePass (condition : Eval Int) (body : Eval Flow) : Eval Bool := do
  if (← condition) = 0 then return false
  else return (← body) ≠ .leave

def untilPass (body : Eval Flow) (condition : Eval Int) : Eval Bool := do
  if (← body) = .leave then return false
  else return (← condition) = 0

/-- The body comes before the test, and the variable that is tested is the one that the body
has left. -/
def forPass (x : String) (bound : Int) (body : Eval Flow) : Eval Bool := do
  if (← body) = .leave then return false
  else
    let i ← Eval.lookup x
    if (← BinaryOp.gtEq.apply i bound) = 0 then
      Eval.assign x (i + 1)
      return true
    else return false

mutual

def Stmt.exec (fuel : Nat) : Stmt → Eval Flow
  | .assign x value => do
      Eval.assign x (← value.eval)
      return .next
  | .choose arms (some body) => Stmt.execArms fuel (Stmt.execBlock fuel body) arms
  | .choose arms none => Stmt.execArms fuel (pure .next) arms
  | .whileLoop condition body => do
      Eval.loop (whilePass condition.eval (Stmt.execBlock fuel body)) fuel
      return .next
  | .untilLoop body condition => do
      Eval.loop (untilPass (Stmt.execBlock fuel body) condition.eval) fuel
      return .next
  | .forLoop x first last body closing =>
      if x = closing then do
        Eval.assign x (← first.eval)
        let bound ← last.eval
        Eval.loop (forPass x bound (Stmt.execBlock fuel body)) fuel
        return .next
      else throw .unsupported
  | .switch .. | .function .. | .giveBack _ => throw .unsupported
  | .leaveLoop => return .leave
  | .nextPass => return .again
  | .evaluate value => do
      let _ ← value.eval
      return .next

def Stmt.execBlock (fuel : Nat) : List Stmt → Eval Flow
  | [] => return .next
  | stmt :: rest => do
      let flow ← Stmt.exec fuel stmt
      if flow = .next then Stmt.execBlock fuel rest else return flow

/-- The first arm with a condition that is not zero. -/
def Stmt.execArms (fuel : Nat) (otherwise : Eval Flow) : List (Expr × List Stmt) → Eval Flow
  | [] => otherwise
  | (condition, body) :: rest => do
      if (← condition.eval) = 0 then Stmt.execArms fuel otherwise rest
      else Stmt.execBlock fuel body

end

/-- The statements of the main program, one after another. -/
def Program.evaluate (program : Program) (fuel : Nat) (inputs : List Word) : Except Interrupt Store :=
  match Stmt.execBlock fuel program.main { queue := inputs } with
  | .ok (.next, σ) => .ok σ
  | .ok _ => .error .unsupported
  | .error interrupt => .error interrupt

end LittleMan
