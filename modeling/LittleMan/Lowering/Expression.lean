import LittleMan.Lowering.Arithmetic

/-!
# Lowering expressions

An expression is lowered to code that leaves its value in some cell, and the
lowering gives back the label of that cell: a literal, a variable or a temporary,
and nobody asks which.  Texts have no value; they occur only as arguments of
`print`, which writes them out character by character.
-/

namespace LittleMan
namespace Lowering

def putChar (c : Char) : Lowering Unit := do
  let code ← literal (Int64.ofNat c.toNat)
  opTo .lda code
  op .outC

def putChars : List Char → Lowering Unit
  | [] => return ()
  | c :: rest => do
      putChar c
      putChars rest

/-- Whether a `print` with these arguments still has to end its line: a number ends its
own, a text does not. -/
def leavesLineOpen (args : List Expr) : Bool :=
  match args.getLast? with
  | none | some (.text _) => true
  | some _ => false

def input (args : List Expr) : Lowering String := do
  if args.isEmpty then
    let result ← temporary
    op .inp
    opTo .sta result
    return result
  else refuse (.arity "input" 0 args.length)

/-- A zero condition stops the machine on a `HLT` under the label of the failed
assertion, which tells it from the end of the program. -/
def assertion (condition : Lowering String) : Lowering String := do
  let n ← assertNumber
  let fail := "assert_" ++ toString n ++ "_fail"
  let pass := "assert_" ++ toString n ++ "_ok"
  note ("assert " ++ toString n)
  let cell ← condition
  opTo .lda cell
  opTo .brz fail
  opTo .bra pass
  label fail
  op .hlt
  anchor pass
  literal 1

def pushArguments : List String → Lowering Unit
  | [] => return ()
  | cell :: rest => do
      opTo .lda cell
      op .psh
      pushArguments rest

/-- Pushes the address of the `POP` after the branch, then the arguments from left
to right, and finds the result on the stack when the function comes back. -/
def userCall (callee : String) (count : Nat) (args : Lowering (List String)) :
    Lowering String := do
  let routine ← routine callee
  if count = routine.params.length then
    let cells ← args
    let offset ← literal (Int64.ofNat (3 + 2 * count))
    let result ← temporary
    note ("call " ++ callee)
    op .ldaPc
    opTo .add offset
    op .psh
    pushArguments cells
    opTo .bra routine.start
    op .pop
    opTo .sta result
    return result
  else refuse (.arity callee routine.params.length count)

mutual

def expression : Expr → Lowering String
  | .integer value => literal value
  | .bool value => literal (Word.ofBool value)
  | .text _ =>
      refuse (.unsupported "string value" (some "strings can only be passed to print"))
  | .name word => variableCell word
  | .group inner => expression inner
  | .unary .neg operand => negative (expression operand)
  | .unary .not operand => negation (expression operand)
  | .binary left .and right => conjunction (expression left) (expression right)
  | .binary left .or right => disjunction (expression left) (expression right)
  | .binary left op right => do
      let l ← expression left
      let r ← expression right
      combine op l r
  | .call callee args =>
      if callee = "print" then do
        note "print"
        printed args
        if leavesLineOpen args then putChar '\n'
        literal 0
      else if callee = "input" then input args
      else if callee = "assert" then
        match args with
        | [condition] => assertion (expression condition)
        | _ => refuse (.arity "assert" 1 args.length)
      else userCall callee args.length (expressions args)

def expressions : List Expr → Lowering (List String)
  | [] => return []
  | e :: rest => do
      let cell ← expression e
      return cell :: (← expressions rest)

def printed : List Expr → Lowering Unit
  | [] => return ()
  | .text content :: rest => do
      putChars content.toList
      printed rest
  | e :: rest => do
      let cell ← expression e
      opTo .lda cell
      op .out
      printed rest

end

end Lowering
end LittleMan
