import LittleMan.Lowering.Expression

/-!
# Lowering statements

Conditions branch past the code they guard when they are zero.  The label of a
loop or a choice is a stem, and the places in it are named by endings.
-/

namespace LittleMan
namespace Lowering

def branchIfFalse (condition : Expr) (onFalse : String) : Lowering Unit := do
  let cell ← expression condition
  opTo .lda cell
  opTo .brz onFalse

/-- On entry to a function's body the return address is on top of the stack.  It is
replaced by the result, and `RET` goes to it through the accumulator. -/
def returnFrom (value : String) : Lowering Unit := do
  let address ← temporary
  op .pop
  opTo .sta address
  opTo .lda value
  op .psh
  opTo .lda address
  op .ret

def returnValue : Option Expr → Lowering Unit
  | some value => do returnFrom (← expression value)
  | none => do returnFrom (← literal 0)

/-- Branches to a place of the innermost loop. -/
def loopJump (keyword : String) (place : LoopLabels → String) : Lowering Unit := do
  match (← get).loops.innermost with
  | some loop => opTo .bra (place loop)
  | none => refuse (.outsideLoop keyword)

def assign (name : String) (value : Expr) : Lowering Unit := do
  note (name ++ " = ...")
  let cell ← expression value
  let dest ← target name
  copy cell dest

def whileLoop (condition : Expr) (body : Lowering Unit) : Lowering Unit := do
  let id ← loopLabel
  let top := id ++ "_start"
  let done := id ++ "_end"
  note ("while " ++ id)
  anchor top
  branchIfFalse condition done
  insideLoop id top body
  opTo .bra top
  anchor done

/-- The body comes first, and a zero condition goes back to it. -/
def untilLoop (body : Lowering Unit) (condition : Expr) : Lowering Unit := do
  let id ← loopLabel
  let top := id ++ "_start"
  let check := id ++ "_cond"
  note ("do...until " ++ id)
  anchor top
  insideLoop id check body
  anchor check
  branchIfFalse condition top
  anchor (id ++ "_end")

/-- Counts up by one.  The bound is evaluated once, and the loop ends after a pass
in which the counter is not below it. -/
def forLoop (var : String) (first last : Expr) (body : Lowering Unit) : Lowering Unit := do
  let id ← loopLabel
  let top := id ++ "_start"
  let step := id ++ "_step"
  let done := id ++ "_end"
  note ("for " ++ var ++ " " ++ id)
  let start ← expression first
  let counter ← target var
  copy start counter
  let stop ← expression last
  let bound ← temporary
  copy stop bound
  anchor top
  insideLoop id step body
  let one ← literal 1
  label step
  opTo .lda counter
  opTo .sub bound
  opTo .brp done
  binary counter .add one counter
  opTo .bra top
  anchor done

mutual

def statement : Stmt → Lowering Unit
  | .assign name value => assign name value
  | .choose arms otherwise => do
      let id ← ifLabel
      let done := id ++ "_end"
      note ("if " ++ id)
      match otherwise with
      | some body =>
          choices id done (id ++ "_else") 0 arms
          anchor (id ++ "_else")
          block body
      | none => choices id done done 0 arms
      anchor done
  | .whileLoop condition body => whileLoop condition (block body)
  | .untilLoop body condition => untilLoop (block body) condition
  | .forLoop var first last body closing =>
      if var = closing then forLoop var first last (block body)
      else refuse (.loopMismatch var closing)
  | .switch .. =>
      refuse (.unsupported "switch" (some "rewrite the cases as an if/elseif/else chain"))
  | .function name .. =>
      refuse (.internal ("function '" ++ name ++ "' reached statement position"))
  | .giveBack value => do
      if (← get).inFunction then returnValue value
      else refuse .returnOutsideFunction
  | .leaveLoop => loopJump "break" LoopLabels.breakTarget
  | .nextPass => loopJump "continue" LoopLabels.continueTarget
  | .evaluate value => do
      let _ ← expression value

def block : List Stmt → Lowering Unit
  | [] => return ()
  | stmt :: rest => do
      statement stmt
      block rest

/-- The arms of a choice from number `i` on.  An arm whose condition is zero goes on
to the next one, and the last to `fallback`. -/
def choices (id done fallback : String) (i : Nat) :
    List (Expr × List Stmt) → Lowering Unit
  | [] => return ()
  | (condition, body) :: rest => do
      let next := if rest.isEmpty then fallback else id ++ "_" ++ toString (i + 1)
      anchor (id ++ "_" ++ toString i)
      branchIfFalse condition next
      block body
      opTo .bra done
      choices id done fallback (i + 1) rest

end

end Lowering
end LittleMan
