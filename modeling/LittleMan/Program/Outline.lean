import LittleMan.Program
import LittleMan.Text.Outline
import LittleMan.Text.Quoted

/-!
# Outlines of programs

The whole tree of a program, one part to a line, under the names of its nodes.
-/

namespace LittleMan

def BinaryOp.constructorName : BinaryOp → String
  | .add => "Add"
  | .sub => "Sub"
  | .mul => "Mul"
  | .div => "Div"
  | .mod => "Mod"
  | .pow => "Pow"
  | .eq => "Eq"
  | .notEq => "NotEq"
  | .lt => "Lt"
  | .gt => "Gt"
  | .ltEq => "LtEq"
  | .gtEq => "GtEq"
  | .and => "And"
  | .or => "Or"

def UnaryOp.constructorName : UnaryOp → String
  | .neg => "Neg"
  | .not => "Not"

def Outline.quoted (text : String) : Outline :=
  .word (Text.quoted text)

namespace Expr

mutual

def outline : Expr → Outline
  | .integer value => .tuple "Integer" [.word value.text]
  | .bool value => .tuple "Bool" [.word (toString value)]
  | .text content => .tuple "Str" [.quoted content]
  | .name word => .tuple "Ident" [.quoted word]
  | .group inner => .tuple "Group" [inner.outline]
  | .unary op operand =>
      .record "Unary" [("op", .word op.constructorName), ("operand", operand.outline)]
  | .binary left op right =>
      .record "Binary"
        [("left", left.outline), ("op", .word op.constructorName), ("right", right.outline)]
  | .call callee args =>
      .record "Call" [("name", .quoted callee), ("args", .list (outlines args))]

def outlines : List Expr → List Outline
  | [] => []
  | e :: rest => e.outline :: outlines rest

end

end Expr

namespace Stmt

mutual

def outline : Stmt → Outline
  | .assign target value =>
      .record "Assign" [("name", .quoted target), ("value", value.outline)]
  | .choose arms otherwise =>
      .record "If"
        [("branches", .list (armOutlines "Branch" "condition" arms)),
          ("otherwise", optionalOutline otherwise)]
  | .whileLoop condition body =>
      .record "While" [("condition", condition.outline), ("body", .list (outlines body))]
  | .untilLoop body condition =>
      .record "DoUntil" [("body", .list (outlines body)), ("condition", condition.outline)]
  | .forLoop var first last body closing =>
      .record "For"
        [("var", .quoted var), ("start", first.outline), ("end", last.outline),
          ("body", .list (outlines body)), ("next_var", .quoted closing)]
  | .switch subject cases otherwise =>
      .record "Switch"
        [("subject", subject.outline),
          ("cases", .list (armOutlines "SwitchCase" "value" cases)),
          ("default", optionalOutline otherwise)]
  | .function name params body =>
      .record "Function"
        [("name", .quoted name), ("params", .list (params.map .quoted)),
          ("body", .list (outlines body))]
  | .giveBack value => .tuple "Return" [.ofOption (value.map Expr.outline)]
  | .leaveLoop => .word "Break"
  | .nextPass => .word "Continue"
  | .evaluate value => .tuple "Expr" [value.outline]

def outlines : List Stmt → List Outline
  | [] => []
  | stmt :: rest => stmt.outline :: outlines rest

def armOutlines (node tested : String) : List (Expr × List Stmt) → List Outline
  | [] => []
  | (test, body) :: rest =>
      .record node [(tested, test.outline), ("body", .list (outlines body))] ::
        armOutlines node tested rest

def optionalOutline : Option (List Stmt) → Outline
  | none => .ofOption none
  | some body => .ofOption (some (.list (outlines body)))

end

end Stmt

def Program.outline (program : Program) : Outline :=
  .record "Program" [("statements", .list (Stmt.outlines program.statements))]

end LittleMan
