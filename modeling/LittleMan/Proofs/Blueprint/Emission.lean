import LittleMan.Proofs.Blueprint

/-!
# What a program is lowered to, as marks

The functions of this module follow the lowering construct by construct, but keep no
table of symbols: they need the counters and a map from the names of variables to
cells, and they give back the marks, the counters and, for an expression, the cell of
its value.  Where the lowering refuses a construct by itself, without a look at the
functions or the place it stands in, there is a mark that says so.
-/

namespace LittleMan

/-- The counters after a number of temporaries has been handed out. -/
def Counters.taking (k : Counters) (count : Nat) : Counters :=
  { k with temporaries := k.temporaries + count }

namespace Mark

abbrev lda (c : Cell) : Mark := .order .lda (.cell c)

abbrev add (c : Cell) : Mark := .order .add (.cell c)

abbrev sub (c : Cell) : Mark := .order .sub (.cell c)

abbrev sta (c : Cell) : Mark := .order .sta (.cell c)

abbrev jump (op : Opcode) (l : Place) : Mark := .order op (.place l)

abbrev bare (op : Opcode) : Mark := .order op .none

def copy (source dest : Cell) : List Mark :=
  [lda source, sta dest]

def sum (a b dest : Cell) : List Mark :=
  [lda a, add b, sta dest]

def difference (a b dest : Cell) : List Mark :=
  [lda a, sub b, sta dest]

def anchor (l : Place) : List Mark :=
  [.place l, bare .nop]

/-- The place of temporary `n` with an ending. -/
abbrev spot (n : Nat) (ending : String) : Place := .point .temporary n ending

/-! ## Operators -/

def select (n : Nat) (branch : Opcode) (whenTaken : Bool) : List Mark :=
  let mark := spot n (if whenTaken then "_true" else "_false")
  let done := spot n "_end"
  [jump branch mark, lda (.literal (Word.ofBool !whenTaken)), jump .bra done,
    .place mark, lda (.literal (Word.ofBool whenTaken)), .place done, sta (.temporary n)]

def compare (a b : Cell) (n : Nat) (branch : Opcode) (whenTaken : Bool) : List Mark :=
  [lda a, sub b] ++ select n branch whenTaken

def multiply (l r : Cell) (total addend counter : Nat) : List Mark :=
  copy (.literal 0) (.temporary total) ++
  copy l (.temporary addend) ++
  copy r (.temporary counter) ++
  [jump .brp (spot total "_start")] ++
  difference (.literal 0) (.temporary counter) (.temporary counter) ++
  difference (.literal 0) (.temporary addend) (.temporary addend) ++
  [.place (spot total "_start"), lda (.temporary counter), jump .brz (spot total "_end")] ++
  sum (.temporary total) (.temporary addend) (.temporary total) ++
  difference (.temporary counter) (.literal 1) (.temporary counter) ++
  [jump .bra (spot total "_start")] ++
  anchor (spot total "_end")

/-- The work cells of a division: magnitudes of the operands and flags of their signs. -/
structure DivisionCells where
  dividend : Nat
  divisor : Nat
  leftNegative : Nat
  rightNegative : Nat
deriving DecidableEq, Repr

/-- Four temporaries in a row. -/
def DivisionCells.startingAt (n : Nat) : DivisionCells :=
  { dividend := n, divisor := n + 1, leftNegative := n + 2, rightNegative := n + 3 }

/-- Makes a copy of an operand a magnitude and sets its flag if it was negative. -/
def magnitude (operand copied flag : Cell) (ready : Place) : List Mark :=
  copy operand copied ++
  [jump .brp ready] ++
  difference (.literal 0) copied copied ++
  copy (.literal 1) flag ++
  [.place ready]

/-- Magnitudes of both operands, and the flags of their signs. -/
def divisionOperands (l r : Cell) (w : DivisionCells) (base : Nat) : List Mark :=
  copy (.literal 0) (.temporary w.leftNegative) ++
  copy (.literal 0) (.temporary w.rightNegative) ++
  magnitude l (.temporary w.dividend) (.temporary w.leftNegative) (spot base "_lpos") ++
  magnitude r (.temporary w.divisor) (.temporary w.rightNegative) (spot base "_rpos")

/-- Subtracts the divisor until the rest is negative, and takes the last time back. -/
def divisionLoop (quotient remainder : Nat) (w : DivisionCells) (base : Nat) : List Mark :=
  copy (.literal 0) (.temporary quotient) ++
  copy (.temporary w.dividend) (.temporary remainder) ++
  [.place (spot base "_start")] ++
  sum (.temporary quotient) (.literal 1) (.temporary quotient) ++
  difference (.temporary remainder) (.temporary w.divisor) (.temporary remainder) ++
  [jump .brp (spot base "_start")] ++
  difference (.temporary quotient) (.literal 1) (.temporary quotient) ++
  sum (.temporary remainder) (.temporary w.divisor) (.temporary remainder)

/-- Puts the signs of the quotient and the remainder right. -/
def divisionSigns (quotient remainder : Nat) (w : DivisionCells) (base : Nat) : List Mark :=
  [lda (.temporary w.leftNegative), sub (.temporary w.rightNegative),
    jump .brz (spot base "_sign")] ++
  difference (.literal 0) (.temporary quotient) (.temporary quotient) ++
  [lda (.temporary remainder), jump .brz (spot base "_sign")] ++
  difference (.temporary quotient) (.literal 1) (.temporary quotient) ++
  difference (.temporary w.divisor) (.temporary remainder) (.temporary remainder) ++
  [.place (spot base "_sign"), lda (.temporary w.rightNegative),
    jump .brz (spot base "_end")] ++
  difference (.literal 0) (.temporary remainder) (.temporary remainder) ++
  anchor (spot base "_end")

def floorDivMod (l r : Cell) (quotient remainder : Nat) (w : DivisionCells) (base : Nat) :
    List Mark :=
  divisionOperands l r w base ++ divisionLoop quotient remainder w base ++
    divisionSigns quotient remainder w base

def power (l r : Cell) (total exponent product addend counter : Nat) : List Mark :=
  copy (.literal 1) (.temporary total) ++
  copy r (.temporary exponent) ++
  [.place (spot total "_outer"), lda (.temporary exponent),
    jump .brz (spot total "_outer_end"), jump .brp (spot total "_body"),
    jump .bra (spot total "_outer_end"), .place (spot total "_body")] ++
  multiply (.temporary total) l product addend counter ++
  copy (.temporary product) (.temporary total) ++
  difference (.temporary exponent) (.literal 1) (.temporary exponent) ++
  [jump .bra (spot total "_outer")] ++
  anchor (spot total "_outer_end")

/-- An operator on two cells; its result goes to temporary `n`, and its work cells are
the temporaries after it. -/
def combine (op : BinaryOp) (l r : Cell) (n : Nat) : List Mark :=
  match op with
  | .add => sum l r (.temporary n)
  | .sub => difference l r (.temporary n)
  | .mul => multiply l r n (n + 1) (n + 2)
  | .div => floorDivMod l r n (n + 1) (.startingAt (n + 2)) n
  | .mod => floorDivMod l r (n + 1) n (.startingAt (n + 2)) n
  | .pow => power l r n (n + 1) (n + 2) (n + 3) (n + 4)
  | .lt => compare l r n .brp false
  | .gt => compare r l n .brp false
  | .ltEq => compare r l n .brp true
  | .gtEq => compare l r n .brp true
  | .eq => compare r l n .brz true
  | .notEq => compare l r n .brz false
  | .and | .or => []

/-- The temporaries that an operator takes, its result included. -/
def temporariesOf : BinaryOp → Nat
  | .mul => 3
  | .div | .mod => 6
  | .pow => 5
  | _ => 1

end Mark

/-! ## Expressions -/

/-- Marks, a result, and the counters after them. -/
structure Emitted (α : Type) where
  marks : List Mark
  result : α
  counters : Counters
deriving Repr

open Mark

def emitChar (c : Char) : List Mark :=
  [lda (.literal (Int64.ofNat c.toNat)), bare .outC]

def emitConjunction (n : Nat) (left right : Emitted Cell) : Emitted Cell where
  marks :=
    left.marks ++ [lda left.result, jump .brz (spot n "_false")] ++
    right.marks ++ [lda right.result, jump .brz (spot n "_false"), lda (.literal 1),
      jump .bra (spot n "_end"), .place (spot n "_false"), lda (.literal 0),
      .place (spot n "_end"), sta (.temporary n)]
  result := .temporary n
  counters := right.counters

def emitDisjunction (n : Nat) (left right : Emitted Cell) : Emitted Cell where
  marks :=
    left.marks ++ [lda left.result, jump .brz (spot n "_right"), jump .bra (spot n "_true"),
      .place (spot n "_right")] ++
    right.marks ++ [lda right.result, jump .brz (spot n "_false"), .place (spot n "_true"),
      lda (.literal 1), jump .bra (spot n "_end"), .place (spot n "_false"),
      lda (.literal 0), .place (spot n "_end"), sta (.temporary n)]
  result := .temporary n
  counters := right.counters

def emitAssertion (n : Nat) (condition : Emitted Cell) : Emitted Cell where
  marks :=
    condition.marks ++ [lda condition.result, jump .brz (.point .assertion n "_fail"),
      jump .bra (.point .assertion n "_ok"), .place (.point .assertion n "_fail"),
      bare .hlt] ++ anchor (.point .assertion n "_ok")
  result := .literal 1
  counters := condition.counters

mutual

def Expr.emit (vars : String → Cell) : Expr → Counters → Emitted Cell
  | .integer value, k => ⟨[], .literal value, k⟩
  | .bool value, k => ⟨[], .literal (Word.ofBool value), k⟩
  | .text _, k => ⟨[.refused], .literal 0, k⟩
  | .name word, k => ⟨[], vars word, k⟩
  | .group inner, k => inner.emit vars k
  | .unary .neg operand, k =>
      let x := operand.emit vars k
      ⟨x.marks ++ difference (.literal 0) x.result (.temporary x.counters.temporaries),
        .temporary x.counters.temporaries, x.counters.taking 1⟩
  | .unary .not operand, k =>
      let x := operand.emit vars k
      ⟨x.marks ++ lda x.result :: select x.counters.temporaries .brz true,
        .temporary x.counters.temporaries, x.counters.taking 1⟩
  | .binary left .and right, k =>
      let l := left.emit vars (k.taking 1)
      emitConjunction k.temporaries l (right.emit vars l.counters)
  | .binary left .or right, k =>
      let l := left.emit vars (k.taking 1)
      emitDisjunction k.temporaries l (right.emit vars l.counters)
  | .binary left op right, k =>
      let l := left.emit vars k
      let r := right.emit vars l.counters
      ⟨l.marks ++ r.marks ++ combine op l.result r.result r.counters.temporaries,
        .temporary r.counters.temporaries, r.counters.taking (temporariesOf op)⟩
  | .call callee args, k =>
      if callee = "print" then
        let x := Expr.emitPrinted vars args k
        ⟨x.marks ++ (if Lowering.leavesLineOpen args then emitChar '\n' else []),
          .literal 0, x.counters⟩
      else if callee = "input" then
        match args with
        | [] => ⟨[bare .inp, sta (.temporary k.temporaries)], .temporary k.temporaries, k.taking 1⟩
        | _ => ⟨[.refused], .literal 0, k⟩
      else if callee = "assert" then
        match args with
        | [condition] =>
            emitAssertion k.asserts (condition.emit vars { k with asserts := k.asserts + 1 })
        | _ => ⟨[.refused], .literal 1, k⟩
      else
        let x := Expr.emitAll vars args k
        ⟨x.marks ++ [.call callee x.result (.temporary x.counters.temporaries)],
          .temporary x.counters.temporaries, x.counters.taking 1⟩

def Expr.emitAll (vars : String → Cell) : List Expr → Counters → Emitted (List Cell)
  | [], k => ⟨[], [], k⟩
  | e :: rest, k =>
      let x := e.emit vars k
      let y := Expr.emitAll vars rest x.counters
      ⟨x.marks ++ y.marks, x.result :: y.result, y.counters⟩

def Expr.emitPrinted (vars : String → Cell) : List Expr → Counters → Emitted Unit
  | [], k => ⟨[], (), k⟩
  | .text content :: rest, k =>
      let y := Expr.emitPrinted vars rest k
      ⟨content.toList.flatMap emitChar ++ y.marks, (), y.counters⟩
  | e :: rest, k =>
      let x := e.emit vars k
      let y := Expr.emitPrinted vars rest x.counters
      ⟨x.marks ++ [lda x.result, bare .out] ++ y.marks, (), y.counters⟩

end

theorem Expr.length_emitAll (vars : String → Cell) (es : List Expr) (k : Counters) :
    (Expr.emitAll vars es k).result.length = es.length := by
  induction es generalizing k with
  | nil => rfl
  | cons e rest ih => simp [Expr.emitAll, ih]

/-! ## Statements -/

/-- The innermost loop around a statement: its number, and the ending of the place
that `continue` goes to. -/
structure LoopPlaces where
  n : Nat
  again : String
deriving DecidableEq, Repr

def LoopPlaces.done (loop : LoopPlaces) : Place :=
  .point .loop loop.n "_end"

def LoopPlaces.next (loop : LoopPlaces) : Place :=
  .point .loop loop.n loop.again

def emitBranchIfFalse (condition : Emitted Cell) (onFalse : Place) : List Mark :=
  condition.marks ++ [lda condition.result, jump .brz onFalse]

def emitReturn (value : Cell) (n : Nat) : Mark :=
  .giveBack value (.temporary n)

def emitCount (counter : Cell) (bound loop : Nat) : List Mark :=
  [.place (.point .loop loop "_step"), lda counter, sub (.temporary bound),
    jump .brp (.point .loop loop "_end")] ++
  sum counter (.literal 1) counter ++
  [jump .bra (.point .loop loop "_start")] ++
  anchor (.point .loop loop "_end")

mutual

def Stmt.emit (vars : String → Cell) : Option LoopPlaces → Stmt → Counters → Emitted Unit
  | _, .assign name value, k =>
      let x := value.emit vars k
      ⟨x.marks ++ copy x.result (vars name), (), x.counters⟩
  | loop, .choose arms otherwise, k =>
      let n := k.ifs
      let k := { k with ifs := n + 1 }
      let done : Place := .point .choice n "_end"
      let fallback : Place := .point .choice n "_else"
      match otherwise with
      | some body =>
          let x := Stmt.emitArms vars loop n fallback 0 arms k
          let y := Stmt.emitBlock vars loop body x.counters
          ⟨x.marks ++ anchor fallback ++ y.marks ++ anchor done, (), y.counters⟩
      | none =>
          let x := Stmt.emitArms vars loop n done 0 arms k
          ⟨x.marks ++ anchor done, (), x.counters⟩
  | _, .whileLoop condition body, k =>
      let n := k.loops
      let k := { k with loops := n + 1 }
      let top : Place := .point .loop n "_start"
      let done : Place := .point .loop n "_end"
      let x := condition.emit vars k
      let y := Stmt.emitBlock vars (some ⟨n, "_start"⟩) body x.counters
      ⟨anchor top ++ emitBranchIfFalse x done ++ y.marks ++ [jump .bra top] ++ anchor done, (),
        y.counters⟩
  | _, .untilLoop body condition, k =>
      let n := k.loops
      let k := { k with loops := n + 1 }
      let top : Place := .point .loop n "_start"
      let y := Stmt.emitBlock vars (some ⟨n, "_cond"⟩) body k
      let x := condition.emit vars y.counters
      ⟨anchor top ++ y.marks ++ anchor (.point .loop n "_cond") ++ emitBranchIfFalse x top ++
        anchor (.point .loop n "_end"), (), x.counters⟩
  | _, .forLoop var first last body closing, k =>
      if var = closing then
        let n := k.loops
        let k := { k with loops := n + 1 }
        let x := first.emit vars k
        let y := last.emit vars x.counters
        let bound := y.counters.temporaries
        let z := Stmt.emitBlock vars (some ⟨n, "_step"⟩) body (y.counters.taking 1)
        ⟨x.marks ++ copy x.result (vars var) ++ y.marks ++ copy y.result (.temporary bound) ++
          anchor (.point .loop n "_start") ++ z.marks ++ emitCount (vars var) bound n, (),
          z.counters⟩
      else ⟨[.refused], (), k⟩
  | _, .switch .., k => ⟨[.refused], (), k⟩
  | _, .function .., k => ⟨[.refused], (), k⟩
  | _, .giveBack (some value), k =>
      let x := value.emit vars k
      ⟨x.marks ++ [emitReturn x.result x.counters.temporaries], (), x.counters.taking 1⟩
  | _, .giveBack none, k => ⟨[emitReturn (.literal 0) k.temporaries], (), k.taking 1⟩
  | loop, .leaveLoop, k => ⟨loop.elim [.refused] fun loop => [jump .bra loop.done], (), k⟩
  | loop, .nextPass, k => ⟨loop.elim [.refused] fun loop => [jump .bra loop.next], (), k⟩
  | _, .evaluate value, k =>
      let x := value.emit vars k
      ⟨x.marks, (), x.counters⟩

def Stmt.emitBlock (vars : String → Cell) :
    Option LoopPlaces → List Stmt → Counters → Emitted Unit
  | _, [], k => ⟨[], (), k⟩
  | loop, stmt :: rest, k =>
      let x := Stmt.emit vars loop stmt k
      let y := Stmt.emitBlock vars loop rest x.counters
      ⟨x.marks ++ y.marks, (), y.counters⟩

/-- The arms from number `i` on of the choice with number `n`. -/
def Stmt.emitArms (vars : String → Cell) :
    Option LoopPlaces → Nat → Place → Nat → List (Expr × List Stmt) → Counters → Emitted Unit
  | _, _, _, _, [], k => ⟨[], (), k⟩
  | loop, n, fallback, i, (condition, body) :: rest, k =>
      let next := if rest.isEmpty then fallback else .point .choice n ("_" ++ toString (i + 1))
      let x := condition.emit vars k
      let y := Stmt.emitBlock vars loop body x.counters
      let z := Stmt.emitArms vars loop n fallback (i + 1) rest y.counters
      ⟨anchor (.point .choice n ("_" ++ toString i)) ++ emitBranchIfFalse x next ++ y.marks ++
        [jump .bra (.point .choice n "_end")] ++ z.marks, (), z.counters⟩

end

/-! ## Programs -/

mutual

/-- The variables that a statement assigns to, in the order of the text. -/
def Stmt.assigned : Stmt → List String
  | .assign name _ => [name]
  | .choose arms otherwise =>
      Stmt.assignedInArms arms ++
        match otherwise with
        | some body => Stmt.assignedInBlock body
        | none => []
  | .whileLoop _ body => Stmt.assignedInBlock body
  | .untilLoop body _ => Stmt.assignedInBlock body
  | .forLoop var _ _ body _ => var :: Stmt.assignedInBlock body
  | .switch .. | .function .. | .giveBack _ | .leaveLoop | .nextPass | .evaluate _ => []

def Stmt.assignedInBlock : List Stmt → List String
  | [] => []
  | stmt :: rest => stmt.assigned ++ Stmt.assignedInBlock rest

def Stmt.assignedInArms : List (Expr × List Stmt) → List String
  | [] => []
  | (_, body) :: rest => Stmt.assignedInBlock body ++ Stmt.assignedInArms rest

end

namespace Program

/-- The variables of the main program, which its functions share. -/
def globals (program : Program) : List String :=
  Stmt.assignedInBlock program.main

/-- The cell that a name means: parameters hide the variables of the main program,
and a function keeps every other name to itself. -/
def variableCell (globals : List String) : Option (String × List String) → String → Cell
  | none, x => .var none x
  | some (function, params), x =>
      if x ∈ params then .var (some function) x
      else if x ∈ globals then .var none x
      else .var (some function) x

def emitFunction (globals : List String) (name : String) (params : List String)
    (body : List Stmt) (k : Counters) : Emitted Unit :=
  let x := Stmt.emitBlock (variableCell globals (some (name, params))) none body k
  ⟨[.place (.entry name), .receive (params.reverse.map (.var (some name)))] ++ x.marks ++
    [emitReturn (.literal 0) x.counters.temporaries], (), x.counters.taking 1⟩

def emitFunctions (globals : List String) : List Stmt → Counters → Emitted Unit
  | .function name params body :: rest, k =>
      let x := emitFunction globals name params body k
      let y := emitFunctions globals rest x.counters
      ⟨x.marks ++ y.marks, (), y.counters⟩
  | _ :: rest, k => emitFunctions globals rest k
  | [], k => ⟨[], (), k⟩

def emitMain (program : Program) : Emitted Unit :=
  Stmt.emitBlock (variableCell program.globals none) none program.main {}

/-- The marks of a whole program: the main statements, a `HLT`, the functions. -/
def marks (program : Program) : List Mark :=
  program.emitMain.marks ++ [bare .hlt] ++
    (emitFunctions program.globals program.functions program.emitMain.counters).marks

/-- The code of a whole program. -/
def code (program : Program) : List Entry :=
  (({} : Tablet).lay program.marks).entries

end Program
end LittleMan
