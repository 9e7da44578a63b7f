import LittleMan.Compilation
import LittleMan.Proofs.Blueprint.Lowering

/-!
# What a lowering asks for

A lowering is put together from a few kinds of steps: it writes on the sheet, asks the
table of scopes for a cell or a label, looks at what stands around it, or refuses.
`Lowering.Draws` says that a lowering is made of such steps, and lists the literals that it
asks for.  These follow from the tree alone.  What holds of each step, and of one step after
another, then holds of every lowering.
-/

namespace LittleMan

/-! ## Literals of a program -/

def BinaryOp.literals : BinaryOp → List Word
  | .add | .sub => []
  | .mul | .div | .mod => [0, 1]
  | .pow => [1, 0, 1]
  | .eq | .notEq | .lt | .gt | .ltEq | .gtEq => [1, 0]
  | .and | .or => []

/-- The code of a character. -/
def Char.code (c : Char) : Word :=
  Int64.ofNat c.toNat

mutual

def Expr.literals : Expr → List Word
  | .integer value => [value]
  | .bool value => [Word.ofBool value]
  | .text _ | .name _ => []
  | .group inner => inner.literals
  | .unary .neg operand => operand.literals ++ [0]
  | .unary .not operand => operand.literals ++ [1, 0]
  | .binary left .and right => 1 :: 0 :: (left.literals ++ right.literals)
  | .binary left .or right => 1 :: 0 :: (left.literals ++ right.literals)
  | .binary left op right => left.literals ++ (right.literals ++ op.literals)
  | .call callee args =>
      if callee = "print" then
        Expr.literalsPrinted args ++
          ((if Lowering.leavesLineOpen args then [Char.code '\n'] else []) ++ [0])
      else if callee = "input" then []
      else if callee = "assert" then Expr.literalsAll args ++ [1]
      else Expr.literalsAll args ++ [Int64.ofNat (3 + 2 * args.length)]

def Expr.literalsAll : List Expr → List Word
  | [] => []
  | e :: rest => e.literals ++ Expr.literalsAll rest

/-- A text is put out character by character. -/
def Expr.literalsPrinted : List Expr → List Word
  | [] => []
  | .text content :: rest => content.toList.map Char.code ++ Expr.literalsPrinted rest
  | e :: rest => e.literals ++ Expr.literalsPrinted rest

end

mutual

def Stmt.literals : Stmt → List Word
  | .assign _ value => value.literals
  | .choose arms (some body) => Stmt.literalsInArms arms ++ Stmt.literalsInBlock body
  | .choose arms none => Stmt.literalsInArms arms
  | .whileLoop condition body => condition.literals ++ Stmt.literalsInBlock body
  | .untilLoop body condition => Stmt.literalsInBlock body ++ condition.literals
  | .forLoop _ first last body _ =>
      first.literals ++ (last.literals ++ (Stmt.literalsInBlock body ++ [1]))
  | .switch .. | .function .. => []
  | .giveBack (some value) => value.literals
  | .giveBack none => [0]
  | .leaveLoop | .nextPass => []
  | .evaluate value => value.literals

def Stmt.literalsInBlock : List Stmt → List Word
  | [] => []
  | stmt :: rest => stmt.literals ++ Stmt.literalsInBlock rest

def Stmt.literalsInArms : List (Expr × List Stmt) → List Word
  | [] => []
  | (condition, body) :: rest =>
      condition.literals ++ (Stmt.literalsInBlock body ++ Stmt.literalsInArms rest)

end

/-- A function gives back zero at its end. -/
def Program.literalsOf : List Stmt → List Word
  | .function _ _ body :: rest => Stmt.literalsInBlock body ++ (0 :: Program.literalsOf rest)
  | _ :: rest => Program.literalsOf rest
  | [] => []

/-- The integer values that a program uses, in the order in which they are asked for. -/
def Program.literals (program : Program) : List Word :=
  Stmt.literalsInBlock program.main ++ Program.literalsOf program.functions

/-! ## Sheets without notes -/

namespace Sheet

/-- The sheet without its notes, which takes no more of them. -/
def mute (sheet : Sheet) : Sheet where
  lines := sheet.words.toArray
  waiting := sheet.waiting
  takesNotes := false
  size := sheet.size
  counted := by simp [sheet.counted, words, List.countP_filter]

theorem push_mute (sheet : Sheet) {line : SheetLine} (h : line.isWord = true) :
    (sheet.push line).mute = sheet.mute.push line := by
  simp [mute, words, push, h]

/-- A change that does not depend on notes. -/
class Silent (change : Sheet → Sheet) : Prop where
  mute : ∀ sheet, change sheet.mute = (change sheet).mute

theorem write_mute (sheet : Sheet) (code : Opcode) (operand : Option String) :
    sheet.mute.write code operand = (sheet.write code operand).mute := by
  have hpush : (sheet.push (.code sheet.waiting code operand)).mute =
      sheet.mute.push (.code sheet.waiting code operand) := sheet.push_mute rfl
  exact congrArg (fun other : Sheet => { other with waiting := none }) hpush.symm

theorem label_mute (sheet : Sheet) (name : String) :
    sheet.mute.label name = (sheet.label name).mute := by
  unfold label settle
  cases hwaiting : sheet.waiting with
  | none => simp [mute, hwaiting, words]
  | some waiting =>
      have hpush : (sheet.push (.code (some waiting) .nop none)).mute =
          sheet.mute.push (.code (some waiting) .nop none) := sheet.push_mute rfl
      have hmute : sheet.mute.waiting = some waiting := hwaiting
      rw [hmute]
      exact congrArg (fun other : Sheet => { other with waiting := some name }) hpush.symm

theorem note_mute (sheet : Sheet) (text : String) :
    sheet.mute.note text = (sheet.note text).mute := by
  unfold note
  split
  next htakes => simp [mute] at htakes
  next =>
    split
    next => simp [mute, words, push, SheetLine.isWord]
    next => rfl

instance (code : Opcode) : Silent fun sheet => sheet.op code :=
  ⟨fun sheet => sheet.write_mute code none⟩

instance (code : Opcode) (operand : String) : Silent fun sheet => sheet.opTo code operand :=
  ⟨fun sheet => sheet.write_mute code (some operand)⟩

instance (name : String) : Silent fun sheet => sheet.label name :=
  ⟨fun sheet => sheet.label_mute name⟩

instance (name : String) : Silent fun sheet => sheet.anchor name :=
  ⟨fun sheet => by simp only [anchor, op, label_mute, write_mute]⟩

instance (a : String) (code : Opcode) (b dest : String) :
    Silent fun sheet => sheet.binary a code b dest :=
  ⟨fun sheet => by simp only [binary, opTo, write_mute]⟩

instance (source dest : String) : Silent fun sheet => sheet.copy source dest :=
  ⟨fun sheet => by simp only [copy, opTo, write_mute]⟩

instance (text : String) : Silent fun sheet => sheet.note text :=
  ⟨fun sheet => sheet.note_mute text⟩

end Sheet

/-! ## Steps of a lowering -/

namespace Lowering

/-- Goes into the scope of a function. -/
def enterScope (routine : Routine) : Lowering Unit :=
  modify fun draft => { draft with scope := routine.scope, inFunction := true }

def leaveScope : Lowering Unit :=
  modify fun draft => { draft with scope := Scopes.root, inFunction := false }

/-- A run of writes asks for nothing and refuses nothing. -/
class inductive Writes : {α : Type} → Lowering α → Prop
  | pure {α : Type} (a : α) : Writes (Pure.pure a : Lowering α)
  | write (change : Sheet → Sheet) [Sheet.Silent change] : Writes (write change)
  | andThen {α : Type} {x : Lowering Unit} {y : Lowering α} (hx : Writes x) (hy : Writes y) :
      Writes (x >>= fun _ => y)

namespace Writes

variable {α : Type}

instance (a : α) : Writes (Pure.pure a : Lowering α) :=
  .pure a

instance {x : Lowering Unit} {y : Lowering α} [hx : Writes x] [hy : Writes y] :
    Writes (x >>= fun _ => y) :=
  .andThen hx hy

instance (code : Opcode) : Writes (op code) :=
  .write _

instance (code : Opcode) (operand : String) : Writes (opTo code operand) :=
  .write _

instance (name : String) : Writes (label name) :=
  .write _

instance (name : String) : Writes (anchor name) :=
  .write _

instance (a : String) (code : Opcode) (b dest : String) : Writes (binary a code b dest) :=
  .write _

instance (source dest : String) : Writes (copy source dest) :=
  .write _

end Writes

/-- A lowering after the functions have been entered, with the literals that it asks for.
One that refuses may be said to ask for any. -/
inductive Draws : {α : Type} → Lowering α → List Word → Prop
  | pure {α : Type} (a : α) : Draws (Pure.pure a : Lowering α) []
  | refuse {α : Type} (error : CompileError) (values : List Word) :
      Draws (refuse error : Lowering α) values
  | bind {α β : Type} {x : Lowering α} {f : α → Lowering β} {values values' : List Word}
      (hx : Draws x values) (hf : ∀ a, Draws (f a) values') : Draws (x >>= f) (values ++ values')
  | write (change : Sheet → Sheet) [Sheet.Silent change] : Draws (write change) []
  | literal (value : Word) : Draws (literal value) [value]
  | temporary : Draws temporary []
  | loopLabel : Draws loopLabel []
  | ifLabel : Draws ifLabel []
  | assertNumber : Draws assertNumber []
  | target (name : String) : Draws (target name) []
  | variableCell (name : String) : Draws (variableCell name) []
  | routine (name : String) : Draws (routine name) []
  | inspect {α : Type} {f : Draft → Lowering α} {values : List Word}
      (hsame : ∀ d d' : Draft, d.around = d'.around → f d = f d')
      (hf : ∀ d, Draws (f d) values) : Draws (get >>= f) values
  | loops (change : Loops → Loops) :
      Draws (modify fun draft => { draft with loops := change draft.loops }) []
  | within {α : Type} {name : String} {f : Routine → Lowering α} {values : List Word}
      (hf : ∀ routine, Draws (f routine) values) :
      Draws (Lowering.routine name >>= fun routine => enterScope routine >>= fun _ => f routine)
        values
  | leave : Draws leaveScope []

namespace Draws

variable {α β : Type} {x : Lowering α} {f : α → Lowering β} {values : List Word}

theorem congr {values' : List Word} (h : Draws x values) (heq : values = values') :
    Draws x values' :=
  heq ▸ h

/-- A step that asks for no literal goes first. -/
theorem after (hx : Draws x []) (hf : ∀ a, Draws (f a) values) : Draws (x >>= f) values :=
  .bind hx hf

/-- What comes last asks for no literal. -/
theorem before (hx : Draws x values) (hf : ∀ a, Draws (f a) []) : Draws (x >>= f) values :=
  (bind hx hf).congr (List.append_nil _)

theorem writes [h : Writes x] : Draws x [] := by
  induction h with
  | pure a => exact .pure a
  | write change => exact .write change
  | andThen _ _ hx hy => exact .bind hx fun _ => hy

theorem ask {g : String → Lowering α} (value : Word) (hg : ∀ a, Draws (g a) values) :
    Draws (Lowering.literal value >>= g) (value :: values) :=
  .bind (.literal value) hg

end Draws

/-! ## Operators -/

theorem select_draws (result : String) (branch : Opcode) (whenTaken : Bool) :
    Draws (select result branch whenTaken) [1, 0] :=
  .ask 1 fun _ => .ask 0 fun _ => .after (.write _) fun _ => .writes

theorem compare_draws (a b result : String) (branch : Opcode) (whenTaken : Bool) :
    Draws (compare a b result branch whenTaken) [1, 0] :=
  .after (.write _) fun _ => .after (.write _) fun _ => select_draws _ _ _

theorem multiply_draws (l r total : String) : Draws (multiply l r total) [0, 1] :=
  .ask 0 fun _ => .ask 1 fun _ => .after .temporary fun _ => .after .temporary fun _ =>
    .after (.write _) fun _ => .writes

theorem floorDivMod_draws (l r quotient remainder base : String) :
    Draws (floorDivMod l r quotient remainder base) [0, 1] := by
  refine .ask 0 fun _ => .ask 1 fun _ => ?_
  iterate 4 refine .after .temporary fun _ => ?_
  exact .after (.write _) fun _ => .writes

theorem power_draws (l r total : String) : Draws (power l r total) [1, 0, 1] := by
  refine .ask 1 fun _ => .after .temporary fun _ => .after .temporary fun _ => ?_
  iterate 8 refine .after (.write _) fun _ => ?_
  exact .before (multiply_draws _ _ _) fun _ => .writes

theorem combine_draws (op : BinaryOp) (l r : String) : Draws (combine op l r) op.literals := by
  refine .after .temporary fun result => ?_
  cases op with
  | add => exact .after (.write _) fun _ => .pure _
  | sub => exact .after (.write _) fun _ => .pure _
  | mul => exact .before (multiply_draws _ _ _) fun _ => .pure _
  | div =>
      exact .before (.after .temporary fun _ => floorDivMod_draws _ _ _ _ _) fun _ => .pure _
  | mod =>
      exact .before (.after .temporary fun _ => floorDivMod_draws _ _ _ _ _) fun _ => .pure _
  | pow => exact .before (power_draws _ _ _) fun _ => .pure _
  | and => exact .after (.refuse _ _) fun _ => .pure _
  | or => exact .after (.refuse _ _) fun _ => .pure _
  | _ => exact .before (compare_draws _ _ _ _ _) fun _ => .pure _

section Operators

variable {left right : Lowering String} {values values' : List Word}

theorem conjunction_draws (hleft : Draws left values) (hright : Draws right values') :
    Draws (conjunction left right) (1 :: 0 :: (values ++ values')) :=
  .after .temporary fun _ => .ask 1 fun _ => .ask 0 fun _ => .bind hleft fun _ =>
    .after (.write _) fun _ => .after (.write _) fun _ => .before hright fun _ => .writes

theorem disjunction_draws (hleft : Draws left values) (hright : Draws right values') :
    Draws (disjunction left right) (1 :: 0 :: (values ++ values')) :=
  .after .temporary fun _ => .ask 1 fun _ => .ask 0 fun _ => .bind hleft fun _ =>
    .after (.write _) fun _ => .after (.write _) fun _ => .after (.write _) fun _ =>
    .after (.write _) fun _ => .before hright fun _ => .writes

theorem negative_draws (hleft : Draws left values) : Draws (negative left) (values ++ [0]) :=
  .bind hleft fun _ => .ask 0 fun _ => .after .temporary fun _ => .after (.write _) fun _ =>
    .pure _

theorem negation_draws (hleft : Draws left values) : Draws (negation left) (values ++ [1, 0]) :=
  .bind hleft fun _ => .after .temporary fun _ => .after (.write _) fun _ =>
    .before (select_draws _ _ _) fun _ => .pure _

end Operators

/-! ## Expressions -/

theorem putChar_draws (c : Char) : Draws (putChar c) [Char.code c] :=
  .ask _ fun _ => .after (.write _) fun _ => .write _

theorem putChars_draws (content : List Char) :
    Draws (putChars content) (content.map Char.code) := by
  induction content with
  | nil => exact .pure _
  | cons c rest ih => exact .bind (putChar_draws c) fun _ => ih

theorem pushArguments_draws (cells : List String) : Draws (pushArguments cells) [] := by
  induction cells with
  | nil => exact .pure _
  | cons cell rest ih => exact .after (.write _) fun _ => .after (.write _) fun _ => ih

theorem assertion_draws {condition : Lowering String} {values : List Word}
    (h : Draws condition values) : Draws (assertion condition) (values ++ [1]) := by
  refine .after .assertNumber fun _ => .after (.write _) fun _ => .bind h fun _ => ?_
  iterate 6 refine .after (.write _) fun _ => ?_
  exact .literal _

theorem userCall_draws (callee : String) (count : Nat) {args : Lowering (List String)}
    {values : List Word} (h : Draws args values) :
    Draws (userCall callee count args) (values ++ [Int64.ofNat (3 + 2 * count)]) := by
  refine .after (.routine callee) fun routine => ?_
  split
  · refine .bind h fun cells => .ask _ fun _ => .after .temporary fun _ => ?_
    iterate 4 refine .after (.write _) fun _ => ?_
    exact .after (pushArguments_draws cells) fun _ => .writes
  · exact .refuse _ _

mutual

theorem expression_draws : (e : Expr) → Draws (expression e) e.literals
  | .integer value => by
      rw [expression, Expr.literals]
      exact .literal _
  | .bool value => by
      rw [expression, Expr.literals]
      exact .literal _
  | .text content => by
      rw [expression]
      exact .refuse _ _
  | .name x => by
      rw [expression, Expr.literals]
      exact .variableCell x
  | .group inner => by
      rw [expression, Expr.literals]
      exact expression_draws inner
  | .unary .neg operand => by
      rw [expression, Expr.literals]
      exact negative_draws (expression_draws operand)
  | .unary .not operand => by
      rw [expression, Expr.literals]
      exact negation_draws (expression_draws operand)
  | .binary left op right => by
      have hleft := expression_draws left
      have hright := expression_draws right
      by_cases hand : op = .and
      · subst hand
        rw [expression, Expr.literals]
        exact conjunction_draws hleft hright
      · by_cases hor : op = .or
        · subst hor
          rw [expression, Expr.literals]
          exact disjunction_draws hleft hright
        · rw [expression, Expr.literals]
          · exact .bind hleft fun l => .bind hright fun r => combine_draws op l r
          all_goals assumption
  | .call callee args => by
      unfold expression
      rw [Expr.literals]
      by_cases hprint : callee = "print"
      · rw [if_pos hprint, if_pos hprint]
        refine .after (.write _) fun _ => .bind (printed_draws args) fun _ => ?_
        by_cases hopen : leavesLineOpen args = true
        · rw [if_pos hopen, if_pos hopen]
          exact .bind (putChar_draws _) fun _ => .literal _
        · rw [if_neg hopen, if_neg hopen]
          exact .after (.pure PUnit.unit) fun _ => .literal _
      · rw [if_neg hprint, if_neg hprint]
        by_cases hinput : callee = "input"
        · rw [if_pos hinput, if_pos hinput, input]
          split
          · exact .after .temporary fun _ => .after (.write _) fun _ => .after (.write _)
              fun _ => .pure _
          · exact .refuse _ _
        · rw [if_neg hinput, if_neg hinput]
          by_cases hassert : callee = "assert"
          · rw [if_pos hassert, if_pos hassert]
            rcases args with _ | ⟨condition, _ | ⟨second, rest⟩⟩
            · exact .refuse _ _
            · refine (assertion_draws (expression_draws condition)).congr ?_
              simp [Expr.literalsAll]
            · exact .refuse _ _
          · rw [if_neg hassert, if_neg hassert]
            exact userCall_draws callee args.length (expressions_draws args)

theorem expressions_draws : (es : List Expr) → Draws (expressions es) (Expr.literalsAll es)
  | [] => by
      rw [expressions, Expr.literalsAll]
      exact .pure _
  | e :: rest => by
      rw [expressions, Expr.literalsAll]
      exact .bind (expression_draws e) fun _ => .before (expressions_draws rest) fun _ => .pure _

theorem printed_draws : (es : List Expr) → Draws (printed es) (Expr.literalsPrinted es)
  | [] => by
      rw [printed, Expr.literalsPrinted]
      exact .pure _
  | e :: rest => by
      have hrest := printed_draws rest
      have he := expression_draws e
      cases e with
      | text content =>
          rw [printed, Expr.literalsPrinted]
          exact .bind (putChars_draws _) fun _ => hrest
      | _ =>
          rw [printed, Expr.literalsPrinted]
          · exact .bind he fun _ => .after (.write _) fun _ => .after (.write _) fun _ => hrest
          all_goals simp

end

/-! ## Statements -/

theorem branchIfFalse_draws (condition : Expr) (onFalse : String) :
    Draws (branchIfFalse condition onFalse) condition.literals :=
  .before (expression_draws condition) fun _ => .after (.write _) fun _ => .write _

theorem returnFrom_draws (value : String) : Draws (returnFrom value) [] :=
  .after .temporary fun _ => .writes

theorem loopJump_draws (keyword : String) (place : LoopLabels → String) :
    Draws (loopJump keyword place) [] := by
  refine .inspect (fun d d' hsame => ?_) fun d => ?_
  · have hloops : d.loops = d'.loops := congrArg Around.loops hsame
    rw [hloops]
  · split
    · exact .write _
    · exact .refuse _ _

theorem insideLoop_draws (label continueTarget : String) {body : Lowering Unit}
    {values : List Word} (h : Draws body values) :
    Draws (insideLoop label continueTarget body) values :=
  .after (.loops fun loops => loops.enter label continueTarget) fun _ =>
    .before h fun _ => .loops fun loops => loops.leave.2

section Loops

variable {body : Lowering Unit} {values : List Word} (h : Draws body values)
include h

theorem whileLoop_draws (condition : Expr) :
    Draws (whileLoop condition body) (condition.literals ++ values) :=
  .after .loopLabel fun _ => .after (.write _) fun _ => .after (.write _) fun _ =>
    .bind (branchIfFalse_draws condition _) fun _ =>
      .before (insideLoop_draws _ _ h) fun _ => .after (.write _) fun _ => .write _

theorem untilLoop_draws (condition : Expr) :
    Draws (untilLoop body condition) (values ++ condition.literals) :=
  .after .loopLabel fun _ => .after (.write _) fun _ => .after (.write _) fun _ =>
    .bind (insideLoop_draws _ _ h) fun _ => .after (.write _) fun _ =>
      .before (branchIfFalse_draws condition _) fun _ => .write _

theorem forLoop_draws (var : String) (first last : Expr) :
    Draws (forLoop var first last body)
      (first.literals ++ (last.literals ++ (values ++ [1]))) :=
  .after .loopLabel fun _ => .after (.write _) fun _ =>
    .bind (expression_draws first) fun _ => .after (.target var) fun _ => .after (.write _) fun _ =>
    .bind (expression_draws last) fun _ => .after .temporary fun _ => .after (.write _) fun _ =>
    .after (.write _) fun _ => .bind (insideLoop_draws _ _ h) fun _ => .ask 1 fun _ => .writes

end Loops

mutual

theorem statement_draws : (stmt : Stmt) → Draws (statement stmt) stmt.literals
  | .assign name value => by
      rw [statement, Stmt.literals, assign]
      exact .after (.write _) fun _ => .before (expression_draws value) fun _ =>
        .after (.target name) fun _ => .write _
  | .choose arms (some body) => by
      rw [statement, Stmt.literals]
      exact .after .ifLabel fun id => .after (.write _) fun _ =>
        .bind (choices_draws _ _ _ _ arms) fun _ => .after (.write _) fun _ =>
          .before (block_draws body) fun _ => .write _
  | .choose arms none => by
      rw [statement, Stmt.literals]
      exact .after .ifLabel fun id => .after (.write _) fun _ =>
        .before (choices_draws _ _ _ _ arms) fun _ => .write _
  | .whileLoop condition body => by
      rw [statement, Stmt.literals]
      exact whileLoop_draws (block_draws body) condition
  | .untilLoop body condition => by
      rw [statement, Stmt.literals]
      exact untilLoop_draws (block_draws body) condition
  | .forLoop var first last body closing => by
      rw [statement, Stmt.literals]
      split
      · exact forLoop_draws (block_draws body) var first last
      · exact .refuse _ _
  | .switch subject arms otherwise => by
      rw [statement]
      exact .refuse _ _
  | .function name params body => by
      rw [statement]
      exact .refuse _ _
  | .giveBack value => by
      rw [statement]
      refine .inspect (fun d d' hsame => ?_) fun d => ?_
      · have hfunction : d.inFunction = d'.inFunction := congrArg Around.inFunction hsame
        rw [hfunction]
      · split
        · cases value with
          | none =>
              rw [Stmt.literals]
              exact .ask 0 fun _ => returnFrom_draws _
          | some value =>
              rw [Stmt.literals]
              exact .before (expression_draws value) fun _ => returnFrom_draws _
        · exact .refuse _ _
  | .leaveLoop => by
      rw [statement, Stmt.literals]
      exact loopJump_draws _ _
  | .nextPass => by
      rw [statement, Stmt.literals]
      exact loopJump_draws _ _
  | .evaluate value => by
      rw [statement, Stmt.literals]
      exact .before (expression_draws value) fun _ => .pure _

theorem block_draws : (body : List Stmt) → Draws (block body) (Stmt.literalsInBlock body)
  | [] => by
      rw [block, Stmt.literalsInBlock]
      exact .pure _
  | stmt :: rest => by
      rw [block, Stmt.literalsInBlock]
      exact .bind (statement_draws stmt) fun _ => block_draws rest

theorem choices_draws (id done fallback : String) (i : Nat) : (arms : List (Expr × List Stmt)) →
    Draws (choices id done fallback i arms) (Stmt.literalsInArms arms)
  | [] => by
      rw [choices, Stmt.literalsInArms]
      exact .pure _
  | (condition, body) :: rest => by
      rw [choices, Stmt.literalsInArms]
      exact .after (.write _) fun _ => .bind (branchIfFalse_draws condition _) fun _ =>
        .bind (block_draws body) fun _ => .after (.write _) fun _ =>
          choices_draws id done fallback (i + 1) rest

end

/-! ## Programs -/

theorem popParams_draws (params : List String) : Draws (popParams params) [] := by
  induction params with
  | nil => exact .pure _
  | cons param rest ih =>
      exact .after (.variableCell param) fun _ => .after (.write _) fun _ => .after (.write _)
        fun _ => ih

theorem function_draws (name : String) (body : List Stmt) :
    Draws (function name body) (Stmt.literalsInBlock body ++ [0]) :=
  .within fun _ => .after (.write _) fun _ => .after (.write _) fun _ =>
    .after (popParams_draws _) fun _ => .bind (block_draws body) fun _ => .ask 0 fun _ =>
      .after (returnFrom_draws _) fun _ => .leave

theorem functions_draws (stmts : List Stmt) :
    Draws (functions stmts) (Program.literalsOf stmts) := by
  induction stmts with
  | nil => exact .pure _
  | cons stmt rest ih =>
      cases stmt with
      | function name params body =>
          refine (Draws.bind (function_draws name body) fun _ => ih).congr ?_
          rw [Program.literalsOf, List.append_assoc]
          rfl
      | _ => exact ih

/-- The code of a program: what is written between the entering of its functions and its
data. -/
def code (p : Program) : Lowering Unit := do
  note "main"
  block p.main
  op .hlt
  functions p.functions
  note "data"

theorem program_eq (p : Program) :
    program p = enterRoutines p.functions >>= fun _ => code p >>= fun _ => declareData := by
  simp only [program, code, bind_assoc]

theorem code_draws (p : Program) : Draws (code p) p.literals :=
  .after (.write _) fun _ => .bind (block_draws p.main) fun _ => .after (.write _) fun _ =>
    .before (functions_draws p.functions) fun _ => .write _

end Lowering
end LittleMan
