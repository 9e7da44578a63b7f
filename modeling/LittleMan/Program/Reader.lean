import LittleMan.Program
import LittleMan.Token.Lexer

/-!
# Reading programs

Programs are read from their tokens by descent, with one token of lookahead (two
at the name that starts a statement).  Blocks are closed by keywords of their
own, so line ends carry no meaning, with one exception: the value of `return`
has to start on the line of the `return`.

Operators bind in the order of `Level`, the loosest first.  Sums, products,
conjunctions and disjunctions lean to the left, powers to the right, comparisons
do not chain, and a sign binds tighter than a power.

A reader that cannot go on says why and where its cursor stood; the cursor is
also where a later reader would take up.  The readers count down a budget at
every call.  Between two tokens there are fewer than ten calls, so ten for every
token, and ten more, are never used up.
-/

namespace LittleMan

inductive ParseFault where
  | lexical (fault : LexFault)
  | expected (wanted : Token) (after : String) (found : Option Token)
  | expectedName (after : String) (found : Option Token)
  | unclosed (construct : String) (closers : List Token)
  | noToken
  | expectedStatement (found : Option Token)
  | nestedFunction
  | equalityForAssignment
  | danglingName (name : String) (found : Option Token)
  | chainedComparison
  | expectedExpression (found : Option Token)
  | exhausted
deriving DecidableEq, Repr

namespace ParseFault

def describeFound : Option Token → String
  | some token => token.describe
  | none => "end of input"

def message : ParseFault → String
  | .lexical fault => fault.message
  | .expected wanted after found =>
      "expected " ++ wanted.describe ++ " after " ++ after ++ ", found " ++ describeFound found
  | .expectedName after found =>
      "expected identifier after " ++ after ++ ", found " ++ describeFound found
  | .unclosed construct closers =>
      "unexpected end of input in " ++ construct ++ ", expected " ++
        " or ".intercalate (closers.map Token.describe)
  | .noToken => "unexpected EOF"
  | .expectedStatement found => "expected a statement, found " ++ describeFound found
  | .nestedFunction => "function declarations are only allowed at the top level"
  | .equalityForAssignment => "'==' compares values; use '=' to assign"
  | .danglingName name found =>
      "expected '=' or '(' after '" ++ name ++ "', found " ++ describeFound found
  | .chainedComparison => "comparison operators cannot be chained"
  | .expectedExpression found => "expected an expression, found " ++ describeFound found
  | .exhausted => "nesting is too deep"

end ParseFault

abbrev ParseError := Located ParseFault

def ParseError.message (error : ParseError) : String :=
  error.pos.note error.cause.message

/-- The tokens still to be read, and the position of the last one read. -/
structure Cursor where
  rest : List Spanned
  last : Option Pos := none
deriving Repr

namespace Cursor

def start (tokens : List Spanned) : Cursor :=
  { rest := Token.withoutTrivia tokens }

def peek (cursor : Cursor) : Option Token :=
  cursor.rest.head?.map Spanned.token

def peekSecond (cursor : Cursor) : Option Token :=
  cursor.rest.tail.head?.map Spanned.token

def advance (cursor : Cursor) : Cursor :=
  match cursor.rest with
  | [] => cursor
  | spanned :: rest => { rest, last := some spanned.pos }

def atEnd (cursor : Cursor) : Bool :=
  match cursor.peek with
  | none | some .eof => true
  | _ => false

/-- The next token, or else the last one, or else the start of the text. -/
def pos (cursor : Cursor) : Pos :=
  match cursor.rest with
  | spanned :: _ => spanned.pos
  | [] => cursor.last.getD Pos.start

/-- Whether the next token stands on the line of the last one read. -/
def staysOnLine (cursor : Cursor) : Bool :=
  match cursor.rest with
  | spanned :: _ => spanned.pos.line == (cursor.last.getD Pos.start).line
  | [] => false

def budget (cursor : Cursor) : Nat :=
  10 * cursor.rest.length + 10

end Cursor

/-- Why a reader stopped, and the cursor at which it did. -/
structure Stop where
  fault : ParseFault
  cursor : Cursor
deriving Repr

def Stop.error (stop : Stop) : ParseError :=
  { cause := stop.fault, pos := stop.cursor.pos }

/-- The levels of expressions, from the loosest to the tightest. -/
inductive Level where
  | disjunction
  | conjunction
  | negation
  | comparison
  | sum
  | product
  | power
  | signed
  | primary
deriving DecidableEq, Repr

namespace Level

/-- The operators that chain to the left at a level. -/
def operator? : Level → Token → Option BinaryOp
  | .disjunction, .or => some .or
  | .conjunction, .and => some .and
  | .sum, .plus => some .add
  | .sum, .minus => some .sub
  | .product, .star => some .mul
  | .product, .slash => some .div
  | .product, .div => some .div
  | .product, .mod => some .mod
  | _, _ => none

def comparison? : Token → Option BinaryOp
  | .equal => some .eq
  | .notEqual => some .notEq
  | .less => some .lt
  | .greater => some .gt
  | .lessEqual => some .ltEq
  | .greaterEqual => some .gtEq
  | _ => none

/-- The next tighter level. -/
def operand : Level → Level
  | .disjunction => .conjunction
  | .conjunction => .negation
  | .negation => .comparison
  | .comparison => .sum
  | .sum => .product
  | .product => .power
  | .power => .signed
  | .signed => .primary
  | .primary => .primary

end Level

abbrev Reading (α : Type) := StateT Cursor (Except Stop) α

namespace Reading

def stop {α : Type} (fault : ParseFault) : Reading α := fun cursor =>
  .error { fault, cursor }

/-- Stops with a fault that names the next token. -/
def refuse {α : Type} (fault : Option Token → ParseFault) : Reading α := fun cursor =>
  .error { fault := fault cursor.peek, cursor }

def peek : Reading (Option Token) := fun cursor =>
  .ok (cursor.peek, cursor)

def advance : Reading Unit := fun cursor =>
  .ok ((), cursor.advance)

def isNext (token : Token) : Reading Bool := fun cursor =>
  .ok (cursor.peek == some token, cursor)

def expect (wanted : Token) (after : String) : Reading Unit := do
  if ← isNext wanted then advance
  else refuse (.expected wanted after)

def expectName (after : String) : Reading String := do
  match ← peek with
  | some (.name word) =>
      advance
      return word
  | _ => refuse (.expectedName after)

mutual

def expression : Nat → Level → Reading Expr
  | 0, _ => stop .exhausted
  | budget + 1, .negation => do
      if ← isNext .not then
        advance
        return .unary .not (← expression budget .negation)
      else expression budget .comparison
  | budget + 1, .comparison => do
      let left ← expression budget .sum
      match (← peek).bind Level.comparison? with
      | none => return left
      | some op =>
          advance
          let right ← expression budget .sum
          if ((← peek).bind Level.comparison?).isSome then stop .chainedComparison
          else return .binary left op right
  | budget + 1, .power => do
      let base ← expression budget .signed
      if ← isNext .caret then
        advance
        return .binary base .pow (← expression budget .power)
      else return base
  | budget + 1, .signed => do
      if ← isNext .minus then
        advance
        return .unary .neg (← expression budget .signed)
      else expression budget .primary
  | budget + 1, .primary => do
      match ← peek with
      | none => stop .noToken
      | some (.integer value) =>
          advance
          return .integer value
      | some (.bool value) =>
          advance
          return .bool value
      | some (.text content) =>
          advance
          return .text content
      | some (.name word) =>
          advance
          if ← isNext .leftParen then
            advance
            let args ← if ← isNext .rightParen then pure [] else arguments budget
            expect .rightParen ("arguments to '" ++ word ++ "'")
            return .call word args
          else return .name word
      | some .leftParen =>
          advance
          let inner ← expression budget .disjunction
          expect .rightParen "parenthesised expression"
          return .group inner
      | some _ => refuse .expectedExpression
  | budget + 1, level => do
      let first ← expression budget level.operand
      operands budget level first

/-- Further operands of a level that leans to the left. -/
def operands : Nat → Level → Expr → Reading Expr
  | 0, _, _ => stop .exhausted
  | budget + 1, level, left => do
      match (← peek).bind level.operator? with
      | none => return left
      | some op =>
          advance
          let right ← expression budget level.operand
          operands budget level (.binary left op right)

/-- One or more expressions with commas between them. -/
def arguments : Nat → Reading (List Expr)
  | 0 => stop .exhausted
  | budget + 1 => do
      let first ← expression budget .disjunction
      if ← isNext .comma then
        advance
        return first :: (← arguments budget)
      else return [first]

end

/-- `name = expression` or `name(arguments)`. -/
def nameStatement (budget : Nat) (word : String) : Reading Stmt := do
  match (← get).peekSecond with
  | some .assign =>
      advance
      advance
      return .assign word (← expression budget .disjunction)
  | some .leftParen => return .evaluate (← expression budget .primary)
  | some .equal =>
      advance
      stop .equalityForAssignment
  | _ =>
      advance
      refuse (.danglingName word)

def returnStatement (budget : Nat) : Reading Stmt := do
  advance
  let cursor ← get
  if cursor.staysOnLine && cursor.peek.any Token.startsExpression then
    return .giveBack (some (← expression budget .disjunction))
  else return .giveBack none

mutual

def statement : Nat → Reading Stmt
  | 0 => stop .exhausted
  | budget + 1 => do
      match ← peek with
      | none => stop .noToken
      | some (.name word) => nameStatement budget word
      | some .ifKw =>
          advance
          let test ← expression budget .disjunction
          expect .thenKw "if condition"
          let body ← block budget [.elseIfKw, .elseKw, .endIfKw] "if"
          let others ← elseIfs budget
          let otherwise ←
            if ← isNext .elseKw then
              advance
              pure (some (← block budget [.endIfKw] "else"))
            else pure none
          expect .endIfKw "if statement"
          return .choose ((test, body) :: others) otherwise
      | some .whileKw =>
          advance
          let condition ← expression budget .disjunction
          let body ← block budget [.endWhileKw] "while"
          advance
          return .whileLoop condition body
      | some .doKw =>
          advance
          let body ← block budget [.untilKw] "do"
          advance
          return .untilLoop body (← expression budget .disjunction)
      | some .forKw =>
          advance
          let var ← expectName "'for'"
          expect .assign "loop variable"
          let first ← expression budget .disjunction
          expect .toKw "loop start value"
          let last ← expression budget .disjunction
          let body ← block budget [.nextKw] "for"
          advance
          return .forLoop var first last body (← expectName "'next'")
      | some .switchKw =>
          advance
          let subject ← expression budget .disjunction
          expect .colon "switch subject"
          let arms ← cases budget
          let otherwise ←
            if ← isNext .defaultKw then
              advance
              expect .colon "'default'"
              pure (some (← block budget [.endSwitchKw] "default"))
            else pure none
          expect .endSwitchKw "switch cases"
          return .switch subject arms otherwise
      | some .returnKw => returnStatement budget
      | some .breakKw =>
          advance
          return .leaveLoop
      | some .continueKw =>
          advance
          return .nextPass
      | some .functionKw => stop .nestedFunction
      | some _ => refuse .expectedStatement

/-- Statements up to one of the closers, which is left to be read. -/
def block : Nat → List Token → String → Reading (List Stmt)
  | 0, _, _ => stop .exhausted
  | budget + 1, closers, construct => do
      let cursor ← get
      if cursor.peek.any closers.contains then return []
      else if cursor.atEnd then stop (.unclosed construct closers)
      else
        let first ← statement budget
        return first :: (← block budget closers construct)

def elseIfs : Nat → Reading (List (Expr × List Stmt))
  | 0 => stop .exhausted
  | budget + 1 => do
      if ← isNext .elseIfKw then
        advance
        let test ← expression budget .disjunction
        expect .thenKw "elseif condition"
        let body ← block budget [.elseIfKw, .elseKw, .endIfKw] "elseif"
        return (test, body) :: (← elseIfs budget)
      else return []

def cases : Nat → Reading (List (Expr × List Stmt))
  | 0 => stop .exhausted
  | budget + 1 => do
      if ← isNext .caseKw then
        advance
        let value ← expression budget .disjunction
        expect .colon "case value"
        let body ← block budget [.caseKw, .defaultKw, .endSwitchKw] "case"
        return (value, body) :: (← cases budget)
      else return []

end

/-- One or more parameter names with commas between them. -/
def parameters : Nat → Reading (List String)
  | 0 => stop .exhausted
  | budget + 1 => do
      let first ← expectName "'(' or ','"
      if ← isNext .comma then
        advance
        return first :: (← parameters budget)
      else return [first]

def declaration (budget : Nat) : Reading Stmt := do
  advance
  let name ← expectName "'function'"
  expect .leftParen "function name"
  let params ← if ← isNext .rightParen then pure [] else parameters budget
  expect .rightParen "parameter list"
  let body ← block budget [.endFunctionKw] "function"
  advance
  return .function name params body

/-- Everything up to the end of the text. -/
def topLevel : Nat → Reading (List Stmt)
  | 0 => stop .exhausted
  | budget + 1 => do
      if (← get).atEnd then return []
      else
        let first ← if ← isNext .functionKw then declaration budget else statement budget
        return first :: (← topLevel budget)

end Reading

/-- The expression at a cursor and the cursor after it. -/
def Expr.read (cursor : Cursor) : Except Stop (Expr × Cursor) :=
  Reading.expression cursor.budget .disjunction cursor

namespace Program

/-- Reads up to the first `eof`, or to the end of the list. -/
def read (tokens : List Spanned) : Except Stop Program :=
  let cursor := Cursor.start tokens
  (Reading.topLevel cursor.budget cursor).map fun (statements, _) => { statements }

def ofTokens (tokens : List Spanned) : Except ParseError Program :=
  (read tokens).mapError Stop.error

def parse (source : String) : Except ParseError Program :=
  match Token.scan source with
  | .error error => .error { cause := .lexical error.cause, pos := error.pos }
  | .ok tokens => ofTokens tokens

end Program
end LittleMan
