import LittleMan.Text.Pad
import LittleMan.Text.Paint
import LittleMan.Text.Quoted
import LittleMan.Token

/-!
# Token listings

One row per token: its position, the class it belongs to, and the token itself,
either as a constructor with its content or in the words that messages use.
-/

namespace LittleMan
namespace Token

def constructorName : Token → String
  | .integer _ => "Integer"
  | .text _ => "String"
  | .bool _ => "Bool"
  | .name _ => "Ident"
  | .plus => "Plus"
  | .minus => "Minus"
  | .star => "Star"
  | .slash => "Slash"
  | .caret => "Caret"
  | .mod => "Mod"
  | .div => "Div"
  | .equal => "EqEq"
  | .notEqual => "NotEq"
  | .less => "Lt"
  | .greater => "Gt"
  | .lessEqual => "LtEq"
  | .greaterEqual => "GtEq"
  | .and => "And"
  | .or => "Or"
  | .not => "Not"
  | .assign => "Assign"
  | .ifKw => "If"
  | .thenKw => "Then"
  | .elseIfKw => "ElseIf"
  | .elseKw => "Else"
  | .endIfKw => "EndIf"
  | .switchKw => "Switch"
  | .caseKw => "Case"
  | .defaultKw => "Default"
  | .endSwitchKw => "EndSwitch"
  | .whileKw => "While"
  | .endWhileKw => "EndWhile"
  | .doKw => "Do"
  | .untilKw => "Until"
  | .forKw => "For"
  | .toKw => "To"
  | .nextKw => "Next"
  | .breakKw => "Break"
  | .continueKw => "Continue"
  | .functionKw => "Function"
  | .endFunctionKw => "EndFunction"
  | .returnKw => "Return"
  | .leftParen => "LParen"
  | .rightParen => "RParen"
  | .comma => "Comma"
  | .colon => "Colon"
  | .comment _ => "Comment"
  | .newline => "Newline"
  | .eof => "Eof"

/-- The tokens without content. -/
def plain : List Token := [
  .plus, .minus, .star, .slash, .caret, .mod, .div, .equal, .notEqual, .less, .greater,
  .lessEqual, .greaterEqual, .and, .or, .not, .assign, .ifKw, .thenKw, .elseIfKw, .elseKw,
  .endIfKw, .switchKw, .caseKw, .defaultKw, .endSwitchKw, .whileKw, .endWhileKw, .doKw,
  .untilKw, .forKw, .toKw, .nextKw, .breakKw, .continueKw, .functionKw, .endFunctionKw,
  .returnKw, .leftParen, .rightParen, .comma, .colon, .newline, .eof]

def content? : Token → Option String
  | .integer value => some value.text
  | .text content => some (Text.quoted content)
  | .bool value => some (toString value)
  | .name word => some (Text.quoted word)
  | .comment content => some (Text.quoted content)
  | _ => none

/-- The constructor, with its content in parentheses if it has any. -/
def shown (token : Token) : String :=
  match token.content? with
  | some content => token.constructorName ++ "(" ++ content ++ ")"
  | none => token.constructorName

/-- The token in words, where comments and line ends are named in capitals. -/
def told : Token → String
  | .comment content => "COMMENT: " ++ content
  | .newline => "NEWLINE"
  | token => token.describe

inductive Family where
  | newline
  | comment
  | eof
  | integer
  | text
  | bool
  | name
  | punctuation
  | operator
  | comparison
  | logic
  | keyword
deriving DecidableEq, Repr

def family : Token → Family
  | .newline => .newline
  | .comment _ => .comment
  | .eof => .eof
  | .integer _ => .integer
  | .text _ => .text
  | .bool _ => .bool
  | .name _ => .name
  | .leftParen | .rightParen | .comma | .colon => .punctuation
  | .plus | .minus | .star | .slash | .caret | .mod | .div | .assign => .operator
  | .equal | .notEqual | .less | .lessEqual | .greater | .greaterEqual => .comparison
  | .and | .or | .not => .logic
  | _ => .keyword

namespace Family

def title : Family → String
  | .newline => "NEWLINE"
  | .comment => "COMMENT"
  | .eof => "EOF"
  | .integer => "INT"
  | .text => "STRING"
  | .bool => "BOOL"
  | .name => "IDENT"
  | .punctuation => "PUNCT"
  | .operator => "OP"
  | .comparison => "CMP"
  | .logic => "LOGIC"
  | .keyword => "KEYWORD"

def style : Family → Style
  | .text => { colour := some .green }
  | .integer | .bool => { colour := some .cyan }
  | .name => { colour := some .yellow }
  | .operator | .comparison | .logic => { colour := some .magenta }
  | .newline | .comment | .eof => { faint := true }
  | .punctuation | .keyword => {}

end Family

structure ListingOptions where
  colours : Bool := false
  inWords : Bool := false

def row (options : ListingOptions) (spanned : Spanned) : String :=
  let token := spanned.token
  let body := if options.inWords then token.told else token.shown
  "[" ++ Text.column 2 spanned.pos.line ++ ":" ++ Text.column 2 spanned.pos.col ++ "] " ++
    token.family.style.paint options.colours
      (Text.padRight 8 token.family.title ++ " " ++ body) ++ "\n"

def listing (options : ListingOptions) (tokens : List Spanned) : String :=
  String.join (tokens.map (row options))

end Token
end LittleMan
