import LittleMan.Position
import LittleMan.Text.Letter
import LittleMan.Word

/-!
# Tokens

The words of the pseudocode language.  Keywords are recognised in any mixture of
ASCII capitals and small letters, and `procedure` is a second spelling of
`function`.  Comments and line ends are tokens too, so that a listing can show
them; `Token.isTrivia` tells them apart from the tokens that carry the program.
-/

namespace LittleMan

inductive Token where
  | integer (value : Word)
  | text (content : String)
  | bool (value : Bool)
  | name (word : String)
  | plus
  | minus
  | star
  | slash
  | caret
  | mod
  | div
  | equal
  | notEqual
  | less
  | greater
  | lessEqual
  | greaterEqual
  | and
  | or
  | not
  | assign
  | ifKw
  | thenKw
  | elseIfKw
  | elseKw
  | endIfKw
  | switchKw
  | caseKw
  | defaultKw
  | endSwitchKw
  | whileKw
  | endWhileKw
  | doKw
  | untilKw
  | forKw
  | toKw
  | nextKw
  | breakKw
  | continueKw
  | functionKw
  | endFunctionKw
  | returnKw
  | leftParen
  | rightParen
  | comma
  | colon
  | comment (content : String)
  | newline
  | eof
deriving DecidableEq, Repr

namespace Token

def keywords : List (String × Token) := [
  ("true", .bool true), ("false", .bool false),
  ("mod", .mod), ("div", .div), ("and", .and), ("or", .or), ("not", .not),
  ("if", .ifKw), ("then", .thenKw), ("elseif", .elseIfKw), ("else", .elseKw),
  ("endif", .endIfKw), ("switch", .switchKw), ("case", .caseKw),
  ("default", .defaultKw), ("endswitch", .endSwitchKw),
  ("while", .whileKw), ("endwhile", .endWhileKw), ("do", .doKw), ("until", .untilKw),
  ("for", .forKw), ("to", .toKw), ("next", .nextKw), ("break", .breakKw),
  ("continue", .continueKw),
  ("function", .functionKw), ("procedure", .functionKw),
  ("endfunction", .endFunctionKw), ("endprocedure", .endFunctionKw),
  ("return", .returnKw)]

def keyword? (word : String) : Option Token :=
  keywords.lookup (String.ofList (Text.foldCase word.toList))

/-- The symbol or keyword that stands for a token, where one does. -/
def spelling : Token → String
  | .plus => "+"
  | .minus => "-"
  | .star => "*"
  | .slash => "/"
  | .caret => "^"
  | .mod => "MOD"
  | .div => "DIV"
  | .equal => "=="
  | .notEqual => "!="
  | .less => "<"
  | .greater => ">"
  | .lessEqual => "<="
  | .greaterEqual => ">="
  | .and => "AND"
  | .or => "OR"
  | .not => "NOT"
  | .assign => "="
  | .ifKw => "if"
  | .thenKw => "then"
  | .elseIfKw => "elseif"
  | .elseKw => "else"
  | .endIfKw => "endif"
  | .switchKw => "switch"
  | .caseKw => "case"
  | .defaultKw => "default"
  | .endSwitchKw => "endswitch"
  | .whileKw => "while"
  | .endWhileKw => "endwhile"
  | .doKw => "do"
  | .untilKw => "until"
  | .forKw => "for"
  | .toKw => "to"
  | .nextKw => "next"
  | .breakKw => "break"
  | .continueKw => "continue"
  | .functionKw => "function"
  | .endFunctionKw => "endfunction"
  | .returnKw => "return"
  | .leftParen => "("
  | .rightParen => ")"
  | .comma => ","
  | .colon => ":"
  | .integer _ | .text _ | .bool _ | .name _ | .comment _ | .newline | .eof => ""

/-- How a message about the program names a token. -/
def describe : Token → String
  | .integer value => "integer " ++ value.text
  | .text _ => "string literal"
  | .bool value => "'" ++ toString value ++ "'"
  | .name word => "identifier '" ++ word ++ "'"
  | .comment _ => "comment"
  | .newline => "newline"
  | .eof => "end of input"
  | token => "'" ++ token.spelling ++ "'"

/-- Comments and line ends, which no construct of the language asks for. -/
def isTrivia : Token → Bool
  | .comment _ | .newline => true
  | _ => false

/-- The tokens that an expression can start with. -/
def startsExpression : Token → Bool
  | .integer _ | .text _ | .bool _ | .name _ | .leftParen | .minus | .not => true
  | _ => false

end Token

structure Spanned where
  token : Token
  pos : Pos
deriving DecidableEq, Repr

end LittleMan
