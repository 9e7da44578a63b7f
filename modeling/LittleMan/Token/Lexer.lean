import LittleMan.Text.Blank
import LittleMan.Token

/-!
# Reading tokens

A text is read from left to right as lexemes separated by spaces, tabs and
carriage returns.  `Token.lexeme` reads one lexeme and says how many characters
it takes; `Token.scanFrom` walks over the text character by character, skips the
characters of a lexeme already read, and keeps the position as it goes, so that
every token carries the position of its first character.

A fault is reported with its distance from the start of the lexeme it was found
in: faults inside an escape point at the escape, all others at the start.
-/

namespace LittleMan

inductive LexFault where
  | unknownEscape (c : Char)
  | openEscape
  | brokenString
  | openString
  | digitBeforeName (digits : String) (c : Char)
  | fraction
  | hugeInteger (digits : String)
  | unexpected (c : Char)
deriving DecidableEq, Repr

namespace LexFault

def message : LexFault → String
  | .unknownEscape c => "unknown escape sequence: \\" ++ c.toString
  | .openEscape => "unexpected EOF in escape sequence"
  | .brokenString => "unterminated string (newline before closing quote)"
  | .openString => "unterminated string literal"
  | .digitBeforeName digits c =>
      "identifier cannot start with a digit: " ++ digits ++ c.toString
  | .fraction => "floating point numbers are not supported"
  | .hugeInteger digits => "invalid integer: " ++ digits
  | .unexpected c => "unexpected character '" ++ c.toString ++ "'"

end LexFault

abbrev LexError := Located LexFault

def LexError.message (error : LexError) : String :=
  error.pos.note error.cause.message

structure Lexeme where
  token : Token
  length : Nat
deriving DecidableEq, Repr

namespace Token

/-- A fault and its distance from the start of the lexeme. -/
abbrev Lexing (α : Type) := Except (LexFault × Nat) α

def isGap (c : Char) : Bool :=
  c == ' ' || c == '\t' || c == '\r'

def escape? : Char → Option Char
  | 'n' => some '\n'
  | 't' => some '\t'
  | '\\' => some '\\'
  | '"' => some '"'
  | _ => none

/-- The content of a string from `offset` characters after its opening quote
onwards, and the length of the whole lexeme. -/
def stringBody (offset : Nat) : List Char → Lexing (List Char × Nat)
  | [] => .error (.openString, 0)
  | '"' :: _ => .ok ([], offset + 1)
  | '\n' :: _ => .error (.brokenString, 0)
  | ['\\'] => .error (.openEscape, offset + 1)
  | '\\' :: e :: rest =>
      match escape? e with
      | none => .error (.unknownEscape e, offset + 1)
      | some c => (stringBody (offset + 2) rest).map fun (content, length) =>
          (c :: content, length)
  | c :: rest => (stringBody (offset + 1) rest).map fun (content, length) =>
      (c :: content, length)

def stringLexeme (rest : List Char) : Lexing Lexeme :=
  (stringBody 1 rest).map fun (content, length) =>
    { token := .text (String.ofList content), length }

def commentLexeme (rest : List Char) : Lexeme :=
  let content := rest.takeWhile (· != '\n')
  { token := .comment (String.ofList (Text.trim content)), length := content.length + 2 }

def numberLexeme (chars : List Char) : Lexing Lexeme :=
  let digits := chars.takeWhile Numeral.isDigit
  let integer : Lexing Lexeme :=
    match Word.ofInt? (Numeral.value digits) with
    | some value => .ok { token := .integer value, length := digits.length }
    | none => .error (.hugeInteger (String.ofList digits), 0)
  match chars.dropWhile Numeral.isDigit with
  | [] => integer
  | c :: rest =>
      if Text.startsName c then .error (.digitBeforeName (String.ofList digits) c, 0)
      else if c == '.' && rest.head?.any Numeral.isDigit then .error (.fraction, 0)
      else integer

def nameLexeme (chars : List Char) : Lexeme :=
  let word := chars.takeWhile Text.continuesName
  let name := String.ofList word
  { token := (keyword? name).getD (.name name), length := word.length }

def operator? (c : Char) (next : Option Char) : Option Lexeme :=
  let one (token : Token) : Option Lexeme := some { token, length := 1 }
  let orWithEqual (single : Option Lexeme) (token : Token) : Option Lexeme :=
    if next = some '=' then some { token, length := 2 } else single
  match c with
  | '=' => orWithEqual (one .assign) .equal
  | '!' => orWithEqual none .notEqual
  | '<' => orWithEqual (one .less) .lessEqual
  | '>' => orWithEqual (one .greater) .greaterEqual
  | '+' => one .plus
  | '-' => one .minus
  | '*' => one .star
  | '/' => one .slash
  | '^' => one .caret
  | '(' => one .leftParen
  | ')' => one .rightParen
  | ',' => one .comma
  | ':' => one .colon
  | _ => none

/-- The lexeme at the head of a text that starts with `c`. -/
def lexeme (c : Char) (rest : List Char) : Lexing Lexeme :=
  if c = '\n' then .ok { token := .newline, length := 1 }
  else if c = '/' ∧ rest.head? = some '/' then .ok (commentLexeme rest.tail)
  else if c = '"' then stringLexeme rest
  else if Numeral.isDigit c then numberLexeme (c :: rest)
  else if Text.startsName c then .ok (nameLexeme (c :: rest))
  else
    match operator? c rest.head? with
    | some lexeme => .ok lexeme
    | none => .error (.unexpected c, 0)

/-- The tokens of a text whose first `inside` characters belong to a lexeme
already read. -/
def scanFrom (inside : Nat) (pos : Pos) : List Char → Except LexError (List Spanned)
  | [] => .ok [{ token := .eof, pos }]
  | c :: rest =>
      match inside with
      | skipped + 1 => scanFrom skipped (pos.after c) rest
      | 0 =>
          if isGap c then scanFrom 0 (pos.after c) rest
          else
            match lexeme c rest with
            | .error (cause, offset) =>
                .error { cause, pos := pos.afterAll ((c :: rest).take offset) }
            | .ok lexeme =>
                (scanFrom (lexeme.length - 1) (pos.after c) rest).map
                  ({ token := lexeme.token, pos } :: ·)

/-- All tokens of a text, comments and line ends included, and an `eof` last. -/
def scan (source : String) : Except LexError (List Spanned) :=
  scanFrom 0 Pos.start source.toList

def withoutTrivia (tokens : List Spanned) : List Spanned :=
  tokens.filter fun spanned => !spanned.token.isTrivia

end Token
end LittleMan
