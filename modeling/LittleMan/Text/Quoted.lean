/-!
# Quoted text

A text between double quotes, in which the quote, the backslash and the control
characters are written as escapes.  Four controls have a short escape and the others
are written by number.  Every other character stands for itself.
-/

namespace LittleMan
namespace Text

def isControl (c : Char) : Bool :=
  c.toNat < 0x20 || (0x7f ≤ c.toNat && c.toNat < 0xa0)

def numberedEscape (c : Char) : List Char :=
  "\\u\x7b".toList ++ Nat.toDigits 16 c.toNat ++ "\x7d".toList

def escaped (c : Char) : List Char :=
  match c with
  | '\n' => ['\\', 'n']
  | '\r' => ['\\', 'r']
  | '\t' => ['\\', 't']
  | '\x00' => ['\\', '0']
  | '"' => ['\\', '"']
  | '\\' => ['\\', '\\']
  | c => if isControl c then numberedEscape c else [c]

def quoted (text : String) : String :=
  String.ofList ('"' :: text.toList.flatMap escaped ++ ['"'])

end Text
end LittleMan
