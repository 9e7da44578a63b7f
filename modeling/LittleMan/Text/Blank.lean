/-!
# Blanks, fields and lines

Blanks are the characters of the Unicode property White_Space.  A field is a
longest run of characters that are not blank.  A line ends at a line feed, and a
carriage return just before the line feed belongs to the ending.
-/

namespace LittleMan
namespace Text

def isBlank (c : Char) : Bool :=
  let n := c.toNat
  (0x09 ≤ n && n ≤ 0x0d) || n == 0x20 || n == 0x85 || n == 0xa0 || n == 0x1680 ||
    (0x2000 ≤ n && n ≤ 0x200a) || n == 0x2028 || n == 0x2029 || n == 0x202f ||
    n == 0x205f || n == 0x3000

def trimLeft (text : List Char) : List Char :=
  text.dropWhile isBlank

def trimRight (text : List Char) : List Char :=
  (text.reverse.dropWhile isBlank).reverse

def trim (text : List Char) : List Char :=
  trimRight (trimLeft text)

def trimmed (text : String) : String :=
  String.ofList (trim text.toList)

/-- The fields of a text, given the field being read, last character first. -/
def fieldsFrom (field : List Char) : List Char → List (List Char)
  | [] => if field.isEmpty then [] else [field.reverse]
  | c :: rest =>
      if isBlank c then
        if field.isEmpty then fieldsFrom [] rest
        else field.reverse :: fieldsFrom [] rest
      else fieldsFrom (c :: field) rest

def fields (text : List Char) : List (List Char) :=
  fieldsFrom [] text

/-- A line read backwards, without the carriage return of its ending. -/
def dropReturn : List Char → List Char
  | '\r' :: line => line
  | line => line

/-- The lines of a text, given the line being read, last character first. -/
def linesFrom (line : List Char) : List Char → List (List Char)
  | [] => if line.isEmpty then [] else [line.reverse]
  | '\n' :: rest => (dropReturn line).reverse :: linesFrom [] rest
  | c :: rest => linesFrom (c :: line) rest

def lines (text : List Char) : List (List Char) :=
  linesFrom [] text

end Text
end LittleMan
