import LittleMan.Text.Ranges

/-!
# Letters of names

A name starts with a letter or an underscore and goes on with letters, numbers
and underscores.  Letters are the characters of the Unicode property Alphabetic,
numbers those of the categories Nd, Nl and No.
-/

namespace LittleMan
namespace Text

def isAscii (c : Char) : Bool :=
  c.toNat < 0x80

def isLetter (c : Char) : Bool :=
  if isAscii c then c.isAlpha
  else if c.toNat < 0x10000 then lettersOfFirstPlane.mem c.toNat
  else lettersOfHigherPlanes.mem c.toNat

def isNumber (c : Char) : Bool :=
  if isAscii c then c.isDigit else numbersBeyondAscii.mem c.toNat

def startsName (c : Char) : Bool :=
  isLetter c || c == '_'

def continuesName (c : Char) : Bool :=
  isLetter c || isNumber c || c == '_'

/-- Folds the capital letters of ASCII and leaves every other character. -/
def foldCase (word : List Char) : List Char :=
  word.map Char.toLower

end Text
end LittleMan
