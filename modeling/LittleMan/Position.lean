/-!
# Positions in a text

Lines and columns count from one, and columns count characters.  The position
after a character is one column further, or the start of the next line if the
character is a line feed.
-/

namespace LittleMan

structure Pos where
  line : Nat := 1
  col : Nat := 1
deriving DecidableEq, Repr

namespace Pos

def start : Pos :=
  { line := 1, col := 1 }

def after (pos : Pos) (c : Char) : Pos :=
  if c = '\n' then { line := pos.line + 1, col := 1 }
  else { pos with col := pos.col + 1 }

def afterAll (pos : Pos) (text : List Char) : Pos :=
  text.foldl after pos

/-- A remark with the place it is about in front. -/
def note (pos : Pos) (remark : String) : String :=
  toString pos.line ++ ":" ++ toString pos.col ++ ": " ++ remark

end Pos

/-- What is wrong and where. -/
structure Located (α : Type) where
  cause : α
  pos : Pos
deriving DecidableEq, Repr

end LittleMan
