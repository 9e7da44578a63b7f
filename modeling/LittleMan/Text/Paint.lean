/-!
# Terminal colours

A style is a foreground colour with or without bold or faint letters.  On a
terminal with colours a styled text opens with a reset, so that nothing of an
earlier style is left, and is closed by another.
-/

namespace LittleMan

inductive Colour where
  | red
  | green
  | yellow
  | magenta
  | cyan
deriving DecidableEq, Repr

structure Style where
  colour : Option Colour := none
  bold : Bool := false
  faint : Bool := false
deriving DecidableEq, Repr

namespace Style

def code (digits : String) : String :=
  "\x1b[" ++ digits ++ "m"

def reset : String :=
  code "0"

def colourCode : Colour → String
  | .red => code "31"
  | .green => code "32"
  | .yellow => code "33"
  | .magenta => code "35"
  | .cyan => code "36"

def opening (style : Style) : String :=
  reset ++ (if style.bold then code "1" else "") ++ (if style.faint then code "2" else "") ++
    style.colour.elim "" colourCode

/-- A terminal without colours gets the text alone. -/
def paint (colours : Bool) (style : Style) (text : String) : String :=
  if colours then style.opening ++ text ++ reset else text

end Style
end LittleMan
