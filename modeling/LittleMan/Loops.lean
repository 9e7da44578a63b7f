/-!
# Enclosing loops

The loops around a statement, the innermost first.  A `break` or `continue` means
the innermost loop, however many choices stand between the two.
-/

namespace LittleMan

structure LoopLabels where
  label : String
  continueTarget : String
deriving DecidableEq, Repr

def LoopLabels.breakTarget (loop : LoopLabels) : String :=
  loop.label ++ "_end"

structure Loops where
  around : List LoopLabels := []
deriving DecidableEq, Repr

namespace Loops

def enter (loops : Loops) (label continueTarget : String) : Loops :=
  { around := { label, continueTarget } :: loops.around }

def leave (loops : Loops) : Option LoopLabels × Loops :=
  (loops.around.head?, { around := loops.around.tail })

def innermost (loops : Loops) : Option LoopLabels :=
  loops.around.head?

def isEmpty (loops : Loops) : Bool :=
  loops.around.isEmpty

/-- Leaves every loop at once, and lists them from the outermost inwards. -/
def drain (loops : Loops) : List LoopLabels × Loops :=
  (loops.around.reverse, {})

end Loops
end LittleMan
