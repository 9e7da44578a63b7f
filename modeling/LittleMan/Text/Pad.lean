/-!
# Fixed-width columns

Widths count characters.  A text that is wider than its column is written whole.
-/

namespace LittleMan
namespace Text

def padRight (width : Nat) (text : String) : String :=
  text ++ String.ofList (List.replicate (width - text.length) ' ')

def zeroPadded (width : Nat) (text : String) : String :=
  String.ofList (List.replicate (width - text.length) '0') ++ text

def column (width n : Nat) : String :=
  zeroPadded width (toString n)

/-- Addresses are written with three digits or more. -/
def address (n : Nat) : String :=
  column 3 n

end Text
end LittleMan
