/-!
# Outlines

An outline is a tree whose nodes are a bare word, a constructor with positional
parts, a constructor with named parts, or a list.  It is written over several
lines: every part stands on a line of its own, four spaces deeper than the node
it belongs to, and ends with a comma.  A list without items stays on its line.
-/

namespace LittleMan

inductive Outline where
  | word (text : String)
  | tuple (name : String) (parts : List Outline)
  | record (name : String) (parts : List (String × Outline))
  | list (entries : List Outline)

namespace Outline

/-- An optional part is named whether it is there or not. -/
def ofOption : Option Outline → Outline
  | none => .word "None"
  | some part => .tuple "Some" [part]

def margin (depth : Nat) : String :=
  String.ofList (List.replicate (4 * depth) ' ')

mutual

def renderAt (depth : Nat) : Outline → String
  | .word text => text
  | .tuple name parts =>
      name ++ "(\n" ++ renderLines (depth + 1) parts ++ margin depth ++ ")"
  | .record name parts =>
      name ++ " \x7b\n" ++ renderFields (depth + 1) parts ++ margin depth ++ "\x7d"
  | .list [] => "[]"
  | .list (entry :: entries) =>
      "[\n" ++ renderLines (depth + 1) (entry :: entries) ++ margin depth ++ "]"

def renderLines (depth : Nat) : List Outline → String
  | [] => ""
  | part :: rest =>
      margin depth ++ renderAt depth part ++ ",\n" ++ renderLines depth rest

def renderFields (depth : Nat) : List (String × Outline) → String
  | [] => ""
  | (name, part) :: rest =>
      margin depth ++ name ++ ": " ++ renderAt depth part ++ ",\n" ++
        renderFields depth rest

end

def render (outline : Outline) : String :=
  outline.renderAt 0

end Outline
end LittleMan
