/-!
# What a program may not do

The causes for which a program that reads well is refused, each with its wording
and, where there is one, a hint at the remedy.
-/

namespace LittleMan

inductive CompileError where
  | undefined (name : String)
  | unsupported (construct : String) (hint : Option String)
  | loopMismatch (opening closing : String)
  | outsideLoop (keyword : String)
  | unknownFunction (name : String)
  | arity (name : String) (expected found : Nat)
  | duplicateFunction (name : String) (builtin : Bool)
  | returnOutsideFunction
  | internal (detail : String)
deriving DecidableEq, Repr

namespace CompileError

def hint? : CompileError → Option String
  | .undefined name => some ("assign a value to '" ++ name ++ "' before reading it")
  | .unsupported _ hint => hint
  | .loopMismatch opening _ => some ("close the loop with 'next " ++ opening ++ "'")
  | .outsideLoop _ => some "only while, do...until and for loops can be left early"
  | .unknownFunction _ =>
      some "built-ins are print, input and assert; other names need a function declaration"
  | .duplicateFunction _ true => some "pick a different name for the function"
  | _ => none

def cause : CompileError → String
  | .undefined name => "undefined identifier '" ++ name ++ "'"
  | .unsupported construct _ => "'" ++ construct ++ "' is not supported"
  | .loopMismatch opening closing =>
      "for loop over '" ++ opening ++ "' is closed by 'next " ++ closing ++ "'"
  | .outsideLoop keyword => "'" ++ keyword ++ "' outside of a loop"
  | .unknownFunction name => "unknown function '" ++ name ++ "'"
  | .arity name expected found =>
      "'" ++ name ++ "' takes " ++ toString expected ++ " argument" ++
        (if expected = 1 then "" else "s") ++ " but " ++ toString found ++
        (if found = 1 then " was" else " were") ++ " given"
  | .duplicateFunction name true => "'" ++ name ++ "' is a built-in and cannot be redeclared"
  | .duplicateFunction name false => "function '" ++ name ++ "' is declared more than once"
  | .returnOutsideFunction => "'return' outside of a function"
  | .internal detail => "internal error: " ++ detail

def message (error : CompileError) : String :=
  "compile error: " ++ error.cause ++ error.hint?.elim "" ("\n  hint: " ++ ·)

end CompileError
end LittleMan
