import LittleMan.Log
import LittleMan.Word

/-!
# Options of the command line

The first argument is the file.  `--input` takes the numbers after it, and the
other options that take something take one argument, or what follows their `=`.
-/

namespace LittleMan

structure Options where
  file : String := ""
  tokens : Bool := false
  noColor : Bool := false
  pretty : Bool := false
  ast : Bool := false
  asm : Bool := false
  listing : Bool := false
  image : Option String := none
  input : List Word := []
  maxSteps : Option Nat := none
  noComments : Bool := false
  verbose : Bool := false
  trace : Bool := false
deriving DecidableEq, Repr

namespace Options

/-- Splits `--name=value` in two. -/
def spread (arg : String) : List String :=
  let name := arg.toList.takeWhile (· != '=')
  match arg.toList.drop name.length with
  | '=' :: value =>
      if "--".toList.isPrefixOf name then [String.ofList name, String.ofList value] else [arg]
  | _ => [arg]

def flag? (options : Options) : String → Option Options
  | "--tokens" => some { options with tokens := true }
  | "--no-color" => some { options with noColor := true }
  | "--pretty" => some { options with pretty := true }
  | "--ast" => some { options with ast := true }
  | "--asm" => some { options with asm := true }
  | "--listing" => some { options with listing := true }
  | "--no-comments" => some { options with noComments := true }
  | "--verbose" | "-v" => some { options with verbose := true }
  | "--trace" => some { options with trace := true }
  | _ => none

/-- What the argument before the next one asks for. -/
inductive Wanted where
  | option
  | image
  | maxSteps
  | input
deriving DecidableEq, Repr

/-- Reads an argument that is an option. -/
def readOption (options : Options) (arg : String) : Except String (Wanted × Options) :=
  match options.flag? arg with
  | some options => .ok (.option, options)
  | none =>
      if arg = "--image" then .ok (.image, options)
      else if arg = "--max-steps" then .ok (.maxSteps, options)
      else if arg = "--input" then .ok (.input, options)
      else .error ("error: unexpected argument '" ++ arg ++ "' found")

def readArg (wanted : Wanted) (options : Options) (arg : String) :
    Except String (Wanted × Options) :=
  match wanted with
  | .option => options.readOption arg
  | .image => .ok (.option, { options with image := some arg })
  | .maxSteps =>
      match Numeral.unsigned? arg.toList with
      | some n => .ok (.option, { options with maxSteps := some n })
      | none => .error ("error: invalid value '" ++ arg ++ "' for '--max-steps <MAX_STEPS>'")
  | .input =>
      match Word.parse? arg with
      | some value => .ok (.input, { options with input := options.input ++ [value] })
      | none => options.readOption arg

def readArgs (wanted : Wanted) (options : Options) : List String → Except String Options
  | [] => .ok options
  | arg :: rest =>
      match readArg wanted options arg with
      | .error error => .error error
      | .ok (wanted, options) => readArgs wanted options rest

def ofArgs : List String → Except String Options
  | [] => .error "error: the following required arguments were not provided:\n  <FILE>"
  | file :: rest => readArgs .option { file } (rest.flatMap spread)

def threshold (options : Options) : Log.Threshold :=
  if options.trace then some .trace
  else if options.verbose then some .debug
  else some .warn

end Options
end LittleMan
