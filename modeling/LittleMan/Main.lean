import LittleMan.Command

/-!
# The program

The outer layer of the command line: files, the screen and the keyboard.  What is
written and when follows from `Options.plan`, `Options.beforeStep` and
`Options.afterRun`.
-/

namespace LittleMan

/-- The number of a system error, which may come with its sign turned. -/
def systemCode (code : UInt32) : UInt32 :=
  if code < 0x80000000 then code else 0 - code

def FileError.ofError : IO.Error → FileError
  | .noFileOrDirectory .. => .notFound
  | .inappropriateType _ code _ => if systemCode code = 20 then .notFolder else .isFolder
  | .invalidArgument _ code details =>
      if systemCode code = 36 then .nameTooLong else .other details
  | .permissionDenied .. => .other "Permission denied (os error 13)"
  | error => .other (toString error)

def readSource (path : String) : IO (Except FileError String) := do
  try
    let bytes ← IO.FS.readBinFile path
    return Bytes.text bytes.data.toList
  catch error => return .error (.ofError error)

def writeImage (path : String) (image : Image) : IO (Except FileError Unit) := do
  try
    IO.FS.writeBinFile path { data := image.toBytes.toArray }
    return .ok ()
  catch error => return .error (.ofError error)

/-- A line from the keyboard, or nothing once it is closed. -/
def readLine : IO (Option String) := do
  try
    let line ← (← IO.getStdin).getLine
    return if line.isEmpty then none else some (Text.trimmed line)
  catch _ => return none

/-- Colours are for screens that can show them, unless they are refused. -/
def wantsColours : IO Bool := do
  let terminal ← IO.getEnv "TERM"
  let refused ← IO.getEnv "NO_COLOR"
  return terminal.any (· != "dumb") && refused.isNone

def writeOut (text : String) : IO Unit := do
  IO.print text
  (← IO.getStdout).flush

/-- Writes what a screen shows and gives the code to end with. -/
def Screen.put (screen : Screen) : IO UInt32 := do
  writeOut screen.out
  IO.eprint screen.err
  return screen.exit.toUInt32

/-- A run with somebody at the keyboard. -/
def Options.converse (options : Options) (colours : Bool) :
    Nat → Machine → IO (Ending × Machine)
  | 0, m => return (.unfinished, m)
  | tries + 1, m => do
      IO.eprint (options.beforeStep colours m)
      let m ← if m.asksForLine then m.withKeyboard <$> ([·]) <$> readLine else pure m
      let before := m.output.size
      let (result, next) := m.step
      if let some output := next.output[before]? then writeOut output.text
      match result with
      | .ok .running => options.converse colours tries next
      | .ok status => return (.stopped status, next)
      | .error fault => return (.faulted fault, next)

def Options.execute (options : Options) (colours : Bool) : IO UInt32 := do
  match options.plan colours (← readSource options.file) with
  | .stop screen => screen.put
  | .save screen image path =>
      let _ ← screen.put
      (options.afterSave colours image path (← writeImage path image)).put
  | .run screen image machine =>
      let _ ← screen.put
      let ending ← options.converse colours Machine.stretch machine
      (options.afterRun colours image ending).put

end LittleMan

def main (args : List String) : IO UInt32 := do
  match LittleMan.Options.ofArgs args with
  | .error complaint =>
      IO.eprintln complaint
      return 2
  | .ok options => options.execute (← LittleMan.wantsColours)
