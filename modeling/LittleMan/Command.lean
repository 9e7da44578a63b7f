import LittleMan.Assembly.Listing
import LittleMan.Binary.Image
import LittleMan.Command.Folder
import LittleMan.Command.Options
import LittleMan.Journal
import LittleMan.Program.Outline
import LittleMan.Token.Listing

/-!
# The command line

A call names a file of pseudocode or of assembly code.  It shows a stage of the
work and stops there, or saves the image, or runs it.  `Options.plan` carries the
call up to the point where it has to write a file or to run the machine; what is
then put on the screen follows from how the writing or the run came out.

On the screen the output of the program stands on one side, and log lines, prompts
and complaints stand on the other.
-/

namespace LittleMan

structure Screen where
  out : String := ""
  err : String := ""
  exit : Nat := 0
deriving DecidableEq, Repr

namespace Screen

def append (first second : Screen) : Screen where
  out := first.out ++ second.out
  err := first.err ++ second.err
  exit := second.exit

def page (text : String) : Screen :=
  { out := text }

def fail (complaint : String) : Screen :=
  { err := complaint ++ "\n", exit := 1 }

end Screen

/-- What is left to do, after what the screen shows already. -/
inductive Plan where
  | stop (screen : Screen)
  | save (screen : Screen) (image : Image) (path : String)
  | run (screen : Screen) (image : Image) (machine : Machine)

namespace Options

def log (options : Options) (colours : Bool) (records : List Log.Record) : Screen :=
  { err := Log.lines options.threshold colours records }

/-- The front half of the work on pseudocode: the assembly code and what was logged,
or the screen with which the call ends. -/
def frontHalf (options : Options) (colours : Bool) (source : String) :
    Except Screen (String × List Log.Record) :=
  match Token.scan source with
  | .error error => .error (.fail ("Lexer error: " ++ error.message))
  | .ok tokens =>
      if options.tokens then
        .error (.page (Token.listing
          { colours := colours && !options.noColor, inWords := options.pretty } tokens))
      else
        match Program.ofTokens tokens with
        | .error error => .error (.fail ("Parse error: " ++ error.message))
        | .ok program =>
            if options.ast then .error (.page (program.outline.render ++ "\n"))
            else
              match program.compile (!options.noComments) with
              | .error error => .error (.fail error.message)
              | .ok compilation => .ok (compilation.text, [compilation.record])

def assembly (options : Options) (colours : Bool) (source : String) :
    Except Screen (String × List Log.Record) :=
  match Path.extension? options.file with
  | some "pseudo" => options.frontHalf colours source
  | some "lmc" => .ok (source, [])
  | _ => .error (.fail ("expected a .pseudo or .lmc file, got " ++ options.file))

/-- A machine at whose keyboard somebody sits. -/
def machine (options : Options) (image : Image) : Machine :=
  ((image.start options.input { maxSteps := options.maxSteps }).withKeyboard []).listen

def plan (options : Options) (colours : Bool) (source : Except FileError String) : Plan :=
  match source with
  | .error error =>
      .stop (.fail ("Failed to read '" ++ options.file ++ "': " ++ error.message))
  | .ok source =>
      match options.assembly colours source with
      | .error screen => .stop screen
      | .ok (text, records) =>
          let logged := options.log colours records
          if options.asm then .stop (logged.append (.page text))
          else
            match Image.assemble text with
            | .error error => .stop (logged.append (.fail error.message))
            | .ok image =>
                let logged := options.log colours (records ++ [image.record])
                if options.listing then
                  .stop (logged.append
                    (.page (Listing.report image.memory.toList image.labels)))
                else
                  match options.image with
                  | some path => .save logged image path
                  | none => .run logged image (options.machine image)

def afterSave (options : Options) (colours : Bool) (image : Image) (path : String) :
    Except FileError Unit → Screen
  | .error error => .fail ("Failed to write '" ++ path ++ "': " ++ error.message)
  | .ok () =>
      options.log colours [{
        level := .debug
        message := "wrote " ++ toString image.memory.size ++ " words to " ++ path }]

/-- What is written before a step: its trace, and a prompt if it asks for a line. -/
def beforeStep (options : Options) (colours : Bool) (m : Machine) : String :=
  (options.log colours m.stepRecords).err ++ if m.asksForLine then "? " else ""

def afterRun (options : Options) (colours : Bool) (image : Image) :
    Ending × Machine → Screen
  | (.faulted fault, _) => .fail fault.message
  | (.unfinished, _) => .fail PipelineError.unfinished.message
  | (.stopped status, m) =>
      (options.log colours [{
        level := .debug
        message := "executed " ++ toString m.steps ++ " steps" }]).append
        (if status = .awaitingInput then
          .fail "program is waiting for input but stdin is closed"
        else
          match Outcome.ofHalt image.labels m.haltedAt with
          | .assertionFailed address => .fail (assertionMessage address)
          | _ => {})

def typed (stdin : String) : Keyboard :=
  (Text.lines stdin.toList).map fun line => some (String.ofList (Text.trim line))

/-- A run with all that will be typed known beforehand. -/
def play (options : Options) (colours : Bool) (stdin : String) (image : Image) (m : Machine) :
    Screen :=
  let m := m.withKeyboard (typed stdin)
  let asides := Machine.foldStates
    (fun seen m => seen ++ options.beforeStep colours m) Machine.stretch "" m
  let (ending, last) := m.run
  ({ out := last.transcript, err := asides } : Screen).append
    (options.afterRun colours image (ending, last))

def call (options : Options) (colours : Bool) (stdin : String) (folder : Folder) :
    Screen × Folder :=
  match options.plan colours ((folder.read options.file).bind Bytes.text) with
  | .stop screen => (screen, folder)
  | .save screen image path =>
      match folder.write path image.toBytes with
      | .ok folder => (screen.append (options.afterSave colours image path (.ok ())), folder)
      | .error error =>
          (screen.append (options.afterSave colours image path (.error error)), folder)
  | .run screen image machine =>
      (screen.append (options.play colours stdin image machine), folder)

end Options
end LittleMan
