import LittleMan.Text.Paint

/-!
# Log records

A record has a level of severity and a message.  A threshold admits the records
that are at least as severe as it is.  Records are written one to a line, with
the level in brackets in front.
-/

namespace LittleMan
namespace Log

inductive Level where
  | error
  | warn
  | info
  | debug
  | trace
deriving DecidableEq, Repr

namespace Level

def all : List Level :=
  [.error, .warn, .info, .debug, .trace]

def name : Level → String
  | .error => "ERROR"
  | .warn => "WARN"
  | .info => "INFO"
  | .debug => "DEBUG"
  | .trace => "TRACE"

/-- How far a level is from the most severe one. -/
def rank : Level → Nat
  | .error => 1
  | .warn => 2
  | .info => 3
  | .debug => 4
  | .trace => 5

def style : Level → Style
  | .error => { colour := some .red, bold := true }
  | .warn => { colour := some .yellow, bold := true }
  | .info => {}
  | .debug | .trace => { faint := true }

end Level

/-- The least severe level that is let through, if any is. -/
abbrev Threshold := Option Level

namespace Threshold

def name (threshold : Threshold) : String :=
  threshold.elim "OFF" Level.name

def admits (threshold : Threshold) (level : Level) : Bool :=
  threshold.any fun least => level.rank ≤ least.rank

end Threshold

structure Record where
  level : Level
  message : String
deriving DecidableEq, Repr

namespace Record

def text (record : Record) : String :=
  record.level.name ++ " " ++ record.message

def line (colours : Bool) (record : Record) : String :=
  record.level.style.paint colours ("[" ++ record.level.name ++ "]") ++ " " ++
    record.message ++ "\n"

end Record

def admitted (threshold : Threshold) (records : List Record) : List Record :=
  records.filter fun record => threshold.admits record.level

def lines (threshold : Threshold) (colours : Bool) (records : List Record) : String :=
  String.join ((admitted threshold records).map (Record.line colours))

/-- Installs a threshold, unless one is installed already. -/
def install? (installed : Option Threshold) (threshold : Threshold) : Option Threshold :=
  match installed with
  | none => some threshold
  | some _ => none

end Log
end LittleMan
