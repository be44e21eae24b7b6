/-! # Log levels

The four levels, the line a message of a given severity is logged as, and the rule that a
message passes a threshold when its severity is at least that of the threshold. -/

namespace PolishLogic

inductive Level where
  | debug | info | warning | error
  deriving DecidableEq, Repr

namespace Level

def all : List Level := [.debug, .info, .warning, .error]

def severity : Level → Nat
  | .debug => 10
  | .info => 20
  | .warning => 30
  | .error => 40

def name : Level → String
  | .debug => "DEBUG"
  | .info => "INFO"
  | .warning => "WARNING"
  | .error => "ERROR"

def ofName? (s : String) : Option Level := all.find? (·.name == s)

def passes (l threshold : Level) : Bool := threshold.severity ≤ l.severity

end Level

/-- The line of a message: bare from the severity of information on, and below it after a mark
in brackets. -/
def logLine (severity : Int) (message : String) : String :=
  if 20 ≤ severity then message
  else if severity = 10 then "[DEBUG] " ++ message
  else if severity = 0 then "[NOTSET] " ++ message
  else "[Level " ++ toString severity ++ "] " ++ message

def Level.line (l : Level) (message : String) : String := logLine l.severity message

/-- Lines of captured text, each ended by a line feed. -/
def joinLines (lines : List String) : String := String.join (lines.map (· ++ "\n"))

end PolishLogic
