import PolishLogic.Log.Level

/-! # Channels and loggers

A channel has a name, a level and handlers with a level each. A logger stands for a channel;
loggers of one name share it. A message is logged once by each handler, when it passes the
level of the channel and that of the handler.

Making a logger resets the channel: it gets the level given and a single handler of that level,
and passes nothing on. At most one logger is the global one, which is made when it is first
asked for. -/

namespace PolishLogic

/-- A channel with the levels of its handlers. -/
structure Channel where
  level : Level
  handlers : List Level
  propagates : Bool
  deriving DecidableEq, Repr

/-- A logger, told from others of the same channel by its number. -/
structure Logger where
  number : Nat
  channel : String
  deriving DecidableEq, Repr

/-- The channels in use, the number of loggers made so far and the global one. -/
structure Registry where
  channels : List (String × Channel)
  made : Nat
  globalLogger : Option Logger
  deriving DecidableEq, Repr

namespace Channel

/-- A channel that no logger has been made for. -/
def untouched : Channel := ⟨.warning, [], true⟩

/-- What making a logger does to its channel: the handlers are cleared and one is added. -/
def reset (level : Level) (c : Channel) : Channel :=
  let c := { c with level := level, handlers := [] }
  { c with handlers := c.handlers ++ [level], propagates := false }

/-- Sets the level of a channel and of each of its handlers. -/
def setLevel (level : Level) (c : Channel) : Channel :=
  { c with level := level, handlers := c.handlers.map fun _ => level }

/-- The lines a channel logs of a message, one for each handler that lets it pass. -/
def lines (c : Channel) (l : Level) (message : String) : List String :=
  if l.passes c.level then (c.handlers.filter l.passes).map fun _ => l.line message else []

/-- Whether messages for debugging pass the level of the channel. -/
def isDebug (c : Channel) : Bool := Level.debug.passes c.level

end Channel

namespace Registry

def empty : Registry := ⟨[], 0, none⟩

/-- The name of the channel that a name stands for: the empty name stands for the root. -/
def channelName (name : String) : String := if name.isEmpty then "root" else name

/-- The channel of a name, untouched if no logger was made for it. -/
def channel (r : Registry) (name : String) : Channel :=
  (r.channels.lookup name).getD .untouched

def modifyChannel (r : Registry) (name : String) (f : Channel → Channel) : Registry :=
  { r with channels := (name, f (r.channel name)) :: r.channels.filter (·.1 != name) }

/-- Makes a logger, also if its channel has one already, and resets the channel. -/
def create (r : Registry) (name : String) (level : Level) : Logger × Registry :=
  let r := r.modifyChannel (channelName name) (·.reset level)
  (⟨r.made, channelName name⟩, { r with made := r.made + 1 })

/-- The global logger, made under the given name if there is none. -/
def getGlobal (r : Registry) (name : String) : Logger × Registry :=
  match r.globalLogger with
  | some g => (g, r)
  | none =>
    let (g, r) := r.create name .info
    (g, { r with globalLogger := some g })

def defaultName : String := "nega"

def setLevel (r : Registry) (g : Logger) (level : Level) : Registry :=
  r.modifyChannel g.channel (·.setLevel level)

/-- Sets the level of the global logger, made if need be. -/
def setGlobalLevel (r : Registry) (level : Level) : Registry :=
  let (g, r) := r.getGlobal defaultName
  r.setLevel g level

/-- The level that the command line options for verbose and for debugging output ask for. -/
def levelFor (verbose debug : Bool) : Level :=
  if debug then .debug else if verbose then .info else .warning

def lines (r : Registry) (g : Logger) (l : Level) (message : String) : List String :=
  (r.channel g.channel).lines l message

end Registry
end PolishLogic
