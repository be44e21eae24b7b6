import PolishLogic.Conversion
import PolishLogic.Log.Registry

/-! # Consoles

A registry with one logger that is current. Each step answers with the lines it logged and the
state of the current logger, or of the global one as long as none is current. -/

namespace PolishLogic

structure Console where
  registry : Registry
  current : Option Logger
  deriving DecidableEq, Repr

inductive ConsoleStep where
  | get (name : String)
  | create (name : String) (level : Level)
  | setGlobalLevel (level : Level)
  | configure (verbose debug : Bool)
  | setLevel (level : Level)
  | log (level : Level) (message : String)
  /-- Logs an application of a rule, both sides of which are read from text. -/
  | rewrite (rule : String) (before after : Source)
  | conversion (source result : String)
  | state
  deriving DecidableEq, Repr

/-- What a logger shows of itself and of its channel. -/
structure LoggerState where
  name : String
  isDebug : Bool
  level : Level
  handlers : List Level
  propagates : Bool
  isGlobal : Bool
  deriving DecidableEq, Repr

def conversionMessage (source result : String) : String := source ++ " → " ++ result

namespace Console

def empty : Console := ⟨.empty, none⟩

/-- The current logger, which is the global one if none is. -/
def ensure (c : Console) : Logger × Console :=
  match c.current with
  | some g => (g, c)
  | none =>
    let (g, r) := c.registry.getGlobal Registry.defaultName
    (g, ⟨r, some g⟩)

/-- Reads a source while the global logger, made if need be, logs the messages. -/
def read (r : Registry) (source : Source) : List String × Registry × Except ParseError Tree :=
  let (g, r) := r.getGlobal Registry.defaultName
  let run := Tree.parse .debug .empty source
  (run.log.flatMap (r.lines g .debug), r, run.result.map (·.1))

/-- The lines of an applied rule. Nothing is written out unless the logger is debugging. -/
def rewriteLines (r : Registry) (g : Logger) (rule : String) (before after : Formula Variable) :
    Except FormulaError (List String) :=
  if (r.channel g.channel).isDebug then do
    let before ← before.render
    let after ← after.render
    return r.lines g .debug ("    🔁 " ++ rule ++ ": " ++ before ++ " → " ++ after)
  else return []

/-- The lines that a step logs and the console it leaves. -/
def perform (c : Console) : ConsoleStep → Except ConversionError (List String × Console)
  | .get name =>
    let (g, r) := c.registry.getGlobal name
    .ok ([], ⟨r, some g⟩)
  | .create name level =>
    let (g, r) := c.registry.create name level
    .ok ([], ⟨r, some g⟩)
  | .setGlobalLevel level => .ok ([], { c with registry := c.registry.setGlobalLevel level })
  | .configure verbose debug =>
    let level := Registry.levelFor verbose debug
    .ok ([], { c with registry := c.registry.setGlobalLevel level })
  | .setLevel level =>
    let (g, c) := c.ensure
    .ok ([], { c with registry := c.registry.setLevel g level })
  | .log level message =>
    let (g, c) := c.ensure
    .ok (c.registry.lines g level message, c)
  | .rewrite rule before after => do
    let (g, c) := c.ensure
    let (lines₁, r, before) := read c.registry before
    let before ← before.mapError .parse
    let (lines₂, r, after) := read r after
    let after ← after.mapError .parse
    let lines₃ ← (rewriteLines r g rule before.root after.root).mapError .formula
    return (lines₁ ++ lines₂ ++ lines₃, { c with registry := r })
  | .conversion source result =>
    let (g, c) := c.ensure
    .ok (c.registry.lines g .info (conversionMessage source result), c)
  | .state =>
    let (_, c) := c.ensure
    .ok ([], c)

/-- The state of a logger, which is that of its channel but for being the global one. -/
def stateOf (r : Registry) (g : Logger) : LoggerState :=
  let channel := r.channel g.channel
  { name := g.channel
    isDebug := channel.isDebug
    level := channel.level
    handlers := channel.handlers
    propagates := channel.propagates
    isGlobal := r.globalLogger == some g }

/-- The state that is shown after a step. -/
def shown (c : Console) : LoggerState :=
  let g := c.current.getD (c.registry.getGlobal Registry.defaultName).1
  stateOf c.registry g

end Console
end PolishLogic
