import PolishLogic.Text.Digit
import PolishLogic.Text.Quoted

/-! # Arguments

The grammar of the command line. An argument is an option if it begins with a dash and names
one: in full, by an unambiguous beginning of a long name, or as a group of short names behind
one dash. What follows an equals sign or the short name of an option is attached to it: as its
value, or, if a short name takes none, as further short names. After `--` nothing is an option.
The first argument that is no option is the formula, and those after it, like unknown options,
are not recognized.

Arguments are classified before any of them takes effect; they then take effect in order. -/

namespace PolishLogic
namespace CommandLine

inductive Switch where
  | help | formulaFile | verbose | debug | showVariables
  deriving DecidableEq, Repr

namespace Switch

def all : List Switch := [.help, .formulaFile, .verbose, .debug, .showVariables]

def short? : Switch → Option Char
  | .help => some 'h'
  | .formulaFile => some 'f'
  | .verbose => some 'v'
  | .debug | .showVariables => none

def long : Switch → String
  | .help => "--help"
  | .formulaFile => "--formula-file"
  | .verbose => "--verbose"
  | .debug => "--debug"
  | .showVariables => "--show-variables"

def names (s : Switch) : String :=
  match s.short? with
  | none => s.long
  | some c => "-" ++ c.toString ++ "/" ++ s.long

/-- The formula file is the only option with a value. -/
def takesValue : Switch → Bool
  | .formulaFile => true
  | _ => false

def ofShort? (c : Char) : Option Switch := all.find? (·.short? == some c)

def ofLong? (name : List Char) : Option Switch := all.find? (·.long.toList == name)

/-- The switches whose long name begins with the given characters. -/
def beginningWith (start : List Char) : List Switch :=
  all.filter fun s => start.isPrefixOf s.long.toList

end Switch

/-- An option that was given, with the characters attached to it if there are any: those after
the equals sign, or those after the short name. -/
structure Given where
  switch : Switch
  isShort : Bool
  attached : Option (List Char)
  deriving DecidableEq, Repr

/-- What an argument counts as. -/
inductive Argument where
  | plain (s : String)
  | option (g : Given)
  | unknown (s : String)
  /-- The argument after which there are no options. -/
  | separator
  deriving DecidableEq, Repr

structure Options where
  formula : Option String
  file : Option String
  verbose : Bool
  debug : Bool
  showVariables : Bool
  deriving DecidableEq, Repr

def Options.initial : Options := ⟨.none, .none, false, false, false⟩

/-- Why there are no options to go on with. -/
inductive Refusal where
  | help
  | usage (message : String)
  /-- The path of the formula file is `--`, which never counts as a value. -/
  | noPath
  deriving DecidableEq, Repr

/-- The characters before the first equals sign, and those after it if there is one. -/
def splitEquals (cs : List Char) : List Char × Option (List Char) :=
  match cs.dropWhile (· != '=') with
  | [] => (cs, none)
  | _ :: value => (cs.takeWhile (· != '='), some value)

/-- The option that an argument names in full, by its short or its long name. -/
def inFull? (name : List Char) (attached : Option (List Char)) : Option Given :=
  match name with
  | ['-', c] => (Switch.ofShort? c).map (⟨·, true, attached⟩)
  | _ => (Switch.ofLong? name).map (⟨·, false, attached⟩)

/-- The options that an argument which names none in full can stand for. -/
def candidates (cs : List Char) : List Given :=
  match cs with
  | '-' :: '-' :: _ =>
    let (start, value) := splitEquals cs
    (Switch.beginningWith start).map (⟨·, false, value⟩)
  | '-' :: c :: value => ((Switch.ofShort? c).map (⟨·, true, some value⟩)).toList
  | _ => []

/-- What an argument before `--` counts as. One that names no option is plain if it is a negative
number or has a space in it. -/
def classify (s : String) : Except Refusal Argument :=
  let cs := s.toList
  if cs.head? != some '-' || cs == ['-'] then .ok (.plain s)
  else
    let (name, value) := splitEquals cs
    match (inFull? cs none).or (value.bind fun v => inFull? name (some v)) with
    | some g => .ok (.option g)
    | none =>
      match candidates cs with
      | [g] => .ok (.option g)
      | [] =>
        if isNegativeNumber cs || cs.contains ' ' then .ok (.plain s) else .ok (.unknown s)
      | gs =>
        let names := ", ".intercalate (gs.map (·.switch.long))
        .error (.usage ("ambiguous option: " ++ s ++ " could match " ++ names))

/-- Classifies arguments up to `--`, after which all are plain. -/
def classifyAll : List String → Except Refusal (List Argument)
  | [] => .ok []
  | "--" :: rest => .ok (.separator :: rest.map .plain)
  | s :: rest => do
    let a ← classify s
    let rest ← classifyAll rest
    return a :: rest

def wrongValue (s : Switch) (value : List Char) : Refusal :=
  .usage ("argument " ++ s.names ++ ": ignored explicit argument " ++ quote (String.ofList value))

def missingValue (s : Switch) : Refusal :=
  .usage ("argument " ++ s.names ++ ": expected one argument")

/-- A group of options behind one dash, taken apart. -/
inductive Group where
  | flags (flags : List Switch)
  | value (flags : List Switch) (last : Switch) (value : String)
  /-- The last option needs the next argument as its value. -/
  | awaiting (flags : List Switch) (last : Switch)
  deriving DecidableEq, Repr

def Group.cons (s : Switch) : Group → Group
  | .flags fs => .flags (s :: fs)
  | .value fs last v => .value (s :: fs) last v
  | .awaiting fs last => .awaiting (s :: fs) last

/-- A group of one option to which nothing is attached. -/
def Group.single (s : Switch) : Group := if s.takesValue then .awaiting [] s else .flags [s]

/-- Takes apart the characters attached to an option. Those attached to a short name that takes no
value have to be short names, of which the first that takes a value has the rest for it. -/
def Group.ofAttached (s : Switch) (isShort : Bool) (text : List Char) : Except Refusal Group :=
  if s.takesValue then .ok (.value [] s (String.ofList text))
  else match text with
    | [] => .error (wrongValue s text)
    | c :: rest =>
      match if isShort then Switch.ofShort? c else none with
      | none => .error (wrongValue s text)
      | some t =>
        if rest.isEmpty then .ok ((Group.single t).cons s)
        else (ofAttached t true rest).map (.cons s)

def Given.group (g : Given) : Except Refusal Group :=
  match g.attached with
  | none => .ok (.single g.switch)
  | some text => Group.ofAttached g.switch g.isShort text

/-- The options so far, whether the formula has been given, and what was not recognized. -/
structure Progress where
  options : Options
  formulaGiven : Bool
  unrecognized : List String
  deriving DecidableEq, Repr

namespace Progress

def start : Progress := ⟨.initial, false, []⟩

/-- The effect of an option that stands without a value. -/
def flag (p : Progress) : Switch → Except Refusal Progress
  | .help => .error .help
  | .formulaFile => .ok p
  | .verbose => .ok { p with options := { p.options with verbose := true } }
  | .debug => .ok { p with options := { p.options with debug := true } }
  | .showVariables => .ok { p with options := { p.options with showVariables := true } }

def flags (p : Progress) (fs : List Switch) : Except Refusal Progress := fs.foldlM flag p

def value (p : Progress) (_ : Switch) (v : String) : Progress :=
  { p with options := { p.options with file := some v } }

def formula (p : Progress) (s : String) : Progress :=
  { p with options := { p.options with formula := some s }, formulaGiven := true }

def extra (p : Progress) (s : String) : Progress :=
  { p with unrecognized := p.unrecognized ++ [s] }

/-- Lets arguments take effect. The separator counts for nothing if the formula stands right
before it or is still to come. -/
def take (p : Progress) : List Argument → Except Refusal Progress
  | [] => .ok p
  | .plain s :: .separator :: rest =>
    if p.formulaGiven then ((p.extra s).extra "--").take rest else (p.formula s).take rest
  | .plain s :: rest =>
    if p.formulaGiven then (p.extra s).take rest else (p.formula s).take rest
  | .separator :: rest => if p.formulaGiven then (p.extra "--").take rest else p.take rest
  | .unknown s :: rest => (p.extra s).take rest
  | .option g :: rest => do
    match ← g.group with
    | .flags fs => (← p.flags fs).take rest
    | .value fs last v => ((← p.flags fs).value last v).take rest
    | .awaiting fs last =>
      match rest with
      | .plain v :: rest => ((← p.flags fs).value last v).take rest
      | _ => .error (missingValue last)

end Progress

/-- The options that a command line gives. -/
def Options.ofArguments (args : List String) : Except Refusal Options := do
  let args ← classifyAll args
  let p ← Progress.start.take args
  if !p.unrecognized.isEmpty then
    .error (.usage ("unrecognized arguments: " ++ " ".intercalate p.unrecognized))
  else if p.options.file = some "--" then .error .noPath
  else return p.options

end CommandLine
end PolishLogic
