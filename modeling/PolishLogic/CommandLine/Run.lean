import PolishLogic.CommandLine.Arguments
import PolishLogic.CommandLine.Path
import PolishLogic.CommandLine.Usage
import PolishLogic.Log.Console

/-! # Runs of the command line

A run converts one formula: the one in the file given, or else the one given as an argument, or
else the default one. What is logged goes to the output together with the result. The exit code
is 1 if the file cannot be used and 2 if the formula or the command line is refused. A run whose
formula file has no path at all breaks off without an exit code, and so does one that comes upon a
tree which does not make sense; no formula that is read leads to such a tree. -/

namespace PolishLogic
namespace CommandLine

structure Outcome where
  exitCode : Nat
  output : String
  errors : String
  deriving DecidableEq, Repr

/-- Why a run breaks off. -/
inductive Fault where
  | noPath
  /-- Normalization or printing met a corrupted tree. -/
  | formula (e : FormulaError)
  deriving DecidableEq, Repr

def Fault.message : Fault → String
  | .noPath => "expected str, bytes or os.PathLike object, not list"
  | .formula e => e.message

/-- What there is at a path: the bytes of a file, or the reason why they cannot be had. -/
abbrev Reader := String → Except FileError (List UInt8)

/-- The formula to convert: that of the file, else the one given, else the default one. -/
def Options.chosenFormula (o : Options) (read : Reader) : Except FileError String :=
  match o.file with
  | none => .ok (o.formula.getD defaultFormula)
  | some path => do
    let bytes ← read path
    formulaOfBytes bytes

/-- The letters of a tree on one line, or a dash if it has none. -/
def lettersLine (t : VariableTable) : String :=
  match t.letters with
  | [] => "-"
  | ls => " ".intercalate (ls.map Letter.name)

/-- The tree of a formula in negation normal form, and its text. -/
def convert (level : Level) (formula : String) : Logged String ConversionError (Tree × String) := do
  let (tree, _) ← Tree.parseNnf level .empty (.text formula)
  let text ← .ofExcept (tree.root.render.mapError .formula)
  return (tree, text)

/-- The exit code and the lines of a run with the given options, and the loggers after it. Only a
formula that is refused counts as an answer; an error of any other kind is not caught. -/
def execute (r : Registry) (o : Options) (read : Reader) :
    Except Fault (Nat × List String × Registry) :=
  let r := r.setGlobalLevel (Registry.levelFor o.verbose o.debug)
  let (g, r) := r.getGlobal Registry.defaultName
  match o.chosenFormula read with
  | .error e => .ok (1, r.lines g .error ("Formula file error: " ++ e.message), r)
  | .ok formula =>
    let run := convert (r.channel g.channel).level formula
    let log := run.log.flatMap (r.lines g .debug)
    match run.result with
    | .error (.parse e) =>
      .ok (2, log ++ r.lines g .error ("Formula parsing error: " ++ e.message), r)
    | .error (.formula e) => .error (.formula e)
    | .ok (tree, text) =>
      let letters := if o.showVariables then [lettersLine tree.table] else []
      .ok (0, log ++ r.lines g .info (conversionMessage formula text) ++ text :: letters, r)

/-- The run of a command line, from its arguments to what is written. -/
def run (r : Registry) (args : List String) (read : Reader) : Except Fault Outcome :=
  match Options.ofArguments args with
  | .error .help => .ok ⟨0, help, ""⟩
  | .error (.usage message) => .ok ⟨2, "", usageError message⟩
  | .error .noPath => .error .noPath
  | .ok o => do
    let (exitCode, lines, _) ← execute r o read
    return ⟨exitCode, joinLines lines, ""⟩

end CommandLine
end PolishLogic
