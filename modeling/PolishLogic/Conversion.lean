import PolishLogic.Formula.NormalForm
import PolishLogic.Log.Level
import PolishLogic.Normalization.Normalize
import PolishLogic.Reading.Source
import PolishLogic.Tree

/-! # Conversion

Reading a formula and bringing it to negation normal form, with a log of what is done. All
messages of the log are of level debug, so a run at a higher level leaves none. -/

namespace PolishLogic

/-- What a conversion can fail with: reading, or a formula that makes no sense. -/
inductive ConversionError where
  | parse (e : ParseError)
  | formula (e : FormulaError)
  deriving DecidableEq, Repr

def ConversionError.message : ConversionError → String
  | .parse e => e.message
  | .formula e => e.message

/-- Logs a message for debugging, when the level asks for it. -/
def note {ε : Type} (level : Level) (message : String) : Logged String ε Unit :=
  if level = .debug then .emit message else pure ()

@[simp] theorem result_note {ε : Type} (level : Level) (message : String) :
    (note level message : Logged String ε Unit).result = .ok () := by
  unfold note
  split <;> rfl

/-- What lexing logs about a character that it refuses. -/
def illegalCharacter (c : Char) (position : Nat) : String :=
  "Illegal character '" ++ c.toString ++ "' at position " ++ toString position

/-- The tokens of a lexed text, with a log of the character that is refused. -/
def Lexing.logged (x : Lexing) (level : Level) : Logged String ParseError (List Token) := do
  if let some c := x.refused then note level (illegalCharacter c x.stop)
  .ofExcept x.toExcept

/-- What is logged about an error of reading. -/
def ParseError.notes : ParseError → List String
  | .invalidToken c n => [illegalCharacter c n, "ParseError encountered during formula parsing"]
  | .notText sort => ["Unexpected parsing error: TypeError: " ++ (ParseError.notText sort).message]
  | _ => ["ParseError encountered during formula parsing"]

namespace Tree

/-- Reads a source into a tree. A source that is refused leaves the store as it was. -/
def parse (level : Level) (store : Store) (source : Source) :
    Logged String ParseError (Tree × Store) := do
  note level ("Parsing formula: " ++ source.shown)
  note level ("Building tree from: " ++ source.shown)
  match source.read with
  | .error e =>
    e.notes.forM (note level)
    .fail e
  | .ok f =>
    let (tree, store) := ofFormula f store
    let kind := tree.root.kind.label
    note level ("Built " ++ kind ++ " root with " ++ toString tree.table.entries.length ++
      " variable(s)")
    note level ("Formula parsed successfully into tree with root: " ++ kind)
    return (tree, store)

end Tree

namespace Formula

variable {α : Type} [Named α]

/-- Brings a formula to negation normal form. The rewrites are logged when the level is `debug`. -/
def toNnf (level : Level) (f : Formula α) : Logged String FormulaError (Formula α) := do
  note level ("Starting NNF transformation of " ++ f.kind.label)
  let g ← (f.normalize (level == .debug)).mapLog Rewrite.message
  note level ("NNF transformation complete: " ++ g.kind.label)
  return g

theorem result_toNnf (level : Level) (f : Formula α) :
    (f.toNnf level).result = (f.normalize (level == .debug)).result := by
  simp only [toNnf, Logged.result_bind, result_note, Logged.result_mapLog]
  cases (f.normalize (level == .debug)).result <;> rfl

end Formula

namespace Tree

/-- Reads a source and brings it to negation normal form; the table of variables is kept. -/
def parseNnf (level : Level) (store : Store) (source : Source) :
    Logged String ConversionError (Tree × Store) := do
  note level ("Parsing and transforming formula to NNF: " ++ source.shown)
  let (tree, store) ← (parse level store source).mapError .parse
  note level "Initial parsing completed, beginning NNF transformation"
  let root ← (tree.root.toNnf level).mapError .formula
  let text ← .ofExcept (root.render.mapError .formula)
  note level ("NNF transformation completed, result: " ++ text)
  return (⟨root, tree.table⟩, store)

end Tree

/-- The text of the negation normal form of a source. -/
def normalForm (level : Level) (source : Source) : Logged String ConversionError String := do
  let (tree, _) ← Tree.parseNnf level .empty source
  .ofExcept (tree.root.render.mapError .formula)

end PolishLogic
