import PolishLogic.Conversion

/-! # Blueprints

Instructions for building a formula, children first and the left one before the right. Besides
the checking constructors there are exchanged nodes: a sound node whose connective is then
replaced unchecked. Variables of one name are the same within one scope; a part that is read
from text has variables of its own. -/

namespace PolishLogic

/-- How a formula is to be built. -/
inductive Blueprint where
  | read (source : Source)
  | hole
  | const (value : Bool)
  | var (name : String)
  | unary (op : Connective) (child : Blueprint)
  | binary (op : Connective) (lhs rhs : Blueprint)
  | exchangedUnary (op : Connective) (child : Blueprint)
  | exchangedBinary (op : Connective) (lhs rhs : Blueprint)
  deriving DecidableEq, Repr

/-- The records made so far, and the variables that have a name in this scope. -/
structure Scope where
  store : Store
  named : List Variable

namespace Scope

def empty : Scope := ⟨.empty, []⟩

/-- The variable of a name, made when there is none yet. -/
def intern (s : Scope) (name : String) : Variable × Scope :=
  match s.named.find? (·.name == name) with
  | some x => (x, s)
  | none =>
    let (x, store) := s.store.create name
    (x, ⟨store, x :: s.named⟩)

end Scope

namespace Blueprint

/-- Builds a formula. The first part that is refused ends the whole of it. -/
def build : Blueprint → StateT Scope (Except ConversionError) (Formula Variable)
  | read source => fun s =>
    match (Tree.parse .info s.store source).result with
    | .error e => .error (.parse e)
    | .ok (tree, store) => .ok (tree.root, { s with store := store })
  | hole => pure .hole
  | const b => pure (.const b)
  | var name => fun s =>
    let (x, s) := s.intern name
    .ok (.var x, s)
  | unary op c => do
    let c ← c.build
    liftM ((Formula.mkUnary op c).mapError ConversionError.formula)
  | binary op l r => do
    let l ← l.build
    let r ← r.build
    liftM ((Formula.mkBinary op l r).mapError ConversionError.formula)
  | exchangedUnary op c => do
    let c ← c.build
    return .unary op c
  | exchangedBinary op l r => do
    let l ← l.build
    let r ← r.build
    return .binary op l r

/-- Builds formulas in one scope, so that they share the variables of one name. -/
def buildAll (bs : List Blueprint) :
    StateT Scope (Except ConversionError) (List (Formula Variable)) :=
  bs.mapM build

end Blueprint

namespace Formula

variable {α : Type} [Named α]

/-- For each formula of a list the place of the first one that is alike. -/
def firstAlike (fs : List (Formula α)) : List Nat :=
  fs.map fun f => fs.findIdx f.alike

end Formula
end PolishLogic
