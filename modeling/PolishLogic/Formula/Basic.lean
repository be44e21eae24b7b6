import PolishLogic.Connective
import PolishLogic.Letter

/-! # Formulas

Trees over the six connectives whose leaves are constants and variables of any type `α`:
letters, records, names or positions. `map` relabels the leaves and `bind` puts a formula in
the place of each.

A tree need not make sense: `hole` is a node without content, and a node may carry a
connective of the wrong arity. `Intact` holds of the trees that do make sense. -/

namespace PolishLogic

/-- Trees of nodes. Any connective can stand at a node, whatever its number of operands. -/
inductive Formula (α : Type) where
  | hole
  | const (value : Bool)
  | var (x : α)
  | unary (op : Connective) (child : Formula α)
  | binary (op : Connective) (lhs rhs : Formula α)
  deriving DecidableEq, Repr

inductive Kind where
  | hole | const | var | unary | binary
  deriving DecidableEq, Repr

/-- The name of a kind of node, as messages show it. -/
def Kind.label : Kind → String
  | .hole => "Node"
  | .const => "Constant"
  | .var => "VariableRef"
  | .unary => "UnaryExpr"
  | .binary => "BinaryExpr"

/-- Things that are written by a name. -/
class Named (α : Type) where
  name : α → String

instance : Named Letter := ⟨Letter.name⟩
instance : Named String := ⟨id⟩

namespace Formula

variable {α β γ : Type}

def kind : Formula α → Kind
  | hole => .hole
  | const _ => .const
  | var _ => .var
  | unary .. => .unary
  | binary .. => .binary

def neg (f : Formula α) : Formula α := unary .not f
def conj (f g : Formula α) : Formula α := binary .and f g
def disj (f g : Formula α) : Formula α := binary .or f g

def map (g : α → β) : Formula α → Formula β
  | hole => hole
  | const b => const b
  | var x => var (g x)
  | unary op c => unary op (c.map g)
  | binary op l r => binary op (l.map g) (r.map g)

/-- Puts `g x` in the place of each variable `x`. -/
def bind (g : α → Formula β) : Formula α → Formula β
  | hole => hole
  | const b => const b
  | var x => g x
  | unary op c => unary op (c.bind g)
  | binary op l r => binary op (l.bind g) (r.bind g)

/-- Relabels the variables from left to right by an effectful function. -/
def mapM {m : Type → Type} [Monad m] (g : α → m β) : Formula α → m (Formula β)
  | hole => pure hole
  | const b => pure (const b)
  | var x => do return var (← g x)
  | unary op c => do return unary op (← c.mapM g)
  | binary op l r => do
    let l ← l.mapM g
    let r ← r.mapM g
    return binary op l r

inductive Leaf (α : Type) where
  | const (value : Bool)
  | var (x : α)
  deriving DecidableEq, Repr

/-- The leaves of a formula from left to right, before those given. -/
def leavesOnto : Formula α → List (Leaf α) → List (Leaf α)
  | hole, rest => rest
  | const b, rest => .const b :: rest
  | var x, rest => .var x :: rest
  | unary _ c, rest => c.leavesOnto rest
  | binary _ l r, rest => l.leavesOnto (r.leavesOnto rest)

def leaves (f : Formula α) : List (Leaf α) := f.leavesOnto []

def isAtom : Formula α → Bool
  | const _ | var _ => true
  | _ => false

/-- Nothing is missing, every unary node is a negation and no binary node is one. -/
def Intact : Formula α → Prop
  | hole => False
  | const _ | var _ => True
  | unary op c => op = .not ∧ c.Intact
  | binary op l r => op ≠ .not ∧ l.Intact ∧ r.Intact

instance decidableIntact : (f : Formula α) → Decidable f.Intact
  | hole => isFalse id
  | const _ | var _ => isTrue trivial
  | unary op c =>
    have := decidableIntact c
    inferInstanceAs (Decidable (op = .not ∧ c.Intact))
  | binary op l r =>
    have := decidableIntact l
    have := decidableIntact r
    inferInstanceAs (Decidable (op ≠ .not ∧ l.Intact ∧ r.Intact))

/-- Two formulas are alike when they differ at most in which things of one name their
variables are. -/
def alike [Named α] [Named β] (f : Formula α) (g : Formula β) : Bool :=
  f.map Named.name == g.map Named.name

@[simp] theorem map_map (g : α → β) (h : β → γ) (f : Formula α) :
    (f.map g).map h = f.map (h ∘ g) := by
  induction f with
  | hole | const | var => rfl
  | unary op c ih => simp only [map, ih]
  | binary op l r ihl ihr => simp only [map, ihl, ihr]

@[simp] theorem kind_map (g : α → β) (f : Formula α) : (f.map g).kind = f.kind := by
  cases f <;> rfl

@[simp] theorem intact_map {g : α → β} {f : Formula α} : (f.map g).Intact ↔ f.Intact := by
  induction f with
  | hole | const | var => exact Iff.rfl
  | unary op c ih => simp only [map, Intact, ih]
  | binary op l r ihl ihr => simp only [map, Intact, ihl, ihr]

theorem leavesOnto_eq (f : Formula α) (rest : List (Leaf α)) :
    f.leavesOnto rest = f.leaves ++ rest := by
  induction f generalizing rest with
  | hole | const | var => rfl
  | unary op c ih => exact ih rest
  | binary op l r ihl ihr =>
    simp only [leaves, leavesOnto]
    rw [ihl, ihr, ihl (r.leavesOnto []), ihr [], List.append_assoc, List.append_nil]

theorem leaves_unary (op : Connective) (c : Formula α) : (unary op c).leaves = c.leaves := rfl

theorem leaves_binary (op : Connective) (l r : Formula α) :
    (binary op l r).leaves = l.leaves ++ r.leaves :=
  leavesOnto_eq l _

theorem var_mem_leaves_map {g : α → β} {f : Formula α} {y : β} :
    Leaf.var y ∈ (f.map g).leaves ↔ ∃ x, Leaf.var x ∈ f.leaves ∧ g x = y := by
  induction f with
  | hole | const => simp [map, leaves, leavesOnto]
  | var x => simp [map, leaves, leavesOnto, eq_comm]
  | unary op c ih => exact ih
  | binary op l r ihl ihr =>
    simp only [map, leaves_binary, List.mem_append, ihl, ihr, or_and_right, exists_or]

end Formula
end PolishLogic
