import PolishLogic.Formula.Basic

/-! # Truth values

The value of a formula under an assignment of truth values to its variables. A hole has the
value false, and so does a node whose connective has the wrong arity. -/

namespace PolishLogic

/-- The truth function of a binary connective. -/
def Connective.eval : Connective → Bool → Bool → Bool
  | .not, _, _ => false
  | .and, a, b => a && b
  | .or, a, b => a || b
  | .xor, a, b => a != b
  | .xnor, a, b => a == b
  | .imply, a, b => !a || b

namespace Formula

variable {α β : Type}

def eval (v : α → Bool) : Formula α → Bool
  | hole => false
  | const b => b
  | var x => v x
  | unary op c => op == .not && !c.eval v
  | binary op l r => op.eval (l.eval v) (r.eval v)

@[simp] theorem eval_map (g : α → β) (v : β → Bool) (f : Formula α) :
    (f.map g).eval v = f.eval (v ∘ g) := by
  induction f with
  | hole | const | var => rfl
  | unary op c ih => simp only [map, eval, ih]
  | binary op l r ihl ihr => simp only [map, eval, ihl, ihr]

end Formula
end PolishLogic
