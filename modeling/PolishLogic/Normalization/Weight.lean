import PolishLogic.Normalization.Rule

/-! # Weight

A measure of formulas that every rule lowers, although a rule may copy operands and add
negations: a negation doubles the weight of what it stands above, and a connective that is
expanded pays for all that its expansion consists of (`Rule.weight_apply`). -/

namespace PolishLogic

variable {α : Type}

def Formula.weight : Formula α → Nat
  | .hole | .const _ | .var _ => 1
  | .unary _ c => 2 * c.weight
  | .binary op l r =>
    match op with
    | .imply => 2 * l.weight + 2 * r.weight + 2
    | .xor | .xnor => 3 * l.weight + 3 * r.weight + 4
    | .not | .and | .or => l.weight + r.weight + 1

theorem Formula.weight_pos (f : Formula α) : 0 < f.weight := by
  induction f with
  | hole | const | var => exact Nat.one_pos
  | unary op c ih => exact Nat.mul_pos Nat.two_pos ih
  | binary op l r => cases op <;> exact Nat.succ_pos _

theorem Rule.weight_apply {rule : Rule} {l r f : Formula α} (h : rule.apply l r = .ok f) :
    f.weight < (rule.subject l r).weight := by
  have hl := l.weight_pos
  have hr := r.weight_pos
  rw [eq_image_of_apply h]
  cases rule <;> simp only [image, subject, Formula.weight, Formula.disj, Formula.conj,
    Formula.neg] <;> omega

end PolishLogic
