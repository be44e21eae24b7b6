import PolishLogic.Formula.Basic

/-! # Negation normal form

`isNnf` accepts a formula in which every negation met stands above an atom and every binary
connective met is a conjunction or a disjunction. It takes unary nodes as they are: their
connective is not looked at, and an atom has nothing further to check below it.

The nodes to look at are kept on a worklist. `isNnf_binary` says that what is left on the list
does not matter for the formula at its head. -/

namespace PolishLogic
namespace Formula

variable {α β : Type}

/-- The number of nodes, the measure by which a worklist comes to an end. -/
def size : Formula α → Nat
  | hole | const _ | var _ => 1
  | unary _ c => c.size + 1
  | binary _ l r => l.size + r.size + 1

/-- Checks the formulas of a worklist. The operands of a binary node are put in front of the
others, the right one first. -/
def worklistNnf : List (Formula α) → Bool
  | [] => true
  | .hole :: rest | .const _ :: rest | .var _ :: rest => worklistNnf rest
  | .unary _ c :: rest => c.isAtom && worklistNnf rest
  | .binary op l r :: rest => op.isMonotone && worklistNnf (r :: l :: rest)
termination_by stack => stack.foldr (fun f n => f.size + n) 0
decreasing_by
  all_goals simp only [List.foldr_cons, size]; omega

def isNnf (f : Formula α) : Bool := worklistNnf [f]

theorem worklistNnf_cons (f : Formula α) (rest : List (Formula α)) :
    worklistNnf (f :: rest) = (f.isNnf && worklistNnf rest) := by
  induction f generalizing rest with
  | hole | const | var | unary => simp only [isNnf, worklistNnf, Bool.true_and, Bool.and_true]
  | binary op l r ihl ihr =>
    simp only [isNnf, worklistNnf]
    rw [ihr, ihl, ihr [l], ihl [], worklistNnf]
    simp only [Bool.and_true, Bool.and_assoc]

@[simp] theorem isNnf_hole : (hole : Formula α).isNnf = true := by simp only [isNnf, worklistNnf]

@[simp] theorem isNnf_const (b : Bool) : (const b : Formula α).isNnf = true := by
  simp only [isNnf, worklistNnf]

@[simp] theorem isNnf_var (x : α) : (var x).isNnf = true := by simp only [isNnf, worklistNnf]

@[simp] theorem isNnf_unary (op : Connective) (c : Formula α) :
    (unary op c).isNnf = c.isAtom := by
  simp only [isNnf, worklistNnf, Bool.and_true]

@[simp] theorem isNnf_binary (op : Connective) (l r : Formula α) :
    (binary op l r).isNnf = (op.isMonotone && l.isNnf && r.isNnf) := by
  rw [isNnf, worklistNnf, worklistNnf_cons, worklistNnf_cons, worklistNnf, Bool.and_true,
    Bool.and_assoc, Bool.and_comm r.isNnf]

@[simp] theorem isAtom_map (g : α → β) (f : Formula α) : (f.map g).isAtom = f.isAtom := by
  cases f <;> rfl

@[simp] theorem isNnf_map (g : α → β) (f : Formula α) : (f.map g).isNnf = f.isNnf := by
  induction f with
  | hole | const | var => simp only [map, isNnf_hole, isNnf_const, isNnf_var]
  | unary op c => simp only [map, isNnf_unary, isAtom_map]
  | binary op l r ihl ihr => simp only [map, isNnf_binary, ihl, ihr]

end Formula
end PolishLogic
