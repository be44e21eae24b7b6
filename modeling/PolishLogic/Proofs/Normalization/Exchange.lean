import Mathlib.Logic.Relation
import PolishLogic.Proofs.Formula.Position
import PolishLogic.Proofs.Normalization.Run

/-! # Exchanges by hand

A rule that makes no copies may be applied anywhere in a formula, from left to right or from
right to left, and so may the law of double negation and the two that take an exclusive
disjunction for a negated equivalence. No number of such exchanges changes the normal form
(`Formula.toNnf_of_exchanges`). The rules that make copies are not among them: what they put in
the place of an exclusive disjunction has another normal form once it is negated. -/

namespace PolishLogic
namespace Formula

variable {α : Type}

/-- What may be exchanged for what, read from left to right. -/
inductive Exchange : Formula α → Formula α → Prop
  | doubleNegation {f : Formula α} : Exchange f.neg.neg f
  | rule {rule : Rule} {l r g : Formula α} (hr : rule.copies = false)
    (hg : rule.apply l r = .ok g) : Exchange (rule.subject l r) g
  | negatedXor {l r : Formula α} : Exchange (binary .xor l r).neg (binary .xnor l r)
  | negatedXnor {l r : Formula α} : Exchange (binary .xnor l r).neg (binary .xor l r)

/-- One exchange, in either direction, at some position of the formula. -/
def Exchanged (f g : Formula α) : Prop :=
  ∃ path x y, f.descend path = some x ∧ (x.Exchange y ∨ y.Exchange x) ∧ g = f.replaceAt path y

theorem interchangeable_image {rule : Rule} (hr : rule.copies = false) (l r : Formula α) :
    Interchangeable (rule.subject l r) (rule.image l r) := by
  constructor
  · intro p
    cases rule with
    | expandImply | negateAnd | negateOr | negateImply => cases p <;> rfl
    | expandXor | expandXnor | negateXor | negateXnor => cases hr
  · simp only [intact_iff_faults, Rule.faults_subject, Rule.faults_image]

theorem Exchange.interchangeable {x y : Formula α} (h : x.Exchange y) : Interchangeable x y := by
  cases h with
  | doubleNegation =>
    refine ⟨fun p => ?_, ?_⟩
    · show y.polar (!!p) = y.polar p
      rw [Bool.not_not]
    · simp only [intact_iff_faults, faults_neg]
  | rule hr hg =>
    rw [Rule.eq_image_of_apply hg]
    exact interchangeable_image hr _ _
  | negatedXor | negatedXnor =>
    refine ⟨fun p => by cases p <;> rfl, ?_⟩
    simp only [neg, Intact, ne_eq, reduceCtorEq, not_false_eq_true, true_and]

theorem Exchanged.interchangeable {f g : Formula α} (h : f.Exchanged g) :
    Interchangeable f g := by
  obtain ⟨path, x, y, hx, hxy, rfl⟩ := h
  have hxy : Interchangeable x y := by
    rcases hxy with hxy | hyx
    · exact hxy.interchangeable
    · exact hyx.interchangeable.symm
  exact congruence_interchangeable.replaceAt hx hxy

/-- The induction is on the number of exchanges. -/
theorem interchangeable_of_exchanges {f g : Formula α}
    (h : Relation.ReflTransGen Exchanged f g) : Interchangeable f g := by
  induction h with
  | refl => exact congruence_interchangeable.refl f
  | tail _ hstep ih => exact ih.trans hstep.interchangeable

/-- Whatever exchanges are made in an intact formula, wherever and in whatever order, its normal
form stays the same. -/
theorem toNnf_of_exchanges [Named α] {f g : Formula α} (hf : f.Intact)
    (h : Relation.ReflTransGen Exchanged f g) :
    ∃ n, ∀ level : Level, (f.toNnf level).result = .ok n ∧ (g.toNnf level).result = .ok n := by
  have hfg := interchangeable_of_exchanges h
  refine ⟨f.polar true, fun level => ⟨result_toNnf_of_intact hf level, ?_⟩⟩
  rw [result_toNnf_of_intact (hfg.intact.mp hf), hfg.polar]

/-- Three exchanges in a row, at the right operand, at the root and below it. -/
theorem toNnf_of_exchanges_below_xor :
    let f : Formula String := binary .xor (var "A") (binary .imply (var "B") (var "C")).neg
    let g : Formula String := (binary .xnor (var "A") (conj (var "B").neg.neg (var "C").neg)).neg
    f.Intact ∧ Relation.ReflTransGen Exchanged f g ∧
      ∃ n, ∀ level : Level, (f.toNnf level).result = .ok n ∧ (g.toNnf level).result = .ok n := by
  intro f g
  have hf : f.Intact := by decide
  have hrule : (Rule.negateImply.subject (var "B") (var "C")).Exchange
      (conj (var "B") (var "C").neg) := .rule rfl rfl
  have himply : Exchanged f (binary .xor (var "A") (conj (var "B") (var "C").neg)) :=
    ⟨['r'], _, _, rfl, .inl hrule, rfl⟩
  have hxor : Exchanged (binary .xor (var "A") (conj (var "B") (var "C").neg))
      (binary .xnor (var "A") (conj (var "B") (var "C").neg)).neg :=
    ⟨[], _, _, rfl, .inr .negatedXnor, rfl⟩
  have hdouble : Exchanged (binary .xnor (var "A") (conj (var "B") (var "C").neg)).neg g :=
    ⟨['c', 'r', 'l'], var "B", _, rfl, .inr .doubleNegation, rfl⟩
  have hfg : Relation.ReflTransGen Exchanged f g := .head himply (.head hxor (.single hdouble))
  exact ⟨hf, hfg, toNnf_of_exchanges hf hfg⟩

/-- Under a negation the two sides of a rule that makes copies have different normal forms. -/
example :
    let l : Formula String := var "A"
    let r : Formula String := var "B"
    (Rule.expandXor.image l r).neg.polar true ≠ (Rule.expandXor.subject l r).neg.polar true := by
  decide

end Formula
end PolishLogic
