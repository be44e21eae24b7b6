import PolishLogic.Proofs.Normalization.Run

/-! # The negation normal form

What conversion makes of an intact formula: the tree that the recursion by polarity gives
(`toNnf_eq_polar`), which is in normal form and is the formula itself exactly when that is in
normal form already (`toNnf_normal`). -/

namespace PolishLogic
namespace Formula

variable {α : Type} [Named α]

/-- Rewriting and visiting the result again comes to the same as one pass with a polarity. -/
theorem toNnf_eq_polar {f : Formula α} (hf : f.Intact) (level : Level) :
    (f.toNnf level).result = .ok (f.polar true) ∧
      (f.neg.toNnf level).result = .ok (f.polar false) :=
  ⟨result_toNnf_of_intact hf level, result_toNnf_of_intact (f := f.neg) ⟨rfl, hf⟩ level⟩

/-- XOR of a triple negation and an implication, and the negation of it. -/
theorem toNnf_eq_polar_xor_of_negations :
    let f : Formula String :=
      binary .xor (var "A").neg.neg.neg (binary .imply (var "B") (const true))
    f.Intact ∧
      (f.toNnf .debug).result = .ok
        (disj (conj (var "A") (disj (var "B").neg (const true)))
          (conj (var "A").neg (conj (var "B") (const true).neg))) ∧
      (f.neg.toNnf .debug).result = .ok
        (disj (conj (var "A").neg (disj (var "B").neg (const true)))
          (conj (var "A") (conj (var "B") (const true).neg))) :=
  ⟨by decide, toNnf_eq_polar (by decide) .debug⟩

/-- The normal form is normal, and normalizing it again returns it at every level. A formula is left
as it is exactly if it is normal, and this is what `isNnf` checks. -/
theorem toNnf_normal {f : Formula α} (hf : f.Intact) (level : Level) :
    ∃ g, (f.toNnf level).result = .ok g ∧ g.Normal ∧
      (g.alike f = true ↔ f.Normal) ∧ (f.Normal ↔ f.isNnf = true) ∧
      ∀ level', (g.toNnf level').result = .ok g := by
  have hnormal := normal_polar f true
  have hintact := intact_polar hf true
  refine ⟨f.polar true, result_toNnf_of_intact hf level, hnormal, polar_alike_iff_normal hf,
    normal_iff_isNnf, fun level' => ?_⟩
  rw [result_toNnf_of_intact hintact, polar_of_normal hintact hnormal]

/-- A negated implication, which is not in normal form. -/
theorem toNnf_normal_negated_imply :
    let f : Formula String :=
      (binary .imply (var "A").neg.neg (binary .xnor (var "B") (var "A"))).neg
    f.Intact ∧ f.isNnf = false ∧
      ∃ g, (f.toNnf .info).result = .ok g ∧ g.Normal ∧
        (g.alike f = true ↔ f.Normal) ∧ (f.Normal ↔ f.isNnf = true) ∧
        ∀ level', (g.toNnf level').result = .ok g :=
  ⟨by decide, (isNnf_unary _ _).trans rfl, toNnf_normal (by decide) .info⟩

end Formula
end PolishLogic
