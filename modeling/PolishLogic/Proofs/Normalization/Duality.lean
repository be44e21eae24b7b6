import PolishLogic.Proofs.Normalization.Run

/-! # De Morgan duality

The dual of a normal form has conjunctions and disjunctions exchanged and every literal turned
into the opposite one. Without exclusive connectives the negation of a formula has the dual normal
form, and with one of them anywhere it has not (`polar_not_eq_dual_iff`,
`Formula.toNnf_neg_eq_dual`). -/

namespace PolishLogic

/-- Conjunction for disjunction and the other way round. -/
def Connective.dual : Connective → Connective
  | .and => .or
  | .or => .and
  | op => op

namespace Formula

variable {α : Type}

/-- Exchanges conjunctions and disjunctions and takes the negation off each negated leaf and puts
one above each other leaf, with all operands in their places. -/
def dual : Formula α → Formula α
  | hole => hole
  | const b => (const b).neg
  | var x => (var x).neg
  | unary _ c => c
  | binary op l r => binary op.dual l.dual r.dual

/-- The two polar forms of a formula are dual to each other as long as nothing has to be copied:
the expansion of an exclusive connective is a disjunction at both polarities. -/
theorem polar_not_eq_dual_iff {f : Formula α} (hf : f.Intact) (p : Bool) :
    f.polar (!p) = (f.polar p).dual ↔ f.Inclusive := by
  induction f generalizing p with
  | hole => exact hf.elim
  | const | var => exact iff_of_true (by cases p <;> rfl) (inclusive_of_isAtom rfl)
  | unary op c ih =>
    obtain ⟨rfl, hc⟩ := hf
    exact (ih hc !p).trans inclusive_unary.symm
  | binary op l r ihl ihr =>
    obtain ⟨hop, hl, hr⟩ := hf
    have hlt : l.polar false = (l.polar true).dual ↔ l.Inclusive := ihl hl true
    have hlf : l.polar true = (l.polar false).dual ↔ l.Inclusive := ihl hl false
    have hrt : r.polar false = (r.polar true).dual ↔ r.Inclusive := ihr hr true
    have hrf : r.polar true = (r.polar false).dual ↔ r.Inclusive := ihr hr false
    rw [inclusive_binary]
    cases op with
    | not => exact absurd rfl hop
    | and | or | imply =>
      cases p <;> simp [polar, conj, disj, dual, Connective.dual, hlt, hlf, hrt, hrf]
    | xor | xnor => cases p <;> simp [polar, conj, disj, dual, Connective.dual]

/-- Without exclusive connectives, and only without them, the normal form of the negation of a
formula is the dual of that of the formula. -/
theorem toNnf_neg_eq_dual [Named α] {f : Formula α} (hf : f.Intact) :
    ∃ g g', (∀ level : Level, (f.toNnf level).result = .ok g ∧
      (f.neg.toNnf level).result = .ok g') ∧ (g' = g.dual ↔ f.Inclusive) := by
  refine ⟨f.polar true, f.polar false, fun level => ⟨result_toNnf_of_intact hf level, ?_⟩,
    polar_not_eq_dual_iff hf true⟩
  exact result_toNnf_of_intact (f := f.neg) ⟨rfl, hf⟩ level

/-- An implication with negations on both sides, one of them double. -/
theorem toNnf_neg_eq_dual_imply_of_negations :
    let f : Formula String :=
      binary .imply (conj (var "A") (const true).neg) (disj (var "B") (var "A").neg.neg).neg
    f.Intact ∧ f.Inclusive ∧ ∃ g g', (∀ level : Level, (f.toNnf level).result = .ok g ∧
      (f.neg.toNnf level).result = .ok g') ∧ g' = g.dual := by
  intro f
  have hf : f.Intact := by decide
  have hinclusive : f.Inclusive := by simp [f, neg, conj, disj]
  obtain ⟨g, g', hresult, hdual⟩ := toNnf_neg_eq_dual hf
  exact ⟨hf, hinclusive, g, g', hresult, hdual.mpr hinclusive⟩

end Formula
end PolishLogic
