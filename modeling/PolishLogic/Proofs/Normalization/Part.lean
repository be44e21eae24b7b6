import PolishLogic.Proofs.Formula.Ancestors
import PolishLogic.Proofs.Normalization.Duality

/-! # Parts normalized first

Which polarities a part of a formula is normalized with depends on what stands above it: both, if
one of that is an exclusive connective, and otherwise a single one (`Meets`). Another part in its
place leaves the normal form of the whole as it is exactly when the two have the same polar forms
at those (`polar_replaceAt_iff`). For a part and its own normal form that is so unless an exclusive
connective stands in the part and the negative polarity is met (`Formula.toNnf_replaceAt`). -/

namespace PolishLogic

/-- When a node with the connective is normalized with polarity `p`, its child at the step is
normalized with polarity `q`. -/
def Connective.Passes (op : Connective) (step : Char) (p q : Bool) : Prop :=
  op.isExclusive = true ∨ q = (op.turns step != p)

namespace Formula

variable {α : Type}

/-- When a formula is normalized with polarity `p`, the part at the end of the path is normalized
with polarity `q`. -/
def Meets (f : Formula α) (path : List Char) (p q : Bool) : Prop :=
  f.exclusives path ≠ 0 ∨ q = (f.isFlipped path != p)

theorem meets_nil {f : Formula α} {p q : Bool} : f.Meets [] p q ↔ q = p := by
  cases f <;> simp [Meets, exclusives, isFlipped, flips, ancestors]

/-- Below exclusive connectives and at an odd number of flips, parts are met negatively. -/
theorem meets_false_iff {f : Formula α} {path : List Char} :
    f.Meets path true false ↔ ¬ (f.exclusives path = 0 ∧ f.flips path % 2 = 0) := by
  rw [Meets, isFlipped, Decidable.not_and_iff_or_not]
  rcases Nat.mod_two_eq_zero_or_one (f.flips path) with h | h <;> simp [h]

section cons

variable {f c : Formula α} {op : Connective} {step : Char} {path : List Char}
  (h : f.ancestors (step :: path) = (op, step) :: c.ancestors path)

include h

theorem meets_cons {p q : Bool} :
    f.Meets (step :: path) p q ↔ ∃ p', op.Passes step p p' ∧ c.Meets path p' q := by
  unfold Meets Connective.Passes
  rw [exclusives_cons h, isFlipped_cons h]
  cases op.isExclusive with
  | true =>
    refine iff_of_true (.inl (Nat.succ_ne_zero _)) ⟨c.isFlipped path != q, .inl rfl, .inr ?_⟩
    cases c.isFlipped path <;> cases q <;> rfl
  | false =>
    simp only [Bool.false_eq_true, if_false, Nat.add_zero, false_or, exists_eq_left]
    cases op.turns step <;> cases c.isFlipped path <;> cases p <;> rfl

theorem forall_meets_cons {p : Bool} {E : Bool → Prop} :
    (∀ q, f.Meets (step :: path) p q → E q) ↔
      ∀ p', op.Passes step p p' → ∀ q, c.Meets path p' q → E q := by
  simp only [meets_cons h]
  constructor
  · intro hE p' hpass q hmeets
    exact hE q ⟨p', hpass, hmeets⟩
  · rintro hE q ⟨p', hpass, hmeets⟩
    exact hE p' hpass q hmeets

end cons

theorem intact_of_descend {f x : Formula α} {path : List Char} (hf : f.Intact)
    (hx : f.descend path = some x) : x.Intact := by
  fun_induction descend f path with
  | case1 => cases hx; exact hf
  | case2 op c path ih => exact ih hf.2 hx
  | case3 op l r path ih => exact ih hf.2.1 hx
  | case4 op l r path ih => exact ih hf.2.2 hx
  | case5 => cases hx

theorem intact_replaceAt {f g : Formula α} (path : List Char) (hf : f.Intact) (hg : g.Intact) :
    (f.replaceAt path g).Intact := by
  fun_induction replaceAt f path g with
  | case1 => exact hg
  | case2 op c path g ih => exact ⟨hf.1, ih hf.2 hg⟩
  | case3 op l r path g ih => exact ⟨hf.1, ih hf.2.1 hg, hf.2.2⟩
  | case4 op l r path g ih => exact ⟨hf.1, hf.2.1, ih hf.2.2 hg⟩
  | case5 => exact hf

/-- Two forms are equal exactly if those forms of the operands are that the node asks for. -/
theorem polar_binary_eq_iff {op : Connective} (hop : op ≠ .not) {l l' r r' : Formula α}
    {p : Bool} : (binary op l r).polar p = (binary op l' r').polar p ↔
      (∀ q, op.Passes 'l' p q → l.polar q = l'.polar q) ∧
        ∀ q, op.Passes 'r' p q → r.polar q = r'.polar q := by
  cases op with
  | not => exact absurd rfl hop
  | and | or | imply =>
    cases p <;> simp [polar, conj, disj, Connective.Passes, Connective.isExclusive]
  | xor | xnor =>
    cases p <;> simp [polar, conj, disj, Connective.Passes, Connective.isExclusive] <;> tauto

/-- Replacing a part makes no difference exactly if it makes none to the forms of the part that are
met. -/
theorem polar_replaceAt_iff {f x : Formula α} {path : List Char} (hf : f.Intact)
    (hx : f.descend path = some x) (y : Formula α) (p : Bool) :
    (f.replaceAt path y).polar p = f.polar p ↔
      ∀ q, f.Meets path p q → y.polar q = x.polar q := by
  fun_induction descend f path generalizing p with
  | case1 f =>
    cases hx
    simp only [meets_nil, forall_eq, replaceAt]
  | case2 op c path ih =>
    obtain ⟨rfl, hc⟩ := hf
    have hpass : ∀ q, Connective.not.Passes 'c' p q ↔ q = !p := by
      simp [Connective.Passes, Connective.isExclusive]
    rw [forall_meets_cons rfl]
    simp only [hpass, forall_eq]
    exact ih hc hx !p
  | case3 op l r path ih =>
    obtain ⟨hop, hl, -⟩ := hf
    rw [forall_meets_cons rfl, replaceAt, polar_binary_eq_iff hop]
    simp only [ih hl hx, implies_true, and_true]
  | case4 op l r path ih =>
    obtain ⟨hop, -, hr⟩ := hf
    rw [forall_meets_cons rfl, replaceAt, polar_binary_eq_iff hop]
    simp only [ih hr hx, implies_true, true_and]
  | case5 => cases hx

theorem polar_polar_false_iff {x : Formula α} (hx : x.Intact) :
    (x.polar true).polar false = x.polar false ↔ x.Inclusive := by
  have hnormal := normal_polar x true
  have hintact := intact_polar hx true
  have hdual := (polar_not_eq_dual_iff hintact true).mpr (inclusive_of_normal hnormal)
  rw [polar_of_normal hintact hnormal] at hdual
  rw [show (x.polar true).polar false = _ from hdual, eq_comm]
  exact polar_not_eq_dual_iff hx true

/-- Normalizing a part of a formula first changes the normal form of the whole exactly when an
exclusive connective stands in the part and the part is met with the negative polarity. -/
theorem toNnf_replaceAt [Named α] {f x : Formula α} {path : List Char} (hf : f.Intact)
    (hx : f.descend path = some x) :
    ∃ y n n', (∀ level : Level, (x.toNnf level).result = .ok y ∧ (f.toNnf level).result = .ok n ∧
      ((f.replaceAt path y).toNnf level).result = .ok n') ∧
      (n' = n ↔ x.Inclusive ∨ f.exclusives path = 0 ∧ f.flips path % 2 = 0) := by
  have hxi := intact_of_descend hf hx
  have hreplaced := intact_replaceAt path hf (intact_polar hxi true)
  have hpositive : (x.polar true).polar true = x.polar true :=
    polar_of_normal (intact_polar hxi true) (normal_polar x true)
  refine ⟨x.polar true, f.polar true, (f.replaceAt path (x.polar true)).polar true,
    fun level => ⟨result_toNnf_of_intact hxi level, result_toNnf_of_intact hf level,
      result_toNnf_of_intact hreplaced level⟩, ?_⟩
  calc (f.replaceAt path (x.polar true)).polar true = f.polar true
      ↔ ∀ q, f.Meets path true q → (x.polar true).polar q = x.polar q :=
        polar_replaceAt_iff hf hx _ true
    _ ↔ (f.Meets path true false → x.Inclusive) := by
        simp only [Bool.forall_bool, hpositive, polar_polar_false_iff hxi, implies_true, and_true]
    _ ↔ x.Inclusive ∨ f.exclusives path = 0 ∧ f.flips path % 2 = 0 := by
        rw [meets_false_iff, ← or_iff_not_imp_left, or_comm]

/-- The negated implication is copied with both signs, the equivalence stands to the right of an
implication. -/
theorem toNnf_replaceAt_below_imply_and_xor :
    let f : Formula String :=
      binary .imply (binary .xor (var "A") (binary .imply (var "B") (const true)).neg)
        (binary .xnor (var "B") (var "C"))
    f.Intact ∧ ∀ path ∈ [['l', 'r'], ['r']], ∃ x y n n', f.descend path = some x ∧
      (∀ level : Level, (x.toNnf level).result = .ok y ∧ (f.toNnf level).result = .ok n ∧
        ((f.replaceAt path y).toNnf level).result = .ok n') ∧ n' = n := by
  intro f
  have hf : f.Intact := by decide
  have hinclusive : ((binary .imply (var "B") (const true)).neg : Formula String).Inclusive := by
    simp [neg]
  refine ⟨hf, fun path hpath => ?_⟩
  rcases List.mem_pair.mp hpath with rfl | rfl
  · have hx : f.descend ['l', 'r'] = some (binary .imply (var "B") (const true)).neg := rfl
    obtain ⟨y, n, n', hresult, hiff⟩ := toNnf_replaceAt hf hx
    exact ⟨_, y, n, n', hx, hresult, hiff.mpr (.inl hinclusive)⟩
  · have hx : f.descend ['r'] = some (binary .xnor (var "B") (var "C")) := rfl
    obtain ⟨y, n, n', hresult, hiff⟩ := toNnf_replaceAt hf hx
    exact ⟨_, y, n, n', hx, hresult, hiff.mpr (.inr ⟨rfl, rfl⟩)⟩

end Formula
end PolishLogic
