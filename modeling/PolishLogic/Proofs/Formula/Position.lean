import PolishLogic.Proofs.Formula.Polarity
import PolishLogic.Workspace

/-! # Positions

`descend` leads to the part of a formula at a position, and `replaceAt` puts another formula
there. A relation that is a congruence holds of a formula and the one with a related part in it
(`Congruence.replaceAt`). Formulas that agree at both polarities are `Interchangeable`, and so
are any two formulas that differ in such parts only (`congruence_interchangeable`). -/

namespace PolishLogic
namespace Formula

variable {α : Type}

/-- The formula with `g` in the place of the part at the end of a path. A path that leads
nowhere changes nothing. -/
def replaceAt : Formula α → List Char → Formula α → Formula α
  | _, [], g => g
  | unary op c, 'c' :: path, g => unary op (c.replaceAt path g)
  | binary op l r, 'l' :: path, g => binary op (l.replaceAt path g) r
  | binary op l r, 'r' :: path, g => binary op l (r.replaceAt path g)
  | f, _ :: _, _ => f

theorem mem_leaves_of_descend {f g : Formula α} {path : List Char}
    (h : f.descend path = some g) {d : Leaf α} (hd : d ∈ g.leaves) : d ∈ f.leaves := by
  fun_induction descend f path with
  | case1 f =>
    cases h
    exact hd
  | case2 op c path ih => exact ih h
  | case3 op l r path ih =>
    rw [leaves_binary]
    exact List.mem_append_left _ (ih h)
  | case4 op l r path ih =>
    rw [leaves_binary]
    exact List.mem_append_right _ (ih h)
  | case5 => cases h

/-- A relation that may be used inside formulas. -/
structure Congruence (R : Formula α → Formula α → Prop) : Prop where
  refl : ∀ f, R f f
  unary : ∀ {op c c'}, R c c' → R (unary op c) (unary op c')
  binary : ∀ {op l l' r r'}, R l l' → R r r' → R (binary op l r) (binary op l' r')

/-- What can be exchanged at the root can be exchanged at any position; the induction is on the
path. -/
theorem Congruence.replaceAt {R : Formula α → Formula α → Prop} (hR : Congruence R)
    {f x y : Formula α} {path : List Char} (h : f.descend path = some x) (hxy : R x y) :
    R f (f.replaceAt path y) := by
  fun_induction descend f path with
  | case1 f =>
    cases h
    rw [Formula.replaceAt]
    exact hxy
  | case2 op c path ih => exact hR.unary (ih h)
  | case3 op l r path ih => exact hR.binary (ih h) (hR.refl r)
  | case4 op l r path ih => exact hR.binary (hR.refl l) (ih h)
  | case5 => cases h

/-- The two formulas have the same normal form, and so do their negations. -/
structure Interchangeable (f g : Formula α) : Prop where
  polar : ∀ p, f.polar p = g.polar p
  intact : f.Intact ↔ g.Intact

namespace Interchangeable

variable {f g k : Formula α}

theorem symm (h : Interchangeable f g) : Interchangeable g f :=
  ⟨fun p => (h.polar p).symm, h.intact.symm⟩

theorem trans (h : Interchangeable f g) (h' : Interchangeable g k) : Interchangeable f k :=
  ⟨fun p => (h.polar p).trans (h'.polar p), h.intact.trans h'.intact⟩

end Interchangeable

/-- Interchangeable operands make interchangeable formulas. -/
theorem congruence_interchangeable : Congruence (Interchangeable (α := α)) := by
  constructor
  · intro f
    exact ⟨fun _ => rfl, Iff.rfl⟩
  · intro op c c' h
    refine ⟨fun p => ?_, and_congr_right' h.intact⟩
    cases op with
    | not => exact h.polar !p
    | and | or | xor | xnor | imply => rfl
  · intro op l l' r r' hl hr
    refine ⟨fun p => ?_, and_congr_right' (and_congr hl.intact hr.intact)⟩
    cases op with
    | not => rfl
    | and | or | xor | xnor | imply => cases p <;> simp only [Formula.polar, hl.polar, hr.polar]

end Formula
end PolishLogic
