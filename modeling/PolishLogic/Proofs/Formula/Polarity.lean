import PolishLogic.Formula.Checked
import PolishLogic.Formula.NormalForm
import PolishLogic.Formula.Semantics

/-! # Polarity

The negation normal form of a formula, and that of its negation, by one recursion on the
formula that carries a polarity. Main statements: the value (`eval_polar`), the leaves
(`mem_leaves_polar`), the normal form (`isNnf_polar`) and the formulas that are not changed
(`polar_of_isNnf`). -/

namespace PolishLogic
namespace Formula

variable {α β : Type}

/-- The normal form of the formula if `positive`, and otherwise that of its negation. What
makes no sense has none, and a hole stands for it. -/
def polar : Formula α → (positive : Bool) → Formula α
  | hole, _ => hole
  | const b, true => const b
  | const b, false => (const b).neg
  | var x, true => var x
  | var x, false => (var x).neg
  | unary .not c, p => c.polar !p
  | unary _ _, _ => hole
  | binary .and l r, true => conj (l.polar true) (r.polar true)
  | binary .and l r, false => disj (l.polar false) (r.polar false)
  | binary .or l r, true => disj (l.polar true) (r.polar true)
  | binary .or l r, false => conj (l.polar false) (r.polar false)
  | binary .imply l r, true => disj (l.polar false) (r.polar true)
  | binary .imply l r, false => conj (l.polar true) (r.polar false)
  | binary .xor l r, true | binary .xnor l r, false =>
    disj (conj (l.polar false) (r.polar true)) (conj (l.polar true) (r.polar false))
  | binary .xnor l r, true | binary .xor l r, false =>
    disj (conj (l.polar true) (r.polar true)) (conj (l.polar false) (r.polar false))
  | binary .not _ _, _ => hole

/-- The formula or its negation. -/
def signed (f : Formula α) : (positive : Bool) → Formula α
  | true => f
  | false => f.neg

/-- The positive form has the value of the formula, and the negative form has the opposite one. -/
theorem eval_polar {f : Formula α} (hf : f.Intact) (v : α → Bool) (p : Bool) :
    (f.polar p).eval v = (f.eval v == p) := by
  induction f generalizing p with
  | hole => exact hf.elim
  | const b => cases p <;> cases b <;> rfl
  | var x => cases p <;> simp [polar, eval, neg]
  | unary op c ih =>
    obtain ⟨rfl, hc⟩ := hf
    show (c.polar !p).eval v = _
    rw [ih hc]
    cases p <;> simp [eval]
  | binary op l r ihl ihr =>
    obtain ⟨hop, hl, hr⟩ := hf
    cases op with
    | not => exact absurd rfl hop
    | and | or | xor | xnor | imply =>
      cases p <;> simp only [polar, conj, disj, eval, Connective.eval, ihl hl, ihr hr] <;>
        cases l.eval v <;> cases r.eval v <;> rfl

theorem intact_polar {f : Formula α} (hf : f.Intact) (p : Bool) : (f.polar p).Intact := by
  induction f generalizing p with
  | hole => exact hf.elim
  | const | var => cases p <;> simp [polar, neg, Intact]
  | unary op c ih =>
    obtain ⟨rfl, hc⟩ := hf
    exact ih hc _
  | binary op l r ihl ihr =>
    obtain ⟨hop, hl, hr⟩ := hf
    cases op with
    | not => exact absurd rfl hop
    | and | or | xor | xnor | imply =>
      cases p <;> simp [polar, conj, disj, Intact, ihl hl, ihr hr]

/-- Either form is in negation normal form, whether or not the formula makes sense. -/
theorem isNnf_polar (f : Formula α) (p : Bool) : (f.polar p).isNnf = true := by
  induction f generalizing p with
  | hole => exact isNnf_hole
  | const | var => cases p <;> simp [polar, neg, isAtom]
  | unary op c ih =>
    cases op with
    | not => exact ih _
    | and | or | xor | xnor | imply => exact isNnf_hole
  | binary op l r ihl ihr =>
    cases op with
    | not => exact isNnf_hole
    | and | or | xor | xnor | imply =>
      cases p <;> simp [polar, conj, disj, Connective.isMonotone, ihl, ihr]

theorem polar_of_isNnf {f : Formula α} (hf : f.Intact) (h : f.isNnf = true) :
    f.polar true = f := by
  induction f with
  | hole | const | var => rfl
  | unary op c =>
    obtain ⟨rfl, -⟩ := hf
    rw [isNnf_unary] at h
    cases c with
    | const | var => rfl
    | hole | unary | binary => cases h
  | binary op l r ihl ihr =>
    rw [isNnf_binary, Bool.and_eq_true, Bool.and_eq_true] at h
    have hl := ihl hf.2.1 h.1.2
    have hr := ihr hf.2.2 h.2
    cases op with
    | and => show conj (l.polar true) (r.polar true) = _; rw [hl, hr]; rfl
    | or => show disj (l.polar true) (r.polar true) = _; rw [hl, hr]; rfl
    | not | xor | xnor | imply => cases h.1.1

theorem polar_map (g : α → β) (f : Formula α) (p : Bool) :
    (f.map g).polar p = (f.polar p).map g := by
  induction f generalizing p with
  | hole => rfl
  | const | var => cases p <;> rfl
  | unary op c ih =>
    cases op with
    | not => exact ih !p
    | and | or | xor | xnor | imply => rfl
  | binary op l r ihl ihr =>
    cases op with
    | not => rfl
    | and | or | xor | xnor | imply =>
      cases p <;> simp only [map, polar, conj, disj, ihl, ihr]

/-- No operand is lost on the way to a normal form, though some may be copied. -/
theorem mem_leaves_polar {f : Formula α} (hf : f.Intact) (p : Bool) {d : Leaf α} :
    d ∈ (f.polar p).leaves ↔ d ∈ f.leaves := by
  induction f generalizing p with
  | hole => exact hf.elim
  | const | var => cases p <;> rfl
  | unary op c ih =>
    obtain ⟨rfl, hc⟩ := hf
    exact ih hc !p
  | binary op l r ihl ihr =>
    obtain ⟨hop, hl, hr⟩ := hf
    cases op with
    | not => exact absurd rfl hop
    | and | or | xor | xnor | imply =>
      cases p <;> simp only [polar, conj, disj, leaves_binary, List.mem_append, ihl hl, ihr hr,
        or_self]

end Formula
end PolishLogic
