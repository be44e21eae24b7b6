import PolishLogic.Proofs.Formula.Defect
import PolishLogic.Proofs.Formula.Polarity

/-! # Formulas in normal form

`Normal` looks at every part of a formula. It agrees with the check by a worklist
(`normal_iff_isNnf`), every normal form computed by polarity has it (`normal_polar`), and the
formulas that have it are those which that computation does not change
(`polar_alike_iff_normal`). `Inclusive` asks for less: no part has an exclusive connective. -/

namespace PolishLogic
namespace Formula

variable {α β : Type}

/-- What a normal form allows at one node: a negation of an atom, a conjunction or a
disjunction of anything. -/
def NormalNode : Formula α → Prop
  | hole | const _ | var _ => True
  | unary _ c => c.isAtom = true
  | binary op _ _ => op = .and ∨ op = .or

/-- Every node of the formula, wherever it stands, is one of a negation normal form. -/
def Normal (f : Formula α) : Prop := ∀ d, f.HasPart d → d.NormalNode

theorem isMonotone_iff {op : Connective} : op.isMonotone = true ↔ op = .and ∨ op = .or := by
  cases op <;> decide

theorem normal_of_isAtom {f : Formula α} (ha : f.isAtom) : f.Normal := by
  intro d hd
  rw [eq_of_hasPart_of_isAtom ha hd]
  cases f with
  | hole | unary | binary => cases ha
  | const | var => trivial

theorem normal_unary {op : Connective} {c : Formula α} :
    (unary op c).Normal ↔ c.isAtom = true := by
  constructor
  · intro h
    exact h _ (hasPart_self _)
  · intro ha d hd
    rcases hasPart_unary.mp hd with rfl | hd
    · exact ha
    · exact normal_of_isAtom ha d hd

theorem normal_binary {op : Connective} {l r : Formula α} :
    (binary op l r).Normal ↔ (op = .and ∨ op = .or) ∧ l.Normal ∧ r.Normal := by
  simp only [Normal, hasPart_binary, or_imp, forall_and, forall_eq, NormalNode]

/-- The formula has no exclusive connective. -/
def Inclusive (f : Formula α) : Prop :=
  ∀ op l r, f.HasPart (binary op l r) → op ≠ .xor ∧ op ≠ .xnor

section inclusive

variable {op : Connective} {f c l r : Formula α}

theorem inclusive_of_isAtom (ha : f.isAtom = true) : f.Inclusive := by
  intro op l r hpart
  rw [← eq_of_hasPart_of_isAtom ha hpart] at ha
  cases ha

@[simp] theorem inclusive_const (b : Bool) : (const b : Formula α).Inclusive :=
  inclusive_of_isAtom rfl

@[simp] theorem inclusive_var (x : α) : (var x).Inclusive := inclusive_of_isAtom rfl

@[simp] theorem inclusive_unary : (unary op c).Inclusive ↔ c.Inclusive := by
  simp only [Inclusive, hasPart_unary, reduceCtorEq, false_or]

@[simp] theorem inclusive_binary :
    (binary op l r).Inclusive ↔ (op ≠ .xor ∧ op ≠ .xnor) ∧ l.Inclusive ∧ r.Inclusive := by
  constructor
  · intro h
    refine ⟨h op l r (hasPart_self _), fun op' l' r' hpart => ?_, fun op' l' r' hpart => ?_⟩
    · exact h op' l' r' (hasPart_binary.mpr (.inr (.inl hpart)))
    · exact h op' l' r' (hasPart_binary.mpr (.inr (.inr hpart)))
  · rintro ⟨hop, hl, hr⟩ op' l' r' hpart
    rcases hasPart_binary.mp hpart with heq | hpart | hpart
    · cases heq; exact hop
    · exact hl op' l' r' hpart
    · exact hr op' l' r' hpart

/-- No XOR and no XNOR is left in a normal form. -/
theorem inclusive_of_normal (h : f.Normal) : f.Inclusive := by
  intro op l r hpart
  rcases h _ hpart with rfl | rfl <;> exact ⟨nofun, nofun⟩

end inclusive

/-- The worklist finds out what `Normal` says of the nodes. -/
theorem normal_iff_isNnf {f : Formula α} : f.Normal ↔ f.isNnf = true := by
  induction f with
  | hole =>
    refine iff_of_true (fun d hd => ?_) isNnf_hole
    rw [hasPart_hole.mp hd]
    trivial
  | const b => exact iff_of_true (normal_of_isAtom rfl) (isNnf_const b)
  | var x => exact iff_of_true (normal_of_isAtom rfl) (isNnf_var x)
  | unary op c => rw [normal_unary, isNnf_unary]
  | binary op l r ihl ihr =>
    rw [normal_binary, isNnf_binary, Bool.and_eq_true, Bool.and_eq_true, ihl, ihr,
      isMonotone_iff, and_assoc]

theorem normal_polar (f : Formula α) (p : Bool) : (f.polar p).Normal :=
  normal_iff_isNnf.mpr (isNnf_polar f p)

/-- A formula in normal form is its own, positively. -/
theorem polar_of_normal {f : Formula α} (hf : f.Intact) (h : f.Normal) : f.polar true = f :=
  polar_of_isNnf hf (normal_iff_isNnf.mp h)

theorem normal_of_alike [Named α] [Named β] {f : Formula α} {g : Formula β} (h : f.alike g)
    (hf : f.Normal) : g.Normal := by
  have h : f.map Named.name = g.map Named.name := beq_iff_eq.mp h
  rw [normal_iff_isNnf, ← isNnf_map Named.name] at hf ⊢
  rw [← h]
  exact hf

/-- Normalization leaves a formula as it is exactly if this is normal. -/
theorem polar_alike_iff_normal [Named α] {f : Formula α} (hf : f.Intact) :
    (f.polar true).alike f = true ↔ f.Normal := by
  constructor
  · intro h
    exact normal_of_alike h (normal_polar f true)
  · intro h
    rw [polar_of_normal hf h]
    exact beq_self_eq_true _

end Formula
end PolishLogic
