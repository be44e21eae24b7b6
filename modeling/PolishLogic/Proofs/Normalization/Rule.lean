import PolishLogic.Proofs.Normalization.Run

/-! # Single rules

What a rule makes of two operands when nothing is normalized after it. It fails only if it copies
its operands and one of them has a defective part (`Rule.exists_error_iff`). Of intact operands it
makes a formula that may go on in the place of the node the rule is for (`Rule.continues_image`):
it has the same value, the same leaves and the same normal form (`Rule.apply_replaces_subject`). -/

namespace PolishLogic
namespace Rule

variable {α : Type} {rule : Rule} {l r : Formula α}

/-- A rule never fails on operands that make sense. -/
theorem apply_of_intact (hl : l.Intact) (hr : r.Intact) (rule : Rule) :
    rule.apply l r = .ok (rule.image l r) := by
  cases h : rule.copies with
  | false => exact apply_of_not_copies h l r
  | true =>
    rw [apply_of_copies h, Formula.duplicate_of_intact hl, Formula.duplicate_of_intact hr]
    rfl

/-- A rule that makes copies fails exactly if an operand has a defect. -/
theorem exists_error_iff (h : rule.copies = true) :
    (∃ e, rule.apply l r = .error e) ↔ ∃ d, (l.HasPart d ∨ r.HasPart d) ∧ d.Defective := by
  constructor
  · rintro ⟨e, he⟩
    rcases faults_of_apply he with ⟨d, hpart, hd⟩ | ⟨d, hpart, hd⟩
    · exact ⟨d, .inl hpart, Formula.defective_of_reports hd⟩
    · exact ⟨d, .inr hpart, Formula.defective_of_reports hd⟩
  · rintro ⟨d, hpart, hd⟩
    cases hl : l.duplicate with
    | error e => exact ⟨e, (apply_eq_error_iff h).mpr (.inl hl)⟩
    | ok l' =>
      have hl := Formula.intact_of_duplicate hl
      cases hr : r.duplicate with
      | error e => exact ⟨e, (apply_eq_error_iff h).mpr (.inr ⟨hl, hr⟩)⟩
      | ok r' =>
        have hr := Formula.intact_of_duplicate hr
        rcases hpart with hpart | hpart
        · exact absurd hd (Formula.intact_iff_part.mp hl d hpart)
        · exact absurd hd (Formula.intact_iff_part.mp hr d hpart)

theorem continues_image : (rule.subject l r).Continues (rule.image l r) :=
  ⟨polar_image, fun _ => faults_image.trans faults_subject.symm⟩

theorem intact_subject (hl : l.Intact) (hr : r.Intact) : (rule.subject l r).Intact := by
  cases rule <;> simp [subject, Formula.neg, Formula.Intact, hl, hr]

/-- Of intact operands every rule makes a formula that has the value of the node the rule is for
and the leaves of both operands, and that is brought to the same normal form as the node. A rule
that copies its operands fails exactly if one of them has a defective part, with the error of
copying the left one if there is one; the other rules never fail. -/
theorem apply_replaces_subject [Named α] (rule : Rule) (l r : Formula α) :
    (l.Intact → r.Intact → ∃ f, rule.apply l r = .ok f ∧
      (∀ v : α → Bool, f.eval v = (rule.subject l r).eval v) ∧
      (∀ d, d ∈ f.leaves ↔ d ∈ l.leaves ∨ d ∈ r.leaves) ∧
      ∀ level level' : Level, ∃ g, (f.toNnf level).result = .ok g ∧
        ((rule.subject l r).toNnf level').result = .ok g) ∧
    (rule.copies = true →
      ((∃ e, rule.apply l r = .error e) ↔ ∃ d, (l.HasPart d ∨ r.HasPart d) ∧ d.Defective) ∧
      (∀ e, l.duplicate = .error e → rule.apply l r = .error e) ∧
      ∀ e, (∀ d, l.HasPart d → ¬ d.Defective) → r.duplicate = .error e →
        rule.apply l r = .error e) ∧
    (rule.copies = false → ∃ f, rule.apply l r = .ok f) := by
  refine ⟨fun hl hr => ?_, fun h => ⟨exists_error_iff h, fun e hl => ?_, fun e hl hr => ?_⟩,
    fun h => ?_⟩
  · have hsubject : (rule.subject l r).Intact := intact_subject hl hr
    have himage := continues_image.intact.mpr hsubject
    refine ⟨rule.image l r, apply_of_intact hl hr rule, continues_image.eval hsubject,
      fun d => mem_leaves_image, fun level level' => ⟨(rule.subject l r).polar true, ?_, ?_⟩⟩
    · rw [Formula.result_toNnf_of_intact himage, polar_image]
    · exact Formula.result_toNnf_of_intact hsubject level'
  · exact (apply_eq_error_iff h).mpr (.inl hl)
  · exact (apply_eq_error_iff h).mpr (.inr ⟨Formula.intact_iff_part.mpr hl, hr⟩)
  · exact ⟨_, apply_of_not_copies h l r⟩

/-- Operands that have exclusive connectives of their own; a defect in both operands, of which the
left one is named although it stands deeper; and defects that are not met. -/
theorem apply_replaces_subject_exclusive_and_defective :
    (let l : Formula String := (Formula.binary .xor (.var "A") (.var "B")).neg
     let r : Formula String := .binary .imply (.const false) (.var "A")
     l.Intact ∧ r.Intact ∧ ∃ f, Rule.negateXnor.apply l r = .ok f ∧
      (∀ v : String → Bool, f.eval v = ((Formula.binary .xnor l r).neg).eval v) ∧
      (∀ d, d ∈ f.leaves ↔ d ∈ l.leaves ∨ d ∈ r.leaves) ∧
      ∃ g, (f.toNnf .debug).result = .ok g ∧
        ((Formula.binary .xnor l r).neg.toNnf .error).result = .ok g) ∧
    (let l : Formula String := .conj (.var "A") (.unary .or (.var "B"))
     let r : Formula String := .hole
     Rule.expandXnor.copies = true ∧ (∃ d, (l.HasPart d ∨ r.HasPart d) ∧ d.Defective) ∧
      l.duplicate = .error (.unaryOf .or) ∧ Rule.expandXnor.apply l r = .error (.unaryOf .or)) ∧
    Rule.negateImply.copies = false ∧
      ∃ f, Rule.negateImply.apply (.hole : Formula String) .hole = .ok f := by
  refine ⟨?_, ?_, rfl, (apply_replaces_subject .negateImply .hole .hole).2.2 rfl⟩
  · intro l r
    have hl : l.Intact := by decide
    have hr : r.Intact := by decide
    obtain ⟨f, hf, heval, hleaves, hnnf⟩ := (apply_replaces_subject .negateXnor l r).1 hl hr
    exact ⟨hl, hr, f, hf, heval, hleaves, hnnf .debug .error⟩
  · intro l r
    obtain ⟨hiff, hleft, -⟩ := (apply_replaces_subject .expandXnor l r).2.1 rfl
    have hcopy : l.duplicate = .error (.unaryOf .or) := rfl
    have herror := hleft _ hcopy
    exact ⟨rfl, hiff.mp ⟨_, herror⟩, hcopy, herror⟩

end Rule
end PolishLogic
