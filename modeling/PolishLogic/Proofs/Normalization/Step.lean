import PolishLogic.Normalization.Normalize
import PolishLogic.Proofs.Formula.Defect
import PolishLogic.Proofs.Formula.Polarity

/-! # What a step keeps

A rule and a move keep the positive polar form of a formula and the errors that fault it:
`Rule.polar_image`, `Rule.faults_image` for a rule and `Continues` for a move. The negative
polar form is not kept by the rules that make copies: what they put in the place of an
exclusive disjunction is another tree once it is negated. -/

namespace PolishLogic

variable {α : Type} {e : FormulaError}

namespace Rule

variable {rule : Rule} {l r : Formula α}

/-- A rule does not change the normal form. -/
theorem polar_image : (rule.image l r).polar true = (rule.subject l r).polar true := by
  cases rule <;> rfl

theorem faults_subject : e.Faults (rule.subject l r) ↔ e.Faults l ∨ e.Faults r := by
  cases rule with
  | expandImply | expandXor | expandXnor => exact Formula.faults_binary_of_ne (by decide)
  | negateAnd | negateOr | negateImply | negateXor | negateXnor =>
    exact Formula.faults_neg.trans (Formula.faults_binary_of_ne (by decide))

theorem faults_image : e.Faults (rule.image l r) ↔ e.Faults l ∨ e.Faults r := by
  cases rule <;> simp only [image, Formula.faults_disj, Formula.faults_conj,
    Formula.faults_neg, or_self]

theorem faults_of_apply (h : rule.apply l r = .error e) : e.Faults l ∨ e.Faults r :=
  (error_of_apply h).imp Formula.faults_of_duplicate Formula.faults_of_duplicate

/-- No operand is lost in a rule, though some may be copied. -/
theorem mem_leaves_image {d : Formula.Leaf α} :
    d ∈ (rule.image l r).leaves ↔ d ∈ l.leaves ∨ d ∈ r.leaves := by
  cases rule <;> simp only [image, Formula.disj, Formula.conj, Formula.neg, Formula.leaves_unary,
    Formula.leaves_binary, List.mem_append, or_self]

theorem exists_stripNot_subject :
    ∃ odd core, (rule.subject l r).stripNot = .ok (odd, core) := by
  cases rule <;> exact ⟨_, _, rfl⟩

end Rule

namespace Formula

/-- What changes sides at a negation depends on a run of negations as a whole. -/
theorem eq_of_stripNot {γ : Type} {F : Formula α → Bool → γ}
    (hF : ∀ c p, F (unary .not c) p = F c (!p)) {f core : Formula α} {odd : Bool}
    (h : f.stripNot = .ok (odd, core)) (p : Bool) : F f p = F core (p != odd) := by
  induction f generalizing odd core p with
  | hole | const | var | binary => cases h; rw [Bool.bne_false]
  | unary op c ih =>
    obtain ⟨rfl, hc⟩ := stripNot_unary_eq_ok.mp h
    rw [hF, ih hc]
    cases p <;> cases odd <;> rfl

/-- An odd run of negations exchanges the two forms. -/
theorem polar_of_stripNot {f core : Formula α} {odd : Bool} (h : f.stripNot = .ok (odd, core))
    (p : Bool) : f.polar p = core.polar (p != odd) :=
  eq_of_stripNot (fun _ _ => rfl) h p

theorem faults_of_stripNot {f core : Formula α} {odd : Bool} (h : f.stripNot = .ok (odd, core)) :
    e.Faults f ↔ e.Faults core := by
  induction f generalizing odd core with
  | hole | const | var | binary => cases h; exact Iff.rfl
  | unary op c ih =>
    obtain ⟨rfl, hc⟩ := stripNot_unary_eq_ok.mp h
    exact faults_neg.trans (ih hc)

theorem faults_of_stripNot_error {f : Formula α} (h : f.stripNot = .error e) : e.Faults f := by
  induction f with
  | hole | const | var | binary => cases h
  | unary op c ih =>
    cases op with
    | not =>
      cases hc : c.stripNot with
      | error e' =>
        change c.neg.stripNot = _ at h
        rw [stripNot_neg, hc] at h
        cases h
        exact faults_neg.mpr (ih hc)
      | ok p =>
        change c.neg.stripNot = _ at h
        rw [stripNot_neg, hc] at h
        cases h
    | and | or | xor | xnor | imply => cases h; exact faults_of_reports (.inNegations nofun)

section subject

variable {f l r : Formula α} {rule : Rule}

/-- What depends on a run of negations only by its parity is the same for a formula and for the
subject of its rule. -/
theorem eq_of_stripNot_eq {γ : Type} {F : Formula α → Bool → γ}
    (hF : ∀ c p, F (unary .not c) p = F c (!p)) (h : f.stripNot = (rule.subject l r).stripNot)
    (p : Bool) : F f p = F (rule.subject l r) p := by
  obtain ⟨odd, core, hs⟩ := rule.exists_stripNot_subject (l := l) (r := r)
  rw [eq_of_stripNot hF hs, eq_of_stripNot hF (h.trans hs)]

theorem polar_of_stripNot_eq (h : f.stripNot = (rule.subject l r).stripNot) (p : Bool) :
    f.polar p = (rule.subject l r).polar p :=
  eq_of_stripNot_eq (fun _ _ => rfl) h p

theorem faults_of_stripNot_eq (h : f.stripNot = (rule.subject l r).stripNot) :
    e.Faults f ↔ e.Faults l ∨ e.Faults r := by
  obtain ⟨odd, core, hs⟩ := rule.exists_stripNot_subject (l := l) (r := r)
  rw [faults_of_stripNot (h.trans hs), ← faults_of_stripNot hs, Rule.faults_subject]

end subject

/-- Normalization may go on with `g` in the place of `f`. -/
structure Continues (f g : Formula α) : Prop where
  polar : g.polar true = f.polar true
  faults : ∀ e : FormulaError, e.Faults g ↔ e.Faults f

theorem Continues.intact {f g : Formula α} (h : f.Continues g) : g.Intact ↔ f.Intact := by
  simp only [intact_iff_faults, h.faults]

/-- A step keeps the truth value. -/
theorem Continues.eval {f g : Formula α} (h : f.Continues g) (hf : f.Intact) (v : α → Bool) :
    g.eval v = f.eval v := by
  have hvalue := congrArg (Formula.eval v) h.polar
  rwa [eval_polar (h.intact.mpr hf), eval_polar hf, beq_true, beq_true] at hvalue

/-- An even run of negations has no part in the forms or in the defects. -/
theorem continues_of_move_drop {f g : Formula α} (h : f.move = .drop g) : f.Continues g := by
  cases takes_of_move h with
  | drop hs =>
    refine ⟨?_, fun e => (faults_of_stripNot hs).symm⟩
    rw [polar_of_stripNot hs]
    rfl

theorem continues_of_move_rewrite {f g : Formula α} {rule : Rule}
    (h : f.move = .rewrite rule g) : f.Continues g := by
  cases takes_of_move h with
  | rewrite hs hg =>
    rw [Rule.eq_image_of_apply hg]
    refine ⟨?_, fun e => ?_⟩
    · rw [Rule.polar_image, polar_of_stripNot_eq hs]
    · rw [Rule.faults_image, faults_of_stripNot_eq hs]

/-- Normalization stops at literals, which are their own positive polar form. -/
theorem eq_polar_of_move_stop {f g : Formula α} (h : f.move = .stop g) :
    f.Intact ∧ g = f.polar true := by
  cases takes_of_move h with
  | atom ha =>
    cases f with
    | hole | unary | binary => cases ha
    | const | var => exact ⟨trivial, rfl⟩
  | @literal _ core hs ha =>
    rw [intact_iff_faults, polar_of_stripNot hs]
    simp only [faults_of_stripNot hs, ← intact_iff_faults]
    cases core with
    | hole | unary | binary => cases ha
    | const | var => exact ⟨trivial, rfl⟩

/-- Normalization stops with an error only at a defect. -/
theorem faults_of_move_fail {f : Formula α} (h : f.move = .fail e) : e.Faults f := by
  cases takes_of_move h with
  | hole => exact faults_of_reports .hole
  | negations hs => exact faults_of_stripNot_error hs
  | uncopied hs he => exact (faults_of_stripNot_eq hs).mpr (Rule.faults_of_apply he)
  | noExpansion => exact faults_of_reports .noExpansion
  | negatedHole hs => exact (faults_of_stripNot hs).mpr (faults_of_reports .negatedHole)
  | negatedNot hs => exact (faults_of_stripNot hs).mpr (faults_of_reports .negatedNot)

end Formula
end PolishLogic
