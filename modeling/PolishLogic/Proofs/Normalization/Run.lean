import PolishLogic.Conversion
import PolishLogic.Proofs.Formula.Normal
import PolishLogic.Proofs.Normalization.Step

/-! # Runs of normalization

Normalization goes from a formula to those it visits next, and no chain of visits is infinite
(`visits_wellFounded`). By induction along visits, what a step keeps is kept by a run: an
intact formula becomes its positive polar form, traced or not (`result_normalize_of_intact`),
and an error faults the formula (`faults_of_normalize`). -/

namespace PolishLogic
namespace Formula

variable {α : Type}

/-- Normalizing `f` calls for normalizing `g`. -/
inductive Visits : Formula α → Formula α → Prop
  | lhs {f l r : Formula α} {op : Connective} (h : f.move = .keep op l r) : Visits f l
  | rhs {f l r : Formula α} {op : Connective} (h : f.move = .keep op l r) : Visits f r
  | drop {f g : Formula α} (h : f.move = .drop g) : Visits f g
  | rewrite {f g : Formula α} {rule : Rule} (h : f.move = .rewrite rule g) : Visits f g

/-- What normalization goes on with weighs less, so that it comes to an end. -/
theorem weight_lt_of_visits {f g : Formula α} (h : f.Visits g) : g.weight < f.weight := by
  cases h with
  | lhs h => exact (weight_keep h).1
  | rhs h => exact (weight_keep h).2
  | drop h => exact weight_drop h
  | rewrite h => exact weight_rewrite h

/-- There is no endless run of normalization. -/
theorem visits_wellFounded : WellFounded fun g f : Formula α => f.Visits g :=
  Subrelation.wf weight_lt_of_visits (measure weight).wf

/-- Normalization makes no defects. -/
theorem Visits.intact {f g : Formula α} (h : f.Visits g) (hf : f.Intact) : g.Intact := by
  cases h with
  | lhs hm =>
    obtain ⟨rfl, -⟩ := eq_of_move_keep hm
    exact hf.2.1
  | rhs hm =>
    obtain ⟨rfl, -⟩ := eq_of_move_keep hm
    exact hf.2.2
  | drop hm => exact (continues_of_move_drop hm).intact.mpr hf
  | rewrite hm => exact (continues_of_move_rewrite hm).intact.mpr hf

/-- An application of a rule can be logged unless a side has a hole. -/
theorem result_logRewrite {f g : Formula α} (hf : ¬ f.HasPart hole) (hg : ¬ g.HasPart hole)
    (traced : Bool) (rule : Rule) : (logRewrite traced rule f g).result = .ok () := by
  unfold logRewrite
  obtain ⟨v, hv⟩ := exists_word hf
  obtain ⟨w, hw⟩ := exists_word hg
  split
  · rw [hv, hw]; rfl
  · rfl

/-! ## Intact formulas -/

/-- Normalization returns the positive form; the induction is on the formulas visited. -/
theorem result_normalize_of_intact {f : Formula α} (hf : f.Intact) (traced : Bool) :
    (f.normalize traced).result = .ok (f.polar true) := by
  -- Not by induction on `f`: what a rule makes is visited again and is no part of `f`.
  induction f using visits_wellFounded.induction with
  | _ f ih =>
    cases hm : f.move with
    | stop g =>
      rw [normalize_of_stop hm, (eq_polar_of_move_stop hm).2]
      rfl
    | fail e => exact absurd (faults_of_move_fail hm) (not_faults_of_intact hf)
    | keep op l r =>
      obtain ⟨rfl, hop⟩ := eq_of_move_keep hm
      rw [result_normalize_of_keep hm, ih l (.lhs hm) hf.2.1, ih r (.rhs hm) hf.2.2]
      cases op with
      | and | or => rfl
      | not | xor | xnor | imply => cases hop
    | drop g =>
      rw [normalize_of_drop hm, ih g (.drop hm) (Visits.intact (.drop hm) hf),
        (continues_of_move_drop hm).polar]
    | rewrite rule g =>
      have hg := Visits.intact (.rewrite hm) hf
      have hlog := result_logRewrite (not_hasPart_hole_of_intact hf)
        (not_hasPart_hole_of_intact hg)
      rw [result_normalize_of_rewrite hm, hlog, ih g (.rewrite hm) hg,
        (continues_of_move_rewrite hm).polar]
      rfl

theorem result_toNnf_of_intact [Named α] {f : Formula α} (hf : f.Intact) (level : Level) :
    (f.toNnf level).result = .ok (f.polar true) := by
  rw [result_toNnf, result_normalize_of_intact hf]

/-! ## Errors -/

theorem faults_of_logRewrite {f g : Formula α} {traced : Bool} {rule : Rule} {e : FormulaError}
    (h : (logRewrite traced rule f g).result = .error e) : e.Faults f ∨ e.Faults g := by
  unfold logRewrite at h
  split at h
  · rw [Logged.result_bind] at h
    rcases Except.bind_eq_error.mp h with hf | ⟨v, -, h⟩
    · exact .inl (faults_of_word hf)
    rw [Logged.result_bind] at h
    rcases Except.bind_eq_error.mp h with hg | ⟨w, -, h⟩
    · exact .inr (faults_of_word hg)
    · cases h
  · cases h

/-- An error of normalization is about a part of the formula. -/
theorem faults_of_normalize {f : Formula α} {traced : Bool} {e : FormulaError}
    (h : (f.normalize traced).result = .error e) : e.Faults f := by
  induction f using visits_wellFounded.induction with
  | _ f ih =>
    cases hm : f.move with
    | stop g => rw [normalize_of_stop hm] at h; cases h
    | fail e' =>
      rw [normalize_of_fail hm] at h
      cases h
      exact faults_of_move_fail hm
    | keep op l r =>
      obtain ⟨rfl, -⟩ := eq_of_move_keep hm
      rw [result_normalize_of_keep hm] at h
      refine faults_binary.mpr (.inr ?_)
      rcases Except.bind_eq_error.mp h with hl | ⟨l', -, h⟩
      · exact .inl (ih l (.lhs hm) hl)
      rcases Except.bind_eq_error.mp h with hr | ⟨r', -, h⟩
      · exact .inr (ih r (.rhs hm) hr)
      · cases h
    | drop g =>
      rw [normalize_of_drop hm] at h
      exact ((continues_of_move_drop hm).faults e).mp (ih g (.drop hm) h)
    | rewrite rule g =>
      have hg := (continues_of_move_rewrite hm).faults e
      rw [result_normalize_of_rewrite hm] at h
      rcases Except.bind_eq_error.mp h with hlog | ⟨u, -, h⟩
      · exact (faults_of_logRewrite hlog).elim id hg.mp
      · exact hg.mp (ih g (.rewrite hm) h)

/-- No defect is passed over: a run that succeeds has met every part of the formula. -/
theorem intact_of_normalize {f g : Formula α} {traced : Bool}
    (h : (f.normalize traced).result = .ok g) : f.Intact := by
  induction f using visits_wellFounded.induction generalizing g with
  | _ f ih =>
    cases hm : f.move with
    | stop g' => exact (eq_polar_of_move_stop hm).1
    | fail e => rw [normalize_of_fail hm] at h; cases h
    | keep op l r =>
      obtain ⟨rfl, hop⟩ := eq_of_move_keep hm
      rw [result_normalize_of_keep hm] at h
      obtain ⟨l', hl, h⟩ := Except.bind_eq_ok.mp h
      obtain ⟨r', hr, -⟩ := Except.bind_eq_ok.mp h
      refine ⟨?_, ih l (.lhs hm) hl, ih r (.rhs hm) hr⟩
      rintro rfl
      cases hop
    | drop g' =>
      rw [normalize_of_drop hm] at h
      exact (continues_of_move_drop hm).intact.mp (ih g' (.drop hm) h)
    | rewrite rule g' =>
      rw [result_normalize_of_rewrite hm] at h
      obtain ⟨u, -, h⟩ := Except.bind_eq_ok.mp h
      exact (continues_of_move_rewrite hm).intact.mp (ih g' (.rewrite hm) h)

end Formula
end PolishLogic
