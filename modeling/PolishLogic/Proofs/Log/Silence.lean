import PolishLogic.Proofs.Conversion

/-! # What the log level changes

Nothing but the log: a level below which messages are dropped leaves the results of reading and
of conversion as they are, and above the level of debugging there is no message at all
(`Formula.toNnf_levels`). When a run of normalization is traced, both sides of every rewrite are
written out. That fails on a hole, and a formula without one visits none
(`Formula.hasPart_hole_of_visits`). -/

namespace PolishLogic

namespace Logged

variable {μ ν ε δ α β : Type}

/-- The computation leaves no log, whether it fails or not. -/
def Silent (x : Logged μ ε α) : Prop := x.log = []

theorem silent_pure (a : α) : Silent (pure a : Logged μ ε α) := rfl

theorem silent_fail (e : ε) : Silent (fail e : Logged μ ε α) := rfl

theorem silent_ofExcept (x : Except ε α) : Silent (ofExcept x : Logged μ ε α) := rfl

theorem Silent.bind {x : Logged μ ε α} {f : α → Logged μ ε β} (hx : x.Silent)
    (hf : ∀ a, (f a).Silent) : (x >>= f).Silent := by
  obtain ⟨log, e | a⟩ := x
  · exact hx
  · have hx : log = [] := hx
    have hf : (f a).log = [] := hf a
    show log ++ (f a).log = []
    rw [hx, hf, List.append_nil]

theorem Silent.mapLog {x : Logged μ ε α} (hx : x.Silent) (f : μ → ν) : (x.mapLog f).Silent :=
  List.map_eq_nil_iff.mpr hx

theorem Silent.mapError {x : Logged μ ε α} (hx : x.Silent) (f : ε → δ) :
    (x.mapError f).Silent := hx

end Logged

section note

open Logged

variable {ε : Type} {level : Level}

theorem silent_note (hl : level ≠ .debug) (message : String) :
    (note level message : Logged String ε Unit).Silent := by
  unfold note
  rw [if_neg hl]
  exact silent_pure ()

theorem silent_forM_note (hl : level ≠ .debug) (messages : List String) :
    (messages.forM (note level) : Logged String ε PUnit).Silent := by
  induction messages with
  | nil => exact silent_pure _
  | cons m ms ih => exact (silent_note hl m).bind fun _ => ih

end note

namespace Formula

open Logged

variable {α : Type}

/-! ## Traced runs -/

/-- Normalization comes upon no hole that was not in the formula. -/
theorem hasPart_hole_of_visits {f g : Formula α} (h : f.Visits g) (hg : g.HasPart hole) :
    f.HasPart hole := by
  cases h with
  | lhs hm =>
    obtain ⟨rfl, -⟩ := eq_of_move_keep hm
    exact hasPart_binary.mpr (.inr (.inl hg))
  | rhs hm =>
    obtain ⟨rfl, -⟩ := eq_of_move_keep hm
    exact hasPart_binary.mpr (.inr (.inr hg))
  | drop hm =>
    have hfaults := (continues_of_move_drop hm).faults .hole
    exact hole_faults_iff.mp (hfaults.mp (hole_faults_iff.mpr hg))
  | rewrite hm =>
    have hfaults := (continues_of_move_rewrite hm).faults .hole
    exact hole_faults_iff.mp (hfaults.mp (hole_faults_iff.mpr hg))

/-- Without a hole tracing cannot fail, and so it changes nothing. -/
theorem result_normalize_eq_nnf {f : Formula α} (hf : ¬ f.HasPart hole) (traced : Bool) :
    (f.normalize traced).result = f.nnf := by
  unfold nnf
  induction f using visits_wellFounded.induction with
  | _ f ih =>
    have hvisit : ∀ g, f.Visits g → (g.normalize traced).result = (g.normalize false).result := by
      intro g hg
      exact ih g hg fun hhole => hf (hasPart_hole_of_visits hg hhole)
    cases hm : f.move with
    | stop g => rw [normalize_of_stop hm, normalize_of_stop hm]
    | fail e => rw [normalize_of_fail hm, normalize_of_fail hm]
    | keep op l r =>
      rw [result_normalize_of_keep hm, result_normalize_of_keep hm, hvisit l (.lhs hm),
        hvisit r (.rhs hm)]
    | drop g => rw [normalize_of_drop hm, normalize_of_drop hm, hvisit g (.drop hm)]
    | rewrite rule g =>
      have hg : ¬ g.HasPart hole := fun h => hf (hasPart_hole_of_visits (.rewrite hm) h)
      rw [result_normalize_of_rewrite hm, result_normalize_of_rewrite hm,
        result_logRewrite hf hg, result_logRewrite hf hg, hvisit g (.rewrite hm)]

theorem silent_normalize (f : Formula α) : (f.normalize false).Silent := by
  induction f using visits_wellFounded.induction with
  | _ f ih =>
    cases hm : f.move with
    | stop g => rw [normalize_of_stop hm]; exact silent_pure g
    | fail e => rw [normalize_of_fail hm]; exact silent_fail e
    | keep op l r =>
      rw [normalize_of_keep hm]
      refine (ih l (.lhs hm)).bind fun l' => ?_
      exact (ih r (.rhs hm)).bind fun r' => silent_pure _
    | drop g => rw [normalize_of_drop hm]; exact ih g (.drop hm)
    | rewrite rule g =>
      rw [normalize_of_rewrite hm]
      have hlog : (logRewrite false rule f g).Silent := silent_pure ()
      exact hlog.bind fun _ => ih g (.rewrite hm)

/-! ## Levels -/

theorem result_toNnf_eq_nnf [Named α] {f : Formula α} (hf : ¬ f.HasPart hole) (level : Level) :
    (f.toNnf level).result = f.nnf := by
  rw [result_toNnf, result_normalize_eq_nnf hf]

/-- At every level a hole ends in an error, though not always in the same one. -/
theorem error_of_hasPart_hole [Named α] {f : Formula α} (hf : f.HasPart hole) (level : Level) :
    ∃ e, (f.toNnf level).result = .error e := by
  rw [result_toNnf]
  cases hr : (f.normalize (level == .debug)).result with
  | error e => exact ⟨e, rfl⟩
  | ok g =>
    have hintact := intact_of_normalize hr
    exact absurd (hole_faults_iff.mpr hf) (not_faults_of_intact hintact)

/-- Normalization at any level but `debug` leaves no log. -/
theorem silent_toNnf [Named α] {level : Level} (hl : level ≠ .debug) (f : Formula α) :
    (f.toNnf level).Silent := by
  have htraced : (level == .debug) = false := beq_eq_false_iff_ne.mpr hl
  unfold toNnf
  rw [htraced]
  refine (silent_note hl _).bind fun _ => ?_
  refine ((silent_normalize f).mapLog _).bind fun g => ?_
  exact (silent_note hl _).bind fun _ => silent_pure g

end Formula

namespace Tree

open Logged

variable {level : Level}

theorem silent_parse (hl : level ≠ .debug) (store : Store) (source : Source) :
    (parse level store source).Silent := by
  unfold parse
  refine (silent_note hl _).bind fun _ => (silent_note hl _).bind fun _ => ?_
  cases source.read with
  | error e => exact (silent_forM_note hl _).bind fun _ => silent_fail e
  | ok f => exact (silent_note hl _).bind fun _ => (silent_note hl _).bind fun _ => silent_pure _

theorem silent_parseNnf (hl : level ≠ .debug) (store : Store) (source : Source) :
    (parseNnf level store source).Silent := by
  unfold parseNnf
  refine (silent_note hl _).bind fun _ => ?_
  refine ((silent_parse hl store source).mapError _).bind fun (tree, final) => ?_
  refine (silent_note hl _).bind fun _ => ?_
  refine ((Formula.silent_toNnf hl tree.root).mapError _).bind fun root => ?_
  refine (silent_ofExcept _).bind fun text => ?_
  exact (silent_note hl _).bind fun _ => silent_pure _

theorem silent_normalForm (hl : level ≠ .debug) (source : Source) :
    (normalForm level source).Silent := by
  unfold normalForm
  exact (silent_parseNnf hl .empty source).bind fun (tree, final) => silent_ofExcept _

/-- What is read has no hole, so that the levels make no difference. -/
theorem result_normalForm (level level' : Level) (source : Source) :
    (normalForm level source).result = (normalForm level' source).result := by
  unfold normalForm
  rw [result_bind, result_bind, result_parseNnf, result_parseNnf]

end Tree

namespace Formula

/-- Conversion comes to the same at any two levels, with a formula or with an error, if no node
is missing, and it fails at every level if one is. What is read comes to the same whatever it
is. At the levels above debugging nothing is logged. -/
theorem toNnf_levels {α : Type} [Named α] :
    (∀ {f : Formula α}, ¬ f.HasPart hole → ∀ level level' : Level,
      (f.toNnf level).result = (f.toNnf level').result) ∧
    (∀ {f : Formula α}, f.HasPart hole → ∀ level : Level,
      ∃ e, (f.toNnf level).result = .error e) ∧
    (∀ (source : Source) (store : Store) (level level' : Level),
      (Tree.parse level store source).result = (Tree.parse level' store source).result ∧
        (Tree.parseNnf level store source).result = (Tree.parseNnf level' store source).result ∧
          (normalForm level source).result = (normalForm level' source).result) ∧
    (∀ {level : Level}, level ≠ .debug → (∀ f : Formula α, (f.toNnf level).log = []) ∧
      ∀ (source : Source) (store : Store), (Tree.parse level store source).log = [] ∧
        (Tree.parseNnf level store source).log = [] ∧ (normalForm level source).log = []) := by
  refine ⟨?_, fun hf level => error_of_hasPart_hole hf level, ?_, ?_⟩
  · intro f hf level level'
    rw [result_toNnf_eq_nnf hf, result_toNnf_eq_nnf hf]
  · intro source store level level'
    refine ⟨?_, ?_, Tree.result_normalForm level level' source⟩
    · rw [Tree.result_parse, Tree.result_parse]
    · rw [Tree.result_parseNnf, Tree.result_parseNnf]
  · intro level hl
    refine ⟨silent_toNnf hl, fun source store => ⟨Tree.silent_parse hl store source, ?_, ?_⟩⟩
    · exact Tree.silent_parseNnf hl store source
    · exact Tree.silent_normalForm hl source

/-- A defect other than a hole, a hole, and a formula without either. -/
theorem toNnf_levels_wrong_connective_and_hole :
    (let f : Formula String := (binary .xor (unary .and (var "A")) (var "B")).neg
     ¬ f.HasPart hole ∧ (f.toNnf .debug).result = (f.toNnf .error).result) ∧
    (let f : Formula String := binary .xor (var "A") (conj hole (var "B"))
     f.HasPart hole ∧ ∃ e, (f.toNnf .warning).result = .error e) ∧
    (let f : Formula String := binary .imply (var "A") (var "B")
     Level.info ≠ .debug ∧ (f.toNnf .info).log = [] ∧
      (Tree.parse .info .empty (.text "AB&&")).log = []) := by
  have hatom : ∀ x : String, ¬ (var x).HasPart hole := by
    intro x h
    exact nomatch eq_of_hasPart_of_isAtom rfl h
  have hwrong : ¬ (binary .xor (unary .and (var "A")) (var "B")).neg.HasPart hole := by
    simp only [neg, hasPart_unary, hasPart_binary, hatom, reduceCtorEq, or_self, not_false_eq_true]
  have hmissing : (binary .xor (var "A") (conj hole (var "B"))).HasPart hole := ⟨['r', 'l'], rfl⟩
  have hlevel : Level.info ≠ .debug := by decide
  have hquiet := (toNnf_levels (α := String)).2.2.2 hlevel
  exact ⟨⟨hwrong, toNnf_levels.1 hwrong .debug .error⟩,
    ⟨hmissing, toNnf_levels.2.1 hmissing .warning⟩,
    hlevel, hquiet.1 _, (hquiet.2 _ _).1⟩

end Formula
end PolishLogic
