import PolishLogic.Proofs.Normalization.Run
import PolishLogic.Proofs.Reading.Binding
import PolishLogic.Proofs.Reading.Stack

/-! # Conversion of what is read

What reading and conversion come to depends on the source and the store alone, not on the log
level (`Tree.result_parse`, `Tree.result_parseNnf`). Main statements: conversion keeps truth
values (`eval_toNnf`), and it ends with a formula exactly when it is given an intact one
(`toNnf_ok_iff_no_defect`). -/

namespace PolishLogic
namespace Tree

theorem result_forM_note {ε : Type} (level : Level) (messages : List String) :
    (messages.forM (note level) : Logged String ε PUnit).result = .ok ⟨⟩ := by
  induction messages with
  | nil => rfl
  | cons m ms ih =>
    show (note level m >>= fun _ => ms.forM (note level)).result = _
    rw [Logged.result_bind, result_note]
    exact ih

theorem result_parse (level : Level) (store : Store) (source : Source) :
    (parse level store source).result = source.read.map (ofFormula · store) := by
  unfold parse
  cases source.read with
  | error e =>
    simp only [Logged.result_bind, result_note, result_forM_note]
    rfl
  | ok f =>
    simp only [Logged.result_bind, result_note]
    rfl

/-- A tree is returned exactly for a source that can be read, whatever the level. -/
theorem parse_eq_ok {level : Level} {store final : Store} {source : Source} {t : Tree} :
    (parse level store source).result = .ok (t, final) ↔
      ∃ f, source.read = .ok f ∧ ofFormula f store = (t, final) := by
  rw [result_parse]
  cases source.read with
  | error e => exact ⟨nofun, nofun⟩
  | ok f => simp [Except.map]

/-- Reading makes only nodes that have the children of their kind. -/
theorem intact_of_parse {level : Level} {store final : Store} {source : Source} {t : Tree}
    (h : (parse level store source).result = .ok (t, final)) : t.root.Intact := by
  obtain ⟨f, hread, ht⟩ := parse_eq_ok.mp h
  have hroot := intact_ofFormula (Source.intact_of_read hread) store
  rw [ht] at hroot
  exact hroot

/-- Of what is read only the root is converted, and neither the conversion nor the writing of
its result can fail. -/
theorem result_parseNnf (level : Level) (store : Store) (source : Source) :
    (parseNnf level store source).result =
      (source.read.mapError .parse).map fun f =>
        let (t, store) := ofFormula f store
        (⟨t.root.polar true, t.table⟩, store) := by
  unfold parseNnf
  simp only [Logged.result_bind, result_note, Logged.result_mapError, result_parse]
  cases hread : source.read with
  | error e => rfl
  | ok f =>
    have hroot := intact_ofFormula (Source.intact_of_read hread) store
    obtain ⟨w, hw⟩ := Formula.exists_word_of_intact (Formula.intact_polar hroot true)
    show (((ofFormula f store).1.root.toNnf level).result.mapError _ >>= _) = _
    rw [Formula.result_toNnf_of_intact hroot]
    show ((((ofFormula f store).1.root.polar true).render).mapError _ >>= _) = _
    rw [Formula.render, hw]
    rfl

/-- The variables of two readings are different, but not their names. -/
theorem eval_ofFormula (f : Formula Letter) (store : Store) (v : String → Bool) :
    (ofFormula f store).1.root.eval (v ∘ Named.name) = f.eval (v ∘ Named.name) := by
  rw [← Formula.eval_map, map_name_ofFormula, Formula.eval_map]

end Tree

namespace Formula

/-- Conversion keeps the value of an intact formula under every assignment, and so the truth
table of every text that is read, where an assignment gives values to names. -/
theorem eval_toNnf :
    (∀ {α : Type} [Named α] {f : Formula α} (level : Level), f.Intact →
      ∃ g, (f.toNnf level).result = .ok g ∧ ∀ v : α → Bool, g.eval v = f.eval v) ∧
    (∀ {level level' : Level} {store store' final : Store} {text : String} {t : Tree},
      (Tree.parse level store (.text text)).result = .ok (t, final) →
      ∃ t' final', (Tree.parseNnf level' store' (.text text)).result = .ok (t', final') ∧
        ∀ v : String → Bool,
          t'.root.eval (v ∘ Named.name) = t.root.eval (v ∘ Named.name)) := by
  constructor
  · intro α _ f level hf
    refine ⟨f.polar true, result_toNnf_of_intact hf level, fun v => ?_⟩
    rw [eval_polar hf, beq_true]
  · intro level level' store store' final text t h
    obtain ⟨f, hread, ht⟩ := Tree.parse_eq_ok.mp h
    refine ⟨_, _, by rw [Tree.result_parseNnf, hread]; rfl, fun v => ?_⟩
    have hroot := Tree.intact_ofFormula (Source.intact_of_read hread) store'
    have htree : t = (Tree.ofFormula f store).1 := by rw [ht]
    show ((Tree.ofFormula f store').1.root.polar true).eval _ = _
    rw [eval_polar hroot, beq_true, Tree.eval_ofFormula, htree, Tree.eval_ofFormula]

/-- A negation over AND and XOR, and a text that negates XOR. -/
theorem eval_toNnf_negated_xor :
    (let f : Formula String := (conj (var "A") (binary .xor (var "B") (var "A").neg)).neg
     f.Intact ∧ ∃ g, (f.toNnf .debug).result = .ok g ∧
      ∀ v : String → Bool, g.eval v = f.eval v) ∧
    (let (t, final) := Tree.ofFormula (binary .xor (var ⟨0⟩) (var ⟨1⟩)).neg .empty
     (Tree.parse .info .empty (.text "AB^!")).result = .ok (t, final) ∧
      ∃ t' final', (Tree.parseNnf .debug final (.text "AB^!")).result = .ok (t', final') ∧
        ∀ v : String → Bool,
          t'.root.eval (v ∘ Named.name) = t.root.eval (v ∘ Named.name)) := by
  have hparse : (Tree.parse .info .empty (.text "AB^!")).result =
      .ok (Tree.ofFormula (binary .xor (var ⟨0⟩) (var ⟨1⟩)).neg .empty) := rfl
  exact ⟨⟨by decide, eval_toNnf.1 .debug (by decide)⟩, hparse, eval_toNnf.2 hparse⟩

/-- No chain of visits is infinite, so every run ends. It ends with a formula exactly when no
part of the formula it is given is defective, and otherwise with an error about a defective
part. A formula that was read has no such part. -/
theorem toNnf_ok_iff_no_defect {α : Type} [Named α] :
    (WellFounded fun g f : Formula α => f.Visits g) ∧
    (∀ (f : Formula α) (level : Level),
      (∃ g, (f.toNnf level).result = .ok g) ↔ ∀ d, f.HasPart d → ¬ d.Defective) ∧
    (∀ (f : Formula α) (level : Level), (∃ d, f.HasPart d ∧ d.Defective) →
      ∃ e, (f.toNnf level).result = .error e ∧ ∃ d, f.HasPart d ∧ e.Reports d) ∧
    (∀ {level level' : Level} {store final : Store} {text : String} {t : Tree},
      (Tree.parse level store (.text text)).result = .ok (t, final) →
      ∃ g, (t.root.toNnf level').result = .ok g) := by
  have hok {β : Type} [Named β] {f : Formula β} (hf : f.Intact) (level : Level) :
      ∃ g, (f.toNnf level).result = .ok g :=
    ⟨f.polar true, result_toNnf_of_intact hf level⟩
  have hintact {f : Formula α} {level : Level} {g : Formula α}
      (h : (f.toNnf level).result = .ok g) : f.Intact := by
    rw [result_toNnf] at h
    exact intact_of_normalize h
  refine ⟨visits_wellFounded, fun f level => ⟨?_, ?_⟩, ?_, fun h => ?_⟩
  · rintro ⟨g, hg⟩
    exact intact_iff_part.mp (hintact hg)
  · intro h
    exact hok (intact_iff_part.mpr h) level
  · rintro f level ⟨d, hd, hdef⟩
    cases hr : (f.toNnf level).result with
    | ok g => exact absurd hdef (intact_iff_part.mp (hintact hr) d hd)
    | error e =>
      rw [result_toNnf] at hr
      exact ⟨e, rfl, faults_of_normalize hr⟩
  · exact hok (Tree.intact_of_parse h) _

/-- Defects that stand under XOR, and a text, whose tree has none. -/
theorem toNnf_ok_iff_no_defect_under_xor :
    (let f : Formula String := conj (var "A") (binary .xor (unary .and hole) (var "B")).neg.neg
     (∃ d, f.HasPart d ∧ d.Defective) ∧
      ∃ e, (f.toNnf .debug).result = .error e ∧ ∃ d, f.HasPart d ∧ e.Reports d) ∧
    (let (t, final) := Tree.ofFormula (binary .xor (var ⟨0⟩) (var ⟨1⟩)).neg .empty
     (Tree.parse .info .empty (.text "AB^!")).result = .ok (t, final) ∧
      ∃ g, (t.root.toNnf .debug).result = .ok g) := by
  have hdef : ∃ d,
      (conj (var "A") (binary .xor (unary .and hole) (var "B")).neg.neg).HasPart d ∧
        d.Defective := ⟨hole, ⟨['r', 'c', 'c', 'l', 'c'], rfl⟩, trivial⟩
  have hparse : (Tree.parse .info .empty (.text "AB^!")).result =
      .ok (Tree.ofFormula (binary .xor (var ⟨0⟩) (var ⟨1⟩)).neg .empty) := rfl
  exact ⟨⟨hdef, toNnf_ok_iff_no_defect.2.2.1 _ .debug hdef⟩, hparse,
    (toNnf_ok_iff_no_defect (α := String)).2.2.2 hparse⟩

end Formula
end PolishLogic
