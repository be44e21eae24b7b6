import PolishLogic.Workspace

/-! # Parts and defects

The parts of a formula are what its paths lead to. A node is defective if it makes no sense
whatever stands around it, and a formula is intact exactly when none of its parts is defective
(`intact_iff_part`).

Errors are about defects. `FormulaError.Reports` says which node an error is about, and
`FormulaError.Faults` that a formula has such a node. An intact formula is copied and written
without an error; an error of either faults the formula (`faults_of_duplicate`,
`faults_of_word`). -/

namespace PolishLogic
namespace Formula

variable {α : Type}

theorem descend_unary_cons {op : Connective} {c d : Formula α} {k : Char} {u : List Char} :
    (unary op c).descend (k :: u) = some d ↔ k = 'c' ∧ c.descend u = some d := by
  by_cases hk : k = 'c' <;> simp [descend, hk]

theorem descend_binary_cons {op : Connective} {l r d : Formula α} {k : Char} {u : List Char} :
    (binary op l r).descend (k :: u) = some d ↔
      k = 'l' ∧ l.descend u = some d ∨ k = 'r' ∧ r.descend u = some d := by
  by_cases hl : k = 'l'
  · simp [descend, hl]
  · by_cases hr : k = 'r' <;> simp [descend, hl, hr]

/-- The formula `d` stands in `f` at the end of some path. -/
def HasPart (f d : Formula α) : Prop := ∃ path, f.descend path = some d

theorem hasPart_self (f : Formula α) : f.HasPart f := by
  refine ⟨[], ?_⟩
  cases f <;> rfl

theorem eq_of_hasPart_of_isAtom {f d : Formula α} (ha : f.isAtom) (h : f.HasPart d) : d = f := by
  obtain ⟨path, hp⟩ := h
  cases f with
  | hole | unary | binary => cases ha
  | const | var =>
    cases path with
    | nil => exact (Option.some.inj hp).symm
    | cons k path => simp [descend] at hp

theorem hasPart_hole {d : Formula α} : hole.HasPart d ↔ d = hole := by
  refine ⟨fun ⟨path, hp⟩ => ?_, fun h => h ▸ hasPart_self hole⟩
  cases path with
  | nil => exact (Option.some.inj hp).symm
  | cons k path => simp [descend] at hp

theorem hasPart_unary {op : Connective} {c d : Formula α} :
    (unary op c).HasPart d ↔ d = unary op c ∨ c.HasPart d := by
  constructor
  · rintro ⟨_ | ⟨k, u⟩, hp⟩
    · exact .inl (Option.some.inj hp).symm
    · exact .inr ⟨u, (descend_unary_cons.mp hp).2⟩
  · rintro (rfl | ⟨path, hp⟩)
    · exact hasPart_self _
    · exact ⟨'c' :: path, hp⟩

theorem hasPart_binary {op : Connective} {l r d : Formula α} :
    (binary op l r).HasPart d ↔ d = binary op l r ∨ l.HasPart d ∨ r.HasPart d := by
  constructor
  · rintro ⟨_ | ⟨k, u⟩, hp⟩
    · exact .inl (Option.some.inj hp).symm
    · rcases descend_binary_cons.mp hp with ⟨-, hp⟩ | ⟨-, hp⟩
      · exact .inr (.inl ⟨u, hp⟩)
      · exact .inr (.inr ⟨u, hp⟩)
  · rintro (rfl | ⟨path, hp⟩ | ⟨path, hp⟩)
    · exact hasPart_self _
    · exact ⟨'l' :: path, hp⟩
    · exact ⟨'r' :: path, hp⟩

/-- A node without content or with a connective of the wrong arity. -/
def Defective : Formula α → Prop
  | hole => True
  | const _ | var _ => False
  | unary op _ => op ≠ .not
  | binary op _ _ => op = .not

/-- A formula makes sense exactly if none of its parts is defective. -/
theorem intact_iff_part {f : Formula α} : f.Intact ↔ ∀ d, f.HasPart d → ¬ d.Defective := by
  induction f with
  | hole => exact ⟨False.elim, fun h => h hole (hasPart_self hole) trivial⟩
  | const | var =>
    refine ⟨fun _ d hd => ?_, fun _ => trivial⟩
    rw [eq_of_hasPart_of_isAtom rfl hd]
    exact id
  | unary op c ih =>
    simp only [Intact, ih, hasPart_unary, forall_eq_or_imp, Defective, Decidable.not_not]
  | binary op l r ihl ihr =>
    simp only [Intact, ihl, ihr, hasPart_binary, or_imp, forall_and, forall_eq, Defective]

end Formula

/-- The node an error is about: a hole, or a node with a connective of the wrong arity. -/
inductive FormulaError.Reports {α : Type} : FormulaError → Formula α → Prop
  | hole : Reports .hole .hole
  | negatedHole : Reports (.cannotNegate .hole) .hole
  | unaryOf {op : Connective} {c : Formula α} (h : op ≠ .not) :
    Reports (.unaryOf op) (.unary op c)
  | inNegations {op : Connective} {c : Formula α} (h : op ≠ .not) :
    Reports (.inNegations op) (.unary op c)
  | binaryNot {l r : Formula α} : Reports .binaryNot (.binary .not l r)
  | noExpansion {l r : Formula α} : Reports (.noExpansion .not) (.binary .not l r)
  | negatedNot {l r : Formula α} : Reports (.cannotNegate .binary) (.binary .not l r)

/-- Some part of the formula is a node that the error is about. -/
def FormulaError.Faults {α : Type} (e : FormulaError) (f : Formula α) : Prop :=
  ∃ d, f.HasPart d ∧ e.Reports d

namespace Formula

variable {α : Type} {e : FormulaError}

theorem defective_of_reports {d : Formula α} (h : e.Reports d) : d.Defective := by
  cases h with
  | hole | negatedHole => trivial
  | unaryOf h | inNegations h => exact h
  | binaryNot | noExpansion | negatedNot => rfl

theorem exists_reports {d : Formula α} (h : d.Defective) :
    ∃ e : FormulaError, e.Reports d := by
  cases d with
  | hole => exact ⟨_, .hole⟩
  | const | var => exact h.elim
  | unary op c => exact ⟨_, .unaryOf h⟩
  | binary op l r => cases h; exact ⟨_, .binaryNot⟩

/-- A formula makes sense exactly if no error is about a part of it. -/
theorem intact_iff_faults {f : Formula α} : f.Intact ↔ ∀ e : FormulaError, ¬ e.Faults f := by
  rw [intact_iff_part]
  constructor
  · rintro h e ⟨d, hd, he⟩
    exact h d hd (defective_of_reports he)
  · intro h d hd hdef
    obtain ⟨e, he⟩ := exists_reports hdef
    exact h e ⟨d, hd, he⟩

theorem not_faults_of_intact {f : Formula α} (h : f.Intact) : ¬ e.Faults f :=
  intact_iff_faults.mp h e

theorem faults_of_reports {f : Formula α} (h : e.Reports f) : e.Faults f :=
  ⟨f, hasPart_self f, h⟩

theorem faults_unary {op : Connective} {c : Formula α} :
    e.Faults (unary op c) ↔ e.Reports (unary op c) ∨ e.Faults c := by
  simp only [FormulaError.Faults, hasPart_unary, or_and_right, exists_or, exists_eq_left]

theorem faults_binary {op : Connective} {l r : Formula α} :
    e.Faults (binary op l r) ↔ e.Reports (binary op l r) ∨ e.Faults l ∨ e.Faults r := by
  simp only [FormulaError.Faults, hasPart_binary, or_and_right, exists_or, exists_eq_left]

/-- Negation adds no defect and hides none. -/
theorem faults_neg {f : Formula α} : e.Faults f.neg ↔ e.Faults f := by
  refine faults_unary.trans (or_iff_right fun h => ?_)
  exact defective_of_reports h rfl

theorem faults_binary_of_ne {op : Connective} (hop : op ≠ .not) {l r : Formula α} :
    e.Faults (binary op l r) ↔ e.Faults l ∨ e.Faults r := by
  refine faults_binary.trans (or_iff_right fun h => ?_)
  exact hop (defective_of_reports h)

theorem faults_conj {f g : Formula α} : e.Faults (conj f g) ↔ e.Faults f ∨ e.Faults g :=
  faults_binary_of_ne (by decide)

theorem faults_disj {f g : Formula α} : e.Faults (disj f g) ↔ e.Faults f ∨ e.Faults g :=
  faults_binary_of_ne (by decide)

/-! ## Copies -/

theorem reports_of_mkUnary {op : Connective} {c : Formula α}
    (h : mkUnary op c = .error e) (c' : Formula α) : e.Reports (unary op c') := by
  unfold mkUnary at h
  split at h
  · cases h
  · next hop => cases h; exact .unaryOf hop

theorem reports_of_mkBinary {op : Connective} {l r : Formula α}
    (h : mkBinary op l r = .error e) (l' r' : Formula α) : e.Reports (binary op l' r') := by
  unfold mkBinary at h
  split at h
  · next hop => cases h; cases hop; exact .binaryNot
  · cases h

/-- A copy fails only with an error about a part of what is copied. -/
theorem faults_of_duplicate {f : Formula α} (h : f.duplicate = .error e) : e.Faults f := by
  induction f with
  | hole => cases h; exact faults_of_reports .hole
  | const | var => cases h
  | unary op c ih =>
    rw [duplicate] at h
    rcases Except.bind_eq_error.mp h with hc | ⟨c', -, h⟩
    · exact faults_unary.mpr (.inr (ih hc))
    · exact faults_of_reports (reports_of_mkUnary h c)
  | binary op l r ihl ihr =>
    rw [duplicate] at h
    rcases Except.bind_eq_error.mp h with hl | ⟨l', -, h⟩
    · exact faults_binary.mpr (.inr (.inl (ihl hl)))
    rcases Except.bind_eq_error.mp h with hr | ⟨r', -, h⟩
    · exact faults_binary.mpr (.inr (.inr (ihr hr)))
    · exact faults_of_reports (reports_of_mkBinary h l r)

/-! ## Written forms -/

/-- Only a hole can keep a formula from having a word. -/
theorem hasPart_hole_of_postorder {f : Formula α} (h : f.postorder = none) :
    f.HasPart hole := by
  induction f with
  | hole => exact hasPart_self hole
  | const | var => cases h
  | unary op c ih =>
    rw [postorder_unary, Option.map_eq_none_iff] at h
    exact hasPart_unary.mpr (.inr (ih h))
  | binary op l r ihl ihr =>
    rw [postorder_binary] at h
    cases hl : l.postorder with
    | none => exact hasPart_binary.mpr (.inr (.inl (ihl hl)))
    | some v =>
      rw [hl, Option.bind_some, Option.map_eq_none_iff] at h
      exact hasPart_binary.mpr (.inr (.inr (ihr h)))

theorem faults_of_word {f : Formula α} (h : f.word = .error e) : e.Faults f := by
  unfold word at h
  split at h
  · next hp => cases h; exact ⟨hole, hasPart_hole_of_postorder hp, .hole⟩
  · cases h

theorem hole_faults_iff {f : Formula α} : FormulaError.hole.Faults f ↔ f.HasPart hole := by
  constructor
  · rintro ⟨d, hd, he⟩
    cases he
    exact hd
  · exact fun h => ⟨hole, h, .hole⟩

theorem not_hasPart_hole_of_intact {f : Formula α} (h : f.Intact) : ¬ f.HasPart hole :=
  fun hole => not_faults_of_intact h (hole_faults_iff.mpr hole)

/-- A hole is the only thing that keeps a formula from being written. -/
theorem exists_word {f : Formula α} (h : ¬ f.HasPart hole) : ∃ w, f.word = .ok w := by
  unfold word
  split
  · next hp => exact absurd (hasPart_hole_of_postorder hp) h
  · next w _ => exact ⟨w, rfl⟩

theorem exists_word_of_intact {f : Formula α} (h : f.Intact) : ∃ w, f.word = .ok w :=
  exists_word (not_hasPart_hole_of_intact h)

end Formula
end PolishLogic
