import PolishLogic.Proofs.Formula.Word
import PolishLogic.Proofs.Normalization.SoleDefect

/-! # Copies and their errors

A copy is made from the leaves up, and a node is checked when its children have been copied. So if
several nodes are defective, the error is about the first of them in the order in which children go
before their parent and what is on the left before what is on the right. `Precedes` is this order
on paths, and `FirstDefect` says which node is the first. Every formula that is not intact has one,
and copying ends with its error (`exists_firstDefect`, `Formula.duplicate_first_defect`). -/

namespace PolishLogic

/-- What stands at the end of the first path comes before what stands at the end of the second:
it stands below that, or the paths part and the first one goes to the left. -/
inductive Precedes : List Char → List Char → Prop
  | under {k : Char} {u : List Char} : Precedes (k :: u) []
  | across {u v : List Char} : Precedes ('l' :: u) ('r' :: v)
  | step {k : Char} {u v : List Char} (h : Precedes u v) : Precedes (k :: u) (k :: v)

theorem Precedes.asymm {u v : List Char} (h : Precedes u v) : ¬ Precedes v u := by
  induction h with
  | under => nofun
  | across =>
    generalize hl : 'l' = l
    intro h
    cases h
    cases hl
  | step h ih =>
    intro h
    cases h with
    | step h => exact ih h

namespace Formula

variable {α : Type}

/-- The path leads to a defective node, and every other path to one comes later. -/
structure FirstDefect (f : Formula α) (path : List Char) (d : Formula α) : Prop where
  part : f.descend path = some d
  defective : d.Defective
  first : ∀ u e, f.descend u = some e → e.Defective → u = path ∨ Precedes path u

namespace FirstDefect

variable {f c l r d e : Formula α} {op : Connective} {path : List Char}

/-- There is only one first defect, at one path. -/
theorem unique {u v : List Char} (h : f.FirstDefect u d) (h' : f.FirstDefect v e) :
    u = v ∧ d = e := by
  have hpath : u = v := by
    rcases h.first v e h'.part h'.defective with heq | hlt
    · exact heq.symm
    rcases h'.first u d h.part h.defective with heq | hlt'
    · exact heq
    · exact absurd hlt' hlt.asymm
  subst hpath
  exact ⟨rfl, Option.some.inj (h.part.symm.trans h'.part)⟩

/-- At the root the defect comes after everything below it. -/
theorem root (hd : f.Defective) (hnone : ∀ k u e, f.descend (k :: u) = some e → ¬ e.Defective) :
    f.FirstDefect [] f := by
  refine ⟨by cases f <;> rfl, hd, fun u e hu he => ?_⟩
  rcases u with _ | ⟨k, u⟩
  · exact .inl rfl
  · exact absurd he (hnone k u e hu)

/-- The defects of a child keep their order as parts of its parent. -/
theorem later (h : c.FirstDefect path d) (k : Char) {u : List Char} (hu : c.descend u = some e)
    (he : e.Defective) : k :: u = k :: path ∨ Precedes (k :: path) (k :: u) := by
  rcases h.first u e hu he with rfl | hlt
  · exact .inl rfl
  · exact .inr (.step hlt)

theorem child (h : c.FirstDefect path d) : (unary op c).FirstDefect ('c' :: path) d := by
  refine ⟨h.part, h.defective, fun u e hu he => ?_⟩
  rcases u with _ | ⟨k, u⟩
  · exact .inr .under
  obtain ⟨rfl, hu⟩ := descend_unary_cons.mp hu
  exact h.later 'c' hu he

theorem lhs (h : l.FirstDefect path d) : (binary op l r).FirstDefect ('l' :: path) d := by
  refine ⟨h.part, h.defective, fun u e hu he => ?_⟩
  rcases u with _ | ⟨k, u⟩
  · exact .inr .under
  rcases descend_binary_cons.mp hu with ⟨rfl, hu⟩ | ⟨rfl, -⟩
  · exact h.later 'l' hu he
  · exact .inr .across

/-- A defect of the right operand is first only if the left one has none. -/
theorem rhs (hl : l.Intact) (h : r.FirstDefect path d) :
    (binary op l r).FirstDefect ('r' :: path) d := by
  refine ⟨h.part, h.defective, fun u e hu he => ?_⟩
  rcases u with _ | ⟨k, u⟩
  · exact .inr .under
  rcases descend_binary_cons.mp hu with ⟨-, hu⟩ | ⟨rfl, hu⟩
  · exact absurd he (intact_iff_part.mp hl e ⟨u, hu⟩)
  · exact h.later 'r' hu he

end FirstDefect

/-- The induction is on the formula: a defect of the left operand goes before one of the right,
and either goes before one at the root, as in the order in which the copies are made. -/
theorem exists_firstDefect {f : Formula α} (hf : ¬ f.Intact) :
    ∃ path d, f.FirstDefect path d ∧ f.duplicate = .error (d.defectError true false) := by
  induction f with
  | hole => exact ⟨[], hole, .root trivial fun k u e hu => by simp [descend] at hu, rfl⟩
  | const | var => exact absurd trivial hf
  | unary op c ih =>
    by_cases hc : c.Intact
    · have hop : op ≠ .not := fun hop => hf ⟨hop, hc⟩
      refine ⟨[], unary op c, .root hop fun k u e hu => ?_, ?_⟩
      · exact intact_iff_part.mp hc e ⟨u, (descend_unary_cons.mp hu).2⟩
      · rw [duplicate, duplicate_of_intact hc]
        exact if_neg hop
    · obtain ⟨path, d, hd, hcopy⟩ := ih hc
      exact ⟨'c' :: path, d, hd.child, by rw [duplicate, hcopy]; rfl⟩
  | binary op l r ihl ihr =>
    by_cases hl : l.Intact
    · by_cases hr : r.Intact
      · have hop : op = .not := by_contra fun hop => hf ⟨hop, hl, hr⟩
        refine ⟨[], binary op l r, .root hop fun k u e hu => ?_, ?_⟩
        · rcases descend_binary_cons.mp hu with ⟨-, hu⟩ | ⟨-, hu⟩
          · exact intact_iff_part.mp hl e ⟨u, hu⟩
          · exact intact_iff_part.mp hr e ⟨u, hu⟩
        · rw [duplicate, duplicate_of_intact hl, duplicate_of_intact hr]
          exact if_pos hop
      · obtain ⟨path, d, hd, hcopy⟩ := ihr hr
        exact ⟨'r' :: path, d, .rhs hl hd, by rw [duplicate, duplicate_of_intact hl, hcopy]; rfl⟩
    · obtain ⟨path, d, hd, hcopy⟩ := ihl hl
      exact ⟨'l' :: path, d, hd.lhs, by rw [duplicate, hcopy]; rfl⟩

/-- A copy fails with the error of the first defect. -/
theorem duplicate_of_firstDefect {f d : Formula α} {path : List Char} (h : f.FirstDefect path d) :
    f.duplicate = .error (d.defectError true false) := by
  have hf : ¬ f.Intact := fun hf => intact_iff_part.mp hf d ⟨path, h.part⟩ h.defective
  obtain ⟨path', d', h', hcopy⟩ := exists_firstDefect hf
  obtain ⟨-, rfl⟩ := h.unique h'
  exact hcopy

/-- A copy is made exactly if no part is defective. It is then the same formula, written the same
and with the very same variables. If there are defective parts, one is the first of them, and the
error is about this one. -/
theorem duplicate_first_defect [Named α] (f : Formula α) :
    ((∃ g, f.duplicate = .ok g) ↔ ∀ d, f.HasPart d → ¬ d.Defective) ∧
    (∀ g, f.duplicate = .ok g → g.alike f = true ∧
      (∃ text, f.render = .ok text ∧ g.render = .ok text) ∧ g.leaves = f.leaves) ∧
    ((∃ d, f.HasPart d ∧ d.Defective) → ∃! path, ∃ d, f.FirstDefect path d) ∧
    ∀ path d, f.FirstDefect path d → ∃ e, f.duplicate = .error e ∧ (d = hole → e = .hole) ∧
      (∀ op c, d = unary op c → e = .unaryOf op ∧
        e.message = "Unary node carries " ++ op.name ++ ", expected NOT") ∧
      ∀ op l r, d = binary op l r → e = .binaryNot ∧
        e.message = "Binary node cannot carry NOT" := by
  refine ⟨?_, fun g hg => ?_, ?_, fun path d h => ?_⟩
  · rw [← intact_iff_part]
    exact ⟨fun ⟨g, hg⟩ => intact_of_duplicate hg, fun hf => ⟨f, duplicate_of_intact hf⟩⟩
  · have hf := intact_of_duplicate hg
    obtain rfl := eq_of_duplicate hg
    obtain ⟨text, htext⟩ := exists_render_of_intact hf
    exact ⟨beq_self_eq_true _, ⟨text, htext, htext⟩, rfl⟩
  · rintro ⟨d, hpart, hd⟩
    obtain ⟨path, d', h, -⟩ := exists_firstDefect fun hf => intact_iff_part.mp hf d hpart hd
    exact ⟨path, ⟨d', h⟩, fun path' ⟨d'', h'⟩ => (h'.unique h).1⟩
  · refine ⟨_, duplicate_of_firstDefect h, ?_, ?_, ?_⟩
    · rintro rfl
      rfl
    · rintro op c rfl
      exact ⟨rfl, rfl⟩
    · rintro op l r rfl
      exact ⟨rfl, rfl⟩

/-- Of two variables of one name each keeps its place; and of three defective nodes, two of which
stand under the third, the one on the left is named. -/
theorem duplicate_first_defect_of_three :
    (let x : Variable := ⟨0, "A"⟩
     let y : Variable := ⟨1, "A"⟩
     let f := binary .xor (var y) (var x).neg
     (∀ d, f.HasPart d → ¬ d.Defective) ∧
      ∃ g, f.duplicate = .ok g ∧ g.alike f = true ∧ g.leaves = [.var y, .var x]) ∧
    (let d : Formula Variable := unary .xor (const true)
     let f := binary .imply (const false) (binary .not d hole).neg
     (∃ d, f.HasPart d ∧ d.Defective) ∧ (∃! path, ∃ d, f.FirstDefect path d) ∧
      f.FirstDefect ['r', 'c', 'l'] d ∧ ∃ e, f.duplicate = .error e ∧ e = .unaryOf .xor ∧
        e.message = "Unary node carries " ++ Connective.xor.name ++ ", expected NOT") := by
  constructor
  · intro x y f
    have hf : ∀ d, f.HasPart d → ¬ d.Defective := intact_iff_part.mp (by decide)
    obtain ⟨hok, hcopy, -, -⟩ := duplicate_first_defect f
    obtain ⟨g, hg⟩ := hok.mpr hf
    obtain ⟨halike, -, hleaves⟩ := hcopy g hg
    exact ⟨hf, g, hg, halike, hleaves⟩
  · intro d f
    have hconst : (const true : Formula Variable).Intact := trivial
    have hd : d.FirstDefect [] d := .root nofun fun k u e hu =>
      intact_iff_part.mp hconst e ⟨u, (descend_unary_cons.mp hu).2⟩
    have hf : f.FirstDefect ['r', 'c', 'l'] d := .rhs trivial (.child (.lhs hd))
    have hdefect : ∃ d, f.HasPart d ∧ d.Defective := ⟨d, ⟨_, hf.part⟩, hd.defective⟩
    obtain ⟨-, -, hunique, herror⟩ := duplicate_first_defect f
    obtain ⟨e, he, -, hunary, -⟩ := herror _ _ hf
    exact ⟨hdefect, hunique hdefect, hf, e, he, hunary .xor _ rfl⟩

end Formula
end PolishLogic
