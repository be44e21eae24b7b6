import Mathlib.Data.List.Chain
import PolishLogic.Proofs.Formula.Defect

/-! # Words of formulas

A formula and its word have the same leaves (`leaf_mem_iff`). A word begins with an operand and
ends with one only if it is that of an atom. Relabelling the leaves relabels the word, so that
formulas with equal names are written alike (`render_eq_of_map_name_eq`).

`NormalWord` describes the words of normal forms by neighbouring symbols alone
(`isNnf_iff_normalWord`). -/

namespace PolishLogic

namespace Symbol

variable {α : Type}

/-- Whether a symbol is a constant or a variable. -/
def isOperand : Symbol α → Bool
  | const _ | leaf _ => true
  | op _ => false

/-- A symbol that may stand in the word of a normal form. -/
def isNormal : Symbol α → Bool
  | const _ | leaf _ => true
  | op c => c = .not || c.isMonotone

/-- If the second of two neighbours is a negation, the first one is an operand. -/
def NegatesOperand (s t : Symbol α) : Prop := t = .op .not → s.isOperand = true

end Symbol

/-- No connective is one that a normal form expands, and no negation stands at the beginning
or after a connective. -/
structure NormalWord {α : Type} (w : List (Symbol α)) : Prop where
  normal : ∀ s ∈ w, s.isNormal = true
  head : w.head? ≠ some (.op .not)
  chain : w.IsChain Symbol.NegatesOperand

namespace Formula

variable {α β : Type}

theorem postorder_unary_eq_some {op : Connective} {c : Formula α} {w : List (Symbol α)} :
    (unary op c).postorder = some w ↔ ∃ v, c.postorder = some v ∧ w = v ++ [.op op] := by
  rw [postorder_unary, Option.map_eq_some_iff]
  simp only [eq_comm]

theorem postorder_binary_eq_some {op : Connective} {l r : Formula α} {w : List (Symbol α)} :
    (binary op l r).postorder = some w ↔
      ∃ u v, l.postorder = some u ∧ r.postorder = some v ∧ w = u ++ v ++ [.op op] := by
  rw [postorder_binary, Option.bind_eq_some_iff]
  simp only [Option.map_eq_some_iff]
  constructor
  · rintro ⟨u, hu, v, hv, rfl⟩
    exact ⟨u, v, hu, hv, rfl⟩
  · rintro ⟨u, v, hu, hv, rfl⟩
    exact ⟨u, hu, v, hv, rfl⟩

theorem word_eq_ok {f : Formula α} {w : List (Symbol α)} :
    f.word = .ok w ↔ f.postorder = some w := by
  unfold word
  split
  · next h => simp [h]
  · next h => simp [h]

theorem render_eq_ok [Named α] {f : Formula α} {text : String} :
    f.render = .ok text ↔ ∃ w, f.postorder = some w ∧ Symbol.spell w = text := by
  simp only [← word_eq_ok]
  unfold render
  cases f.word with
  | error e => exact ⟨nofun, fun ⟨w, h, _⟩ => nomatch h⟩
  | ok w => simp [Except.map]

/-- A formula that makes sense can be written. -/
theorem exists_render_of_intact [Named α] {f : Formula α} (hf : f.Intact) :
    ∃ text, f.render = .ok text := by
  obtain ⟨w, hw⟩ := exists_word_of_intact hf
  exact ⟨_, render_eq_ok.mpr ⟨w, word_eq_ok.mp hw, rfl⟩⟩

theorem spell_append [Named α] (u v : List (Symbol α)) :
    Symbol.spell (u ++ v) = Symbol.spell u ++ Symbol.spell v := by
  unfold Symbol.spell
  rw [List.flatMap_append, String.ofList_append]

theorem render_unary [Named α] {c : Formula α} {s : String} (hc : c.render = .ok s)
    (op : Connective) : (unary op c).render = .ok (s ++ op.symbol.toString) := by
  obtain ⟨w, hw, rfl⟩ := render_eq_ok.mp hc
  exact render_eq_ok.mpr ⟨_, postorder_unary_eq_some.mpr ⟨w, hw, rfl⟩, spell_append _ _⟩

theorem render_binary [Named α] {l r : Formula α} {s t : String} (hl : l.render = .ok s)
    (hr : r.render = .ok t) (op : Connective) :
    (binary op l r).render = .ok (s ++ t ++ op.symbol.toString) := by
  obtain ⟨u, hu, rfl⟩ := render_eq_ok.mp hl
  obtain ⟨v, hv, rfl⟩ := render_eq_ok.mp hr
  refine render_eq_ok.mpr ⟨_, postorder_binary_eq_some.mpr ⟨u, v, hu, hv, rfl⟩, ?_⟩
  rw [spell_append, spell_append]
  rfl

/-! ## Relabelling -/

theorem postorder_map (g : α → β) (f : Formula α) :
    (f.map g).postorder = f.postorder.map (List.map (Symbol.map g)) := by
  induction f with
  | hole | const | var => rfl
  | unary op c ih =>
    rw [map, postorder_unary, postorder_unary, ih]
    cases c.postorder <;> simp [Symbol.map]
  | binary op l r ihl ihr =>
    rw [map, postorder_binary, postorder_binary, ihl, ihr]
    cases l.postorder <;> cases r.postorder <;> simp [Symbol.map]

theorem spell_map_name [Named α] (w : List (Symbol α)) :
    Symbol.spell (w.map (Symbol.map Named.name)) = Symbol.spell w := by
  unfold Symbol.spell
  rw [List.flatMap_map]
  congr 1
  refine List.flatMap_congr fun s _ => ?_
  cases s with
  | const b => cases b <;> rfl
  | leaf | op => rfl

/-- The text of a formula shows the names of its variables and nothing else of them. -/
theorem render_map_name [Named α] (f : Formula α) : (f.map Named.name).render = f.render := by
  unfold render word
  rw [postorder_map]
  cases f.postorder with
  | none => rfl
  | some w => exact congrArg Except.ok (spell_map_name w)

theorem render_eq_of_map_name_eq [Named α] [Named β] {f : Formula α} {g : Formula β}
    (h : f.map Named.name = g.map Named.name) : f.render = g.render := by
  rw [← render_map_name f, h, render_map_name]

/-! ## Symbols of a word -/

variable {f : Formula α} {w : List (Symbol α)}

theorem leaf_mem_iff (h : f.postorder = some w) {x : α} :
    Symbol.leaf x ∈ w ↔ Leaf.var x ∈ f.leaves := by
  induction f generalizing w with
  | hole => cases h
  | const b => cases h; simp [leaves, leavesOnto]
  | var y => cases h; simp [leaves, leavesOnto]
  | unary op c ih =>
    obtain ⟨v, hv, rfl⟩ := postorder_unary_eq_some.mp h
    simp [leaves_unary, ih hv]
  | binary op l r ihl ihr =>
    obtain ⟨u, v, hu, hv, rfl⟩ := postorder_binary_eq_some.mp h
    simp [leaves_binary, ihl hu, ihr hv]

theorem exists_head_operand (h : f.postorder = some w) :
    ∃ s, w.head? = some s ∧ s.isOperand = true := by
  induction f generalizing w with
  | hole => cases h
  | const | var => cases h; exact ⟨_, rfl, rfl⟩
  | unary op c ih =>
    obtain ⟨v, hv, rfl⟩ := postorder_unary_eq_some.mp h
    obtain ⟨s, hs, ho⟩ := ih hv
    exact ⟨s, by simp [hs], ho⟩
  | binary op l r ihl ihr =>
    obtain ⟨u, v, hu, hv, rfl⟩ := postorder_binary_eq_some.mp h
    obtain ⟨s, hs, ho⟩ := ihl hu
    exact ⟨s, by simp [hs], ho⟩

theorem exists_last (h : f.postorder = some w) :
    ∃ s, w.getLast? = some s ∧ s.isOperand = f.isAtom := by
  cases f with
  | hole => cases h
  | const | var => cases h; exact ⟨_, rfl, rfl⟩
  | unary op c =>
    obtain ⟨v, -, rfl⟩ := postorder_unary_eq_some.mp h
    exact ⟨_, List.getLast?_concat, rfl⟩
  | binary op l r =>
    obtain ⟨u, v, -, -, rfl⟩ := postorder_binary_eq_some.mp h
    exact ⟨_, List.getLast?_concat, rfl⟩

end Formula

namespace NormalWord

variable {α : Type} {u v w : List (Symbol α)}

theorem operand {s : Symbol α} (h : s.isOperand = true) : NormalWord [s] := by
  cases s with
  | op c => cases h
  | const | leaf => exact ⟨by simp [Symbol.isNormal], by simp, .singleton _⟩

theorem append_iff {s t : Symbol α} (hu : u.getLast? = some s) (hv : v.head? = some t) :
    NormalWord (u ++ v) ↔ NormalWord u ∧ (∀ t ∈ v, t.isNormal = true) ∧
      v.IsChain Symbol.NegatesOperand ∧ s.NegatesOperand t := by
  have hne : u ≠ [] := by
    rintro rfl
    cases hu
  constructor
  · rintro ⟨hn, hh, hc⟩
    rw [List.forall_mem_append] at hn
    rw [List.head?_append_of_ne_nil _ hne] at hh
    obtain ⟨hcu, hcv, hst⟩ := List.isChain_append.mp hc
    exact ⟨⟨hn.1, hh, hcu⟩, hn.2, hcv, hst s hu t hv⟩
  · rintro ⟨⟨hn, hh, hcu⟩, hnv, hcv, hst⟩
    refine ⟨List.forall_mem_append.mpr ⟨hn, hnv⟩, ?_, List.isChain_append.mpr ⟨hcu, hcv, ?_⟩⟩
    · rw [List.head?_append_of_ne_nil _ hne]
      exact hh
    · intro a ha b hb
      rw [hu] at ha
      rw [hv] at hb
      cases ha
      cases hb
      exact hst

/-- Words that begin with an operand do not see what they are put behind. -/
theorem append_operand_iff {s t : Symbol α} (hu : u.getLast? = some s) (hv : v.head? = some t)
    (ht : t.isOperand = true) : NormalWord (u ++ v) ↔ NormalWord u ∧ NormalWord v := by
  have hop : t ≠ .op .not := by
    rintro rfl
    cases ht
  rw [append_iff hu hv]
  constructor
  · rintro ⟨h, hn, hc, -⟩
    exact ⟨h, hn, by rw [hv]; simpa using hop, hc⟩
  · rintro ⟨h, hn, -, hc⟩
    exact ⟨h, hn, hc, fun h => absurd h hop⟩

/-- After a normal word a negation may stand if an operand ends it, and AND and OR always may. -/
theorem append_op_iff {s : Symbol α} (hu : u.getLast? = some s) {c : Connective} :
    NormalWord (u ++ [.op c]) ↔
      NormalWord u ∧ (c = .not ∧ s.isOperand = true ∨ c.isMonotone = true) := by
  rw [append_iff hu rfl]
  cases c <;> simp [Symbol.isNormal, Symbol.NegatesOperand, Connective.isMonotone]

end NormalWord

namespace Formula

/-- Negation normal form shows in the word: every negation stands right after an operand, and no
XOR, XNOR or IMPLY stands anywhere. -/
theorem isNnf_iff_normalWord {α : Type} {f : Formula α} (hf : f.Intact) {w : List (Symbol α)}
    (h : f.postorder = some w) : f.isNnf = true ↔ NormalWord w := by
  induction f generalizing w with
  | hole => exact hf.elim
  | const | var =>
    cases h
    exact iff_of_true (by simp) (.operand rfl)
  | unary op c ih =>
    obtain ⟨rfl, hc⟩ := hf
    obtain ⟨v, hv, rfl⟩ := postorder_unary_eq_some.mp h
    obtain ⟨s, hs, hatom⟩ := exists_last hv
    rw [NormalWord.append_op_iff hs, isNnf_unary, hatom, ← ih hc hv]
    constructor
    · intro ha
      refine ⟨?_, .inl ⟨rfl, ha⟩⟩
      cases c with
      | hole | unary | binary => cases ha
      | const | var => simp
    · rintro ⟨-, ⟨-, ha⟩ | ha⟩
      · exact ha
      · cases ha
  | binary op l r ihl ihr =>
    obtain ⟨hop, hl, hr⟩ := hf
    obtain ⟨u, v, hu, hv, rfl⟩ := postorder_binary_eq_some.mp h
    obtain ⟨a, ha, -⟩ := exists_last hu
    obtain ⟨b, hb, hbo⟩ := exists_head_operand hv
    obtain ⟨s, hs, -⟩ := exists_last hv
    have hlast : (u ++ v).getLast? = some s := by simp [hs]
    rw [NormalWord.append_op_iff hlast, NormalWord.append_operand_iff ha hb hbo, isNnf_binary,
      Bool.and_eq_true, Bool.and_eq_true, ihl hl hu, ihr hr hv]
    constructor
    · rintro ⟨⟨hm, hnl⟩, hnr⟩
      exact ⟨⟨hnl, hnr⟩, .inr hm⟩
    · rintro ⟨⟨hnl, hnr⟩, ⟨rfl, -⟩ | hm⟩
      · exact absurd rfl hop
      · exact ⟨⟨hm, hnl⟩, hnr⟩

end Formula
end PolishLogic
