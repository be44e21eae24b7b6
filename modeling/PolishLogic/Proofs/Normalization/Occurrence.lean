import Mathlib.Algebra.BigOperators.Ring.List
import Mathlib.Algebra.Ring.Nat
import Mathlib.Data.List.Count
import PolishLogic.Proofs.Formula.Ancestors
import PolishLogic.Proofs.Normalization.Run

/-! # What becomes of a leaf

Each leaf of a formula is copied into its normal form, once for each choice of a side at the
exclusive connectives above it. Marks on the leaves follow the copies: `count_literals_marked`
counts those of one leaf with and without a negation, at both polarities, and
`length_leaves_polar` counts all leaves. -/

namespace PolishLogic
namespace Formula

variable {α β : Type}

/-- The leaves from left to right, each with whether it stands below a negation. -/
def literalsBelow (negated : Bool) : Formula α → List (Bool × Leaf α)
  | hole => []
  | const b => [(negated, .const b)]
  | var x => [(negated, .var x)]
  | unary op c => c.literalsBelow (negated || op == .not)
  | binary _ l r => l.literalsBelow negated ++ r.literalsBelow negated

/-- The leaves of a formula from left to right, each with whether it stands under a negation. -/
def literals (f : Formula α) : List (Bool × Leaf α) := f.literalsBelow false

theorem literals_binary (op : Connective) (l r : Formula α) :
    (binary op l r).literals = l.literals ++ r.literals := rfl

theorem map_snd_literalsBelow (negated : Bool) (f : Formula α) :
    (f.literalsBelow negated).map Prod.snd = f.leaves := by
  induction f generalizing negated with
  | hole | const | var => rfl
  | unary op c ih => exact ih _
  | binary op l r ihl ihr =>
    rw [literalsBelow, List.map_append, ihl, ihr, leaves_binary]

theorem literalsBelow_map (g : α → β) (negated : Bool) (f : Formula α) :
    (f.map g).literalsBelow negated = (f.literalsBelow negated).map (Prod.map id (.map g)) := by
  induction f generalizing negated with
  | hole | const | var => rfl
  | unary op c ih => exact ih _
  | binary op l r ihl ihr => rw [map, literalsBelow, ihl, ihr, literalsBelow, List.map_append]

/-- An occurrence is copied by the node above it: into one form of an operand or into both. -/
theorem count_literals_polar_binary [DecidableEq α] {op : Connective} (hop : op ≠ .not)
    (l r : Formula α) (p : Bool) (d : Bool × Leaf α) :
    ((binary op l r).polar p).literals.count d =
      op.spread 'l' p (fun q => (l.polar q).literals.count d) +
        op.spread 'r' p (fun q => (r.polar q).literals.count d) := by
  cases op with
  | not => exact absurd rfl hop
  | and | or | imply => cases p <;> exact List.count_append
  | xor | xnor =>
    cases p <;> simp only [polar, conj, disj, literals_binary, List.count_append,
      Connective.spread, Connective.isExclusive, if_true] <;> omega

theorem leaf_map_injective {g : α → β} (hg : Function.Injective g) :
    Function.Injective (Leaf.map g) := by
  intro c d h
  cases c with
  | const b => cases d <;> cases h; rfl
  | var x =>
    cases d with
    | const b => cases h
    | var y => rw [hg (Leaf.var.inj h)]

section marks

variable (f : Formula (List Char)) (p s : Bool) (path : List Char) {step step' : Char}

theorem count_literals_map_cons_self (step : Char) :
    ((f.map (step :: ·)).polar p).literals.count (s, .var (step :: path)) =
      (f.polar p).literals.count (s, .var path) := by
  rw [polar_map, literals, literalsBelow_map]
  have hinj : Function.Injective (Prod.map id (Leaf.map (step :: ·)) :
      Bool × Leaf (List Char) → Bool × Leaf (List Char)) :=
    Function.injective_id.prodMap (leaf_map_injective List.cons_injective)
  exact List.count_map_of_injective _ _ hinj (s, .var path)

theorem count_literals_map_cons_of_ne (h : step ≠ step') :
    ((f.map (step :: ·)).polar p).literals.count (s, .var (step' :: path)) = 0 := by
  rw [polar_map, literals, literalsBelow_map]
  apply List.count_eq_zero_of_not_mem
  intro hmem
  obtain ⟨⟨s', d⟩, -, hd⟩ := List.mem_map.mp hmem
  cases d with
  | const b => cases hd
  | var u => exact h (List.cons.inj (Leaf.var.inj (congrArg Prod.snd hd))).1

end marks

/-- How often the leaf at the end of a path stands in the normal form of polarity `p` with the
sign `s`, where `true` is that of a negated leaf. -/
def copies (f : Formula α) (path : List Char) (p s : Bool) : Nat :=
  if f.exclusives path = 0 then if s = (f.isFlipped path == p) then 1 else 0
  else 2 ^ (f.exclusives path - 1)

theorem copies_comm (f : Formula α) (u : List Char) (p s : Bool) :
    f.copies u p s = f.copies u s p := by
  unfold copies
  cases p <;> cases s <;> cases f.isFlipped u <;> rfl

/-- At both polarities together, there is a copy for each choice of sides. -/
theorem copies_add (f : Formula α) (u : List Char) (s : Bool) :
    f.copies u true s + f.copies u false s = 2 ^ f.exclusives u := by
  unfold copies
  cases f.exclusives u with
  | zero => cases s <;> cases f.isFlipped u <;> rfl
  | succ k => exact (Nat.mul_two _).symm

theorem copies_cons {f : Formula α} {c : Formula β} {op : Connective} {step : Char}
    {path : List Char} (h : f.ancestors (step :: path) = (op, step) :: c.ancestors path)
    (p s : Bool) :
    f.copies (step :: path) p s = op.spread step p fun q => c.copies path q s := by
  show _ = if op.isExclusive then c.copies path true s + c.copies path false s
    else c.copies path (op.turns step != p) s
  rw [copies_add, copies, exclusives_cons h, isFlipped_cons h, copies]
  cases op.isExclusive with
  | true => rfl
  | false => cases op.turns step <;> cases p <;> cases c.isFlipped path <;> rfl

/-- A leaf of a formula comes out as many times as its ancestors copy it, under each sign. -/
theorem count_literals_marked {f : Formula α} (hf : f.Intact) {path : List Char} {d : Formula α}
    (h : f.descend path = some d) (ha : d.isAtom = true) (p s : Bool) :
    (f.marked.polar p).literals.count (s, .var path) = f.copies path p s := by
  have hlr : 'l' ≠ 'r' := by decide
  fun_induction descend f path generalizing p with
  | case1 =>
    cases h
    cases d with
    | const | var => cases p <;> cases s <;> rfl
    | hole | unary | binary => cases ha
  | case2 op c path ih =>
    obtain ⟨rfl, hc⟩ := hf
    show ((c.marked.map ('c' :: ·)).polar !p).literals.count _ = _
    rw [count_literals_map_cons_self, ih hc h, copies_cons rfl]
    cases p <;> rfl
  | case3 op l r path ih =>
    obtain ⟨hop, hl, -⟩ := hf
    rw [marked, count_literals_polar_binary hop, copies_cons rfl]
    simp only [count_literals_map_cons_self, count_literals_map_cons_of_ne _ _ _ _ hlr.symm,
      ih hl h, Connective.spread_const_zero, Nat.add_zero]
  | case4 op l r path ih =>
    obtain ⟨hop, -, hr⟩ := hf
    rw [marked, count_literals_polar_binary hop, copies_cons rfl]
    simp only [count_literals_map_cons_self, count_literals_map_cons_of_ne _ _ _ _ hlr, ih hr h,
      Connective.spread_const_zero, Nat.zero_add]
  | case5 => cases h

theorem count_leaves [DecidableEq α] (f : Formula α) (d : Leaf α) :
    f.leaves.count d = f.literals.count (true, d) + f.literals.count (false, d) := by
  rw [literals, ← map_snd_literalsBelow false]
  induction f.literalsBelow false with
  | nil => rfl
  | cons e es ih =>
    obtain ⟨s, c⟩ := e
    rw [List.map_cons, List.count_cons, List.count_cons, List.count_cons, ih]
    cases s <;> simp <;> omega

/-- The leaves of a formula, each counted as often as it is copied. -/
def leafCopies (f : Formula α) : Nat := (f.leafPaths.map fun path => 2 ^ f.exclusives path).sum

theorem leafCopies_neg (c : Formula α) : (unary .not c).leafCopies = c.leafCopies := by
  have hc (path : List Char) : (unary .not c).exclusives ('c' :: path) = c.exclusives path :=
    (exclusives_cons rfl).trans (Nat.add_zero _)
  simp only [leafCopies, leafPaths, List.map_map, Function.comp_def, hc]

/-- Only XOR and XNOR copy their operands. -/
theorem leafCopies_binary (op : Connective) (l r : Formula α) :
    (binary op l r).leafCopies =
      if op.isExclusive then 2 * (l.leafCopies + r.leafCopies)
      else l.leafCopies + r.leafCopies := by
  have hl (path : List Char) : (binary op l r).exclusives ('l' :: path) =
      l.exclusives path + if op.isExclusive then 1 else 0 := exclusives_cons rfl
  have hr (path : List Char) : (binary op l r).exclusives ('r' :: path) =
      r.exclusives path + if op.isExclusive then 1 else 0 := exclusives_cons rfl
  simp only [leafCopies, leafPaths, List.map_append, List.sum_append, List.map_map,
    Function.comp_def, hl, hr]
  cases op.isExclusive with
  | false => rfl
  | true => simp only [if_true, Nat.pow_succ, List.sum_map_mul_right, Nat.add_mul, Nat.mul_comm 2]

/-- The positive form and the negative one have the same number of leaves. -/
theorem length_leaves_polar {f : Formula α} (hf : f.Intact) (p : Bool) :
    (f.polar p).leaves.length = f.leafCopies := by
  induction f generalizing p with
  | hole => exact hf.elim
  | const | var => cases p <;> rfl
  | unary op c ih =>
    obtain ⟨rfl, hc⟩ := hf
    exact (ih hc !p).trans (leafCopies_neg c).symm
  | binary op l r ihl ihr =>
    obtain ⟨hop, hl, hr⟩ := hf
    rw [leafCopies_binary]
    cases op with
    | not => exact absurd rfl hop
    | and | or | imply =>
      cases p <;> simp [polar, conj, disj, leaves_binary, ihl hl, ihr hr, Connective.isExclusive]
    | xor | xnor =>
      cases p <;>
        simp only [polar, conj, disj, leaves_binary, List.length_append, ihl hl, ihr hr,
          Connective.isExclusive, if_true] <;> omega

theorem leaves_polar_of_not_exclusive {f : Formula α} (hf : f.Intact) (h : f.Inclusive)
    (p : Bool) : (f.polar p).leaves = f.leaves := by
  induction f generalizing p with
  | hole => exact hf.elim
  | const | var => cases p <;> rfl
  | unary op c ih =>
    obtain ⟨rfl, hc⟩ := hf
    exact ih hc (inclusive_unary.mp h) !p
  | binary op l r ihl ihr =>
    obtain ⟨hop, hl, hr⟩ := hf
    obtain ⟨⟨hxor, hxnor⟩, hil, hir⟩ := inclusive_binary.mp h
    cases op with
    | not => exact absurd rfl hop
    | xor => exact absurd rfl hxor
    | xnor => exact absurd rfl hxnor
    | and | or | imply =>
      cases p <;> simp only [polar, conj, disj, leaves_binary, ihl hl hil, ihr hr hir]

theorem polar_bind_of_isAtom {σ : α → Formula β} {f : Formula α}
    (hσ : ∀ x, .var x ∈ f.leaves → (σ x).isAtom = true) (p : Bool) :
    (f.polar p).bind σ = (f.bind σ).polar p := by
  induction f generalizing p with
  | hole => rfl
  | const b => cases p <;> rfl
  | var x =>
    have hx : (σ x).isAtom = true := hσ x (List.mem_singleton_self _)
    show ((var x).polar p).bind σ = (σ x).polar p
    cases hd : σ x with
    | const | var => cases p <;> simp [polar, neg, bind, hd]
    | hole | unary | binary => rw [hd] at hx; cases hx
  | unary op c ih =>
    cases op with
    | not => exact ih hσ !p
    | and | or | xor | xnor | imply => rfl
  | binary op l r ihl ihr =>
    simp only [leaves_binary, List.mem_append] at hσ
    have ihl := ihl fun x hx => hσ x (.inl hx)
    have ihr := ihr fun x hx => hσ x (.inr hx)
    cases op with
    | not => rfl
    | and | or | xor | xnor | imply => cases p <;> simp only [polar, bind, conj, disj, ihl, ihr]

/-- The normal form is that of the marked formula with the parts put back for their paths. -/
theorem bind_partAt_polar_marked (f : Formula α) (p : Bool) :
    (f.marked.polar p).bind f.partAt = f.polar p := by
  rw [polar_bind_of_isAtom, bind_partAt_marked]
  intro path hpath
  rw [leaves_marked] at hpath
  obtain ⟨u, hu, hvar⟩ := List.mem_map.mp hpath
  cases hvar
  obtain ⟨d, hd, ha⟩ := mem_leafPaths.mp hu
  rw [partAt, hd]
  exact ha

/-- Each leaf of an intact formula is copied once for each choice of sides at the exclusive
connectives above it. Half of the copies are negated, if there is a choice, and otherwise the leaf
is negated if it is flipped an odd number of times. What is copied where is told by the conversion
of the marked formula, from which that of the formula comes back. A negation above the whole
changes no number of leaves, and where there are no exclusive connectives the leaves stay in their
order. -/
theorem leaves_toNnf {α : Type} [Named α] {f : Formula α} (hf : f.Intact) (level : Level) :
    ∃ g m, (f.toNnf level).result = .ok g ∧ (f.marked.toNnf level).result = .ok m ∧
      m.bind f.partAt = g ∧
      (f.leafPaths.Nodup ∧
        ∀ path, path ∈ f.leafPaths ↔ ∃ d, f.descend path = some d ∧ d.isAtom = true) ∧
      (∀ path ∈ f.leafPaths,
        let k := f.exclusives path
        m.leaves.count (.var path) = 2 ^ k ∧
        (k = 0 → ∀ s, m.literals.count (s, .var path) = if s = f.isFlipped path then 1 else 0) ∧
        (1 ≤ k → ∀ s, m.literals.count (s, .var path) = 2 ^ (k - 1))) ∧
      g.leaves.length = (f.leafPaths.map fun path => 2 ^ f.exclusives path).sum ∧
      (∃ g', (f.neg.toNnf level).result = .ok g' ∧ g'.leaves.length = g.leaves.length) ∧
      ((∀ op l r, f.HasPart (binary op l r) → op ≠ .xor ∧ op ≠ .xnor) →
        g.leaves = f.leaves) := by
  have hmarked : f.marked.Intact := intact_marked.mpr hf
  have hneg : f.neg.Intact := ⟨rfl, hf⟩
  refine ⟨f.polar true, f.marked.polar true, result_toNnf_of_intact hf level,
    result_toNnf_of_intact hmarked level, bind_partAt_polar_marked f true,
    ⟨nodup_leafPaths f, fun _ => mem_leafPaths⟩, ?occurrences, length_leaves_polar hf true,
    ⟨f.polar false, result_toNnf_of_intact hneg level, ?negation⟩,
    fun h => leaves_polar_of_not_exclusive hf h true⟩
  case occurrences =>
    intro path hpath k
    obtain ⟨d, hd, ha⟩ := mem_leafPaths.mp hpath
    have hcount := count_literals_marked hf hd ha true
    refine ⟨?_, fun hk s => ?_, fun hk s => ?_⟩
    · rw [count_leaves, hcount, hcount, f.copies_comm path true false, copies_add]
    · rw [hcount, copies, if_pos hk, beq_true]
    · rw [hcount, copies, if_neg (Nat.ne_of_gt hk)]
  case negation => rw [length_leaves_polar hf, length_leaves_polar hf]

/-- In `!((A ^ 1) > A)` the first leaf stands below an exclusive connective, the last one below an
implication to its right, and both below a negation. -/
theorem leaves_toNnf_negated_imply_of_xor :
    let f : Formula String := (binary .imply (binary .xor (var "A") (const true)) (var "A")).neg
    f.Intact ∧ ∃ g m, (f.toNnf .debug).result = .ok g ∧
      (f.marked.toNnf .debug).result = .ok m ∧ m.bind f.partAt = g ∧
      m.leaves.count (.var ['c', 'l', 'l']) = 2 ∧
      m.literals.count (true, .var ['c', 'l', 'l']) = 1 ∧
      m.literals.count (true, .var ['c', 'r']) = 1 ∧
      m.literals.count (false, .var ['c', 'r']) = 0 ∧ g.leaves.length = 5 := by
  intro f
  have hf : f.Intact := by decide
  obtain ⟨g, m, hg, hm, hbind, -, hcount, hlength, -⟩ := leaves_toNnf hf .debug
  obtain ⟨hA, -, hAs⟩ := hcount ['c', 'l', 'l'] (by decide)
  obtain ⟨-, hA', -⟩ := hcount ['c', 'r'] (by decide)
  exact ⟨hf, g, m, hg, hm, hbind, hA, hAs (by decide) true, hA' rfl true, hA' rfl false, hlength⟩

end Formula
end PolishLogic
