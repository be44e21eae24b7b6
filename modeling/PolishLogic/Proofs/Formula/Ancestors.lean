import Mathlib.Data.List.Nodup
import PolishLogic.Proofs.Formula.Position
import PolishLogic.Proofs.Substitution

/-! # Parts and their ancestors

Parts are told apart by the paths that lead to them: `paths` lists these, each once (`mem_paths`,
`nodup_paths`), and `leafPaths` those of leaves, from left to right. `marked` is the formula with
its path in the place of each leaf. What stands above a part is counted along its path: the
exclusive connectives (`exclusives`) and the places where a negation would change sides (`flips`),
of which it matters whether they are odd in number (`isFlipped`). Both are told step by step
(`exclusives_cons`, `isFlipped_cons`). -/

namespace PolishLogic

namespace Connective

/-- The two connectives that hold or not by the equality of their operands. -/
def isExclusive : Connective → Bool
  | .xor | .xnor => true
  | _ => false

/-- The child at the step is on the other side of a negation than its node. -/
def turns (op : Connective) (step : Char) : Bool := op == .not || (op, step) == (.imply, 'l')

@[simp] theorem turns_child (op : Connective) : op.turns 'c' = (op = .not : Bool) := by
  cases op <;> rfl

@[simp] theorem turns_lhs (op : Connective) :
    op.turns 'l' = (op = .not ∨ op = .imply : Bool) := by
  cases op <;> rfl

@[simp] theorem turns_rhs (op : Connective) : op.turns 'r' = (op = .not : Bool) := by
  cases op <;> rfl

/-- The sum of a number over the polarities that the child at the step is normalized with when
the node is normalized with polarity `p`. -/
def spread (op : Connective) (step : Char) (p : Bool) (n : Bool → Nat) : Nat :=
  if op.isExclusive then n true + n false else n (op.turns step != p)

theorem spread_const_zero (op : Connective) (step : Char) (p : Bool) :
    op.spread step p (fun _ => 0) = 0 := ite_self 0

end Connective

/-- Paths are written as they are when they stand for leaves. -/
instance : Named (List Char) := ⟨String.ofList⟩

namespace Formula

variable {α β : Type}

/-- The connectives above the end of a path from the root down, each with the step that is taken
from its node. -/
def ancestors : Formula α → List Char → List (Connective × Char)
  | unary op c, 'c' :: path => (op, 'c') :: c.ancestors path
  | binary op l _, 'l' :: path => (op, 'l') :: l.ancestors path
  | binary op _ r, 'r' :: path => (op, 'r') :: r.ancestors path
  | _, _ => []

/-- How many XOR and XNOR stand above a part. -/
def exclusives (f : Formula α) (path : List Char) : Nat :=
  (f.ancestors path).countP (·.1.isExclusive)

/-- The negations above the end of a path, together with the implications it is on the left of. -/
def flips (f : Formula α) (path : List Char) : Nat :=
  (f.ancestors path).countP fun a => a.1 == .not || a == (.imply, 'l')

/-- A negation changes its place an odd number of times on the way to the end of a path. -/
def isFlipped (f : Formula α) (path : List Char) : Bool := f.flips path % 2 == 1

/-- The paths to all parts, each before those to the parts below it. -/
def paths : Formula α → List (List Char)
  | hole | const _ | var _ => [[]]
  | unary _ c => [] :: c.paths.map ('c' :: ·)
  | binary _ l r => [] :: (l.paths.map ('l' :: ·) ++ r.paths.map ('r' :: ·))

/-- The paths of the leaves, from left to right. -/
def leafPaths : Formula α → List (List Char)
  | hole => []
  | const _ | var _ => [[]]
  | unary _ c => c.leafPaths.map ('c' :: ·)
  | binary _ l r => l.leafPaths.map ('l' :: ·) ++ r.leafPaths.map ('r' :: ·)

/-- The formula with a variable in the place of each leaf that is its path. -/
def marked : Formula α → Formula (List Char)
  | hole => hole
  | const _ | var _ => var []
  | unary op c => unary op (c.marked.map ('c' :: ·))
  | binary op l r => binary op (l.marked.map ('l' :: ·)) (r.marked.map ('r' :: ·))

/-- The part at the end of a path, or a hole if there is none. -/
def partAt (f : Formula α) (path : List Char) : Formula α := (f.descend path).getD hole

section cons

variable {f : Formula α} {c : Formula β} {op : Connective} {step : Char} {path : List Char}
  (h : f.ancestors (step :: path) = (op, step) :: c.ancestors path)

include h

theorem exclusives_cons : f.exclusives (step :: path) =
    c.exclusives path + if op.isExclusive then 1 else 0 := by
  rw [exclusives, h]
  exact List.countP_cons

/-- The sign of a part is turned at the root or below it, and not if at both. -/
theorem isFlipped_cons : f.isFlipped (step :: path) = (op.turns step != c.isFlipped path) := by
  have hflips : f.flips (step :: path) = c.flips path + if op.turns step then 1 else 0 := by
    rw [flips, h]
    exact List.countP_cons
  rw [isFlipped, hflips, isFlipped]
  rcases Nat.mod_two_eq_zero_or_one (c.flips path) with hc | hc <;>
    cases op.turns step <;> simp [Nat.add_mod, hc]

end cons

/-- The paths of a formula are those that lead to a part. -/
theorem mem_paths {f : Formula α} {path : List Char} :
    path ∈ f.paths ↔ ∃ d, f.descend path = some d := by
  constructor
  · intro h
    induction f generalizing path with
    | hole | const | var =>
      rw [List.mem_singleton.mp h]
      exact ⟨_, rfl⟩
    | unary op c ih =>
      rcases List.mem_cons.mp h with rfl | h
      · exact ⟨_, rfl⟩
      · obtain ⟨u, hu, rfl⟩ := List.mem_map.mp h
        exact ih hu
    | binary op l r ihl ihr =>
      rcases List.mem_cons.mp h with rfl | h
      · exact ⟨_, rfl⟩
      rcases List.mem_append.mp h with hl | hr
      · obtain ⟨u, hu, rfl⟩ := List.mem_map.mp hl
        exact ihl hu
      · obtain ⟨u, hu, rfl⟩ := List.mem_map.mp hr
        exact ihr hu
  · rintro ⟨d, hd⟩
    fun_induction descend f path with
    | case1 f => cases f <;> exact List.mem_cons_self
    | case2 op c path ih => exact List.mem_cons_of_mem _ (List.mem_map_of_mem (ih hd))
    | case3 op l r path ih =>
      exact List.mem_cons_of_mem _ (List.mem_append_left _ (List.mem_map_of_mem (ih hd)))
    | case4 op l r path ih =>
      exact List.mem_cons_of_mem _ (List.mem_append_right _ (List.mem_map_of_mem (ih hd)))
    | case5 => cases hd

theorem nodup_paths (f : Formula α) : f.paths.Nodup := by
  induction f with
  | hole | const | var => exact List.nodup_singleton []
  | unary op c ih =>
    exact List.nodup_cons.mpr ⟨by simp, ih.map List.cons_injective⟩
  | binary op l r ihl ihr =>
    refine List.nodup_cons.mpr ⟨by simp, List.nodup_append.mpr
      ⟨ihl.map List.cons_injective, ihr.map List.cons_injective, ?_⟩⟩
    intro u hu v hv
    obtain ⟨u, -, rfl⟩ := List.mem_map.mp hu
    obtain ⟨v, -, rfl⟩ := List.mem_map.mp hv
    exact fun h => nomatch (List.cons.inj h).1

theorem leafPaths_eq_filter (f : Formula α) :
    f.leafPaths = f.paths.filter fun path => (f.partAt path).isAtom := by
  induction f with
  | hole | const | var => rfl
  | unary op c ih =>
    rw [leafPaths, ih, paths, List.filter_cons_of_neg Bool.false_ne_true, List.filter_map]
    rfl
  | binary op l r ihl ihr =>
    rw [leafPaths, ihl, ihr, paths, List.filter_cons_of_neg Bool.false_ne_true, List.filter_append,
      List.filter_map, List.filter_map]
    rfl

theorem mem_leafPaths {f : Formula α} {path : List Char} :
    path ∈ f.leafPaths ↔ ∃ d, f.descend path = some d ∧ d.isAtom = true := by
  rw [leafPaths_eq_filter, List.mem_filter, mem_paths]
  constructor
  · rintro ⟨⟨d, hd⟩, ha⟩
    rw [partAt, hd] at ha
    exact ⟨d, hd, ha⟩
  · rintro ⟨d, hd, ha⟩
    refine ⟨⟨d, hd⟩, ?_⟩
    rw [partAt, hd]
    exact ha

theorem nodup_leafPaths (f : Formula α) : f.leafPaths.Nodup := by
  rw [leafPaths_eq_filter]
  exact f.nodup_paths.filter _

theorem intact_marked {f : Formula α} : f.marked.Intact ↔ f.Intact := by
  induction f with
  | hole | const | var => exact Iff.rfl
  | unary op c ih => simp only [marked, Intact, intact_map, ih]
  | binary op l r ihl ihr => simp only [marked, Intact, intact_map, ihl, ihr]

theorem leaves_map (g : α → β) (f : Formula α) : (f.map g).leaves = f.leaves.map (.map g) := by
  induction f with
  | hole | const | var => rfl
  | unary op c ih => exact ih
  | binary op l r ihl ihr => rw [map, leaves_binary, leaves_binary, ihl, ihr, List.map_append]

/-- The leaves of a marked formula are the paths of the leaves. -/
theorem leaves_marked (f : Formula α) : f.marked.leaves = f.leafPaths.map .var := by
  induction f with
  | hole | const | var => rfl
  | unary op c ih =>
    rw [marked, leaves_unary, leaves_map, ih, leafPaths, List.map_map, List.map_map]
    rfl
  | binary op l r ihl ihr =>
    rw [marked, leaves_binary, leaves_map, leaves_map, ihl, ihr, leafPaths, List.map_append]
    simp only [List.map_map]
    rfl

/-- The leaves come back when each mark is replaced by what its path leads to. -/
theorem bind_partAt_marked (f : Formula α) : f.marked.bind f.partAt = f := by
  induction f with
  | hole | const | var => rfl
  | unary op c ih =>
    rw [marked, bind, bind_map]
    exact congrArg (unary op) ih
  | binary op l r ihl ihr =>
    rw [marked, bind, bind_map, bind_map]
    exact congr (congrArg (binary op) ihl) ihr

end Formula
end PolishLogic
