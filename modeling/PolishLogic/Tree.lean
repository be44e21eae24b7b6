import PolishLogic.Variable

/-! # Trees

A tree is a formula together with the table of the variables it was read with. Reading gives a
formula over letters; `Tree.ofFormula` then puts a variable in the place of each letter, a new
one where the letter occurs for the first time, going from left to right. -/

namespace PolishLogic

/-- For each letter its variable, if it has one. -/
structure VariableTable where
  slots : Vector (Option Variable) 26
  deriving DecidableEq, Repr

namespace VariableTable

def empty : VariableTable := ⟨Vector.replicate 26 none⟩

def lookup (t : VariableTable) (l : Letter) : Option Variable := t.slots[l.index]

def insert (t : VariableTable) (l : Letter) (x : Variable) : VariableTable :=
  ⟨t.slots.set l.index x⟩

/-- The letters with a variable and their variables, from `A` to `Z`. -/
def entries (t : VariableTable) : List (Letter × Variable) :=
  Letter.all.filterMap fun l => (t.lookup l).map (l, ·)

def letters (t : VariableTable) : List Letter := t.entries.map (·.1)

@[simp] theorem lookup_empty (l : Letter) : empty.lookup l = none := by
  simp [empty, lookup]

@[simp] theorem lookup_insert_self (t : VariableTable) (l : Letter) (x : Variable) :
    (t.insert l x).lookup l = some x := by
  simp [insert, lookup]

theorem lookup_insert_of_ne {k l : Letter} (h : k ≠ l) (t : VariableTable) (x : Variable) :
    (t.insert k x).lookup l = t.lookup l := by
  have h : k.index.val ≠ l.index.val := fun e => h (congrArg Letter.mk (Fin.ext e))
  simp [insert, lookup, h]

end VariableTable

/-- A formula and the table of its variables. -/
structure Tree where
  root : Formula Variable
  /-- The variables by letter. A tree without letters has no entries in it, and neither has a
  tree put together from others. -/
  table : VariableTable
  deriving DecidableEq, Repr

/-- The records and the variables while a formula is made into a tree. -/
structure Binding where
  store : Store
  table : VariableTable

/-- The variable of a letter, made when there is none yet. -/
def Binding.intern (l : Letter) : StateM Binding Variable := fun b =>
  match b.table.lookup l with
  | some x => (x, b)
  | none =>
    let (x, store) := b.store.create l.name
    (x, ⟨store, b.table.insert l x⟩)

namespace Tree

/-- The tree of a formula over letters, with new records in the store. -/
def ofFormula (f : Formula Letter) (store : Store) : Tree × Store :=
  let (root, b) := (f.mapM Binding.intern).run ⟨store, .empty⟩
  (⟨root, b.table⟩, b.store)

/-- Two trees are the same when their roots are alike and their tables hold the very same
variables. -/
def same (s t : Tree) : Bool := s.root.alike t.root && s.table == t.table

end Tree
end PolishLogic
