import PolishLogic.Tree

/-! # Variables for letters

A letter is bound to a variable of its name, so the tree of a formula has the names of the
formula at its leaves (`Tree.map_name_ofFormula`), whatever the store was before.

`Binding.Binds` says what binding the letters of a formula comes to: in the place of each
letter stands the variable that the table has for it in the end. The table of a tree that is
read therefore has the variables of its root and no others (`Tree.fits_ofFormula`). -/

namespace PolishLogic

/-- The variable of each letter in the table has the name of the letter. -/
def VariableTable.WellNamed (t : VariableTable) : Prop :=
  ∀ l x, t.lookup l = some x → x.name = l.name

namespace VariableTable

theorem wellNamed_empty : empty.WellNamed := by
  intro l x h
  rw [lookup_empty] at h
  cases h

theorem WellNamed.insert {t : VariableTable} (ht : t.WellNamed) {l : Letter} {x : Variable}
    (hx : x.name = l.name) : (t.insert l x).WellNamed := by
  intro k y h
  by_cases hk : l = k
  · subst hk
    rw [lookup_insert_self] at h
    cases h
    exact hx
  · rw [lookup_insert_of_ne hk] at h
    exact ht k y h

end VariableTable

namespace Binding

/-- The variable bound to a letter has its name, also if it was bound before. -/
theorem name_intern {b : Binding} (hb : b.table.WellNamed) (l : Letter) :
    (intern l b).1.name = l.name ∧ (intern l b).2.table.WellNamed := by
  unfold intern
  split
  · next x hx => exact ⟨hb l x hx, hb⟩
  · exact ⟨rfl, hb.insert rfl⟩

/-- Binding the letters of a formula changes no name. -/
theorem map_name_mapM_intern (f : Formula Letter) {b : Binding} (hb : b.table.WellNamed) :
    (f.mapM intern b).1.map Named.name = f.map Named.name ∧
      (f.mapM intern b).2.table.WellNamed := by
  induction f generalizing b with
  | hole | const => exact ⟨rfl, hb⟩
  | var l =>
    obtain ⟨hx, hb'⟩ := name_intern hb l
    exact ⟨congrArg Formula.var hx, hb'⟩
  | unary op c ih =>
    obtain ⟨hc, hb'⟩ := ih hb
    exact ⟨congrArg (Formula.unary op) hc, hb'⟩
  | binary op l r ihl ihr =>
    obtain ⟨hl, hb'⟩ := ihl hb
    obtain ⟨hr, hb''⟩ := ihr hb'
    exact ⟨congr (congrArg (Formula.binary op) hl) hr, hb''⟩

/-- Binding the letters of `f` makes `g` of it and takes the bindings from `b` to `b'`. -/
structure Binds (b : Binding) (f : Formula Letter) (g : Formula Variable) (b' : Binding) :
    Prop where
  kept : ∀ {l x}, b.table.lookup l = some x → b'.table.lookup l = some x
  root : g.map some = f.map b'.table.lookup
  origin : ∀ {l x}, b'.table.lookup l = some x →
    b.table.lookup l = some x ∨ Formula.Leaf.var l ∈ f.leaves

theorem binds_intern (b : Binding) (l : Letter) :
    b.Binds (.var l) (.var (intern l b).1) (intern l b).2 := by
  unfold intern
  split
  · next x hx => exact ⟨id, congrArg Formula.var hx.symm, .inl⟩
  · next hnone =>
    refine ⟨fun {k x} hk => ?_, ?_, fun {k x} hk => ?_⟩
    · have hne : l ≠ k := by
        rintro rfl
        rw [hnone] at hk
        cases hk
      rw [VariableTable.lookup_insert_of_ne hne, hk]
    · exact congrArg Formula.var (VariableTable.lookup_insert_self _ _ _).symm
    · by_cases hlk : l = k
      · subst hlk
        exact .inr (List.mem_singleton_self _)
      · rw [VariableTable.lookup_insert_of_ne hlk] at hk
        exact .inl hk

/-- Variables that are bound already stay the same as more are added. -/
theorem map_some_of_kept {σ τ : Letter → Option Variable}
    (h : ∀ {l x}, σ l = some x → τ l = some x) {f : Formula Letter} {g : Formula Variable}
    (hg : g.map some = f.map σ) : g.map some = f.map τ := by
  induction f generalizing g with
  | hole | const => exact hg
  | var l =>
    cases g with
    | var x =>
      have hl : some x = σ l := Formula.var.inj hg
      exact congrArg Formula.var (h hl.symm).symm
    | hole | const | unary | binary => cases hg
  | unary op c ih =>
    cases g with
    | unary op' c' =>
      obtain ⟨rfl, hc⟩ := Formula.unary.inj hg
      exact congrArg (Formula.unary op') (ih hc)
    | hole | const | var | binary => cases hg
  | binary op l r ihl ihr =>
    cases g with
    | binary op' l' r' =>
      obtain ⟨rfl, hl, hr⟩ := Formula.binary.inj hg
      exact congr (congrArg (Formula.binary op') (ihl hl)) (ihr hr)
    | hole | const | var | unary => cases hg

theorem Binds.binary {b b' b'' : Binding} {l r : Formula Letter} {l' r' : Formula Variable}
    (hl : b.Binds l l' b') (hr : b'.Binds r r' b'') (op : Connective) :
    b.Binds (.binary op l r) (.binary op l' r') b'' := by
  refine ⟨fun h => hr.kept (hl.kept h), ?_, fun {k x} h => ?_⟩
  · exact congr (congrArg (Formula.binary op) (map_some_of_kept hr.kept hl.root)) hr.root
  · rw [Formula.leaves_binary, List.mem_append]
    rcases hr.origin h with h | h
    · exact (hl.origin h).imp_right .inl
    · exact .inr (.inr h)

/-- What is bound at an earlier leaf is found again at every later one. -/
theorem binds_mapM_intern (f : Formula Letter) (b : Binding) :
    b.Binds f (f.mapM intern b).1 (f.mapM intern b).2 := by
  induction f generalizing b with
  | hole | const => exact ⟨id, rfl, .inl⟩
  | var l => exact binds_intern b l
  | unary op c ih =>
    obtain ⟨hkept, hroot, horigin⟩ := ih b
    exact ⟨hkept, congrArg (Formula.unary op) hroot, horigin⟩
  | binary op l r ihl ihr => exact (ihl b).binary (ihr _) op

end Binding

namespace Tree

/-- The table has a variable for a letter exactly when it is one of the root of that name. -/
def Fits (t : Tree) : Prop :=
  ∀ l x, t.table.lookup l = some x ↔ Formula.Leaf.var x ∈ t.root.leaves ∧ x.name = l.name

/-- A tree is built of the formula that was read, with variables for letters. -/
theorem map_name_ofFormula (f : Formula Letter) (store : Store) :
    (ofFormula f store).1.root.map Named.name = f.map Named.name :=
  (Binding.map_name_mapM_intern f (b := ⟨store, .empty⟩) VariableTable.wellNamed_empty).1

theorem intact_ofFormula {f : Formula Letter} (hf : f.Intact) (store : Store) :
    (ofFormula f store).1.root.Intact := by
  rw [← Formula.intact_map (g := Named.name), map_name_ofFormula, Formula.intact_map]
  exact hf

/-- Each variable in a tree is the one its table has for the letter. -/
theorem fits_ofFormula (f : Formula Letter) (store : Store) : (ofFormula f store).1.Fits := by
  have hbinds := Binding.binds_mapM_intern f ⟨store, .empty⟩
  have hnames := (Binding.map_name_mapM_intern f (b := ⟨store, .empty⟩)
    VariableTable.wellNamed_empty).2
  have hleaf : ∀ x, Formula.Leaf.var x ∈ (ofFormula f store).1.root.leaves ↔
      ∃ l, Formula.Leaf.var l ∈ f.leaves ∧ (ofFormula f store).1.table.lookup l = some x := by
    intro x
    have hmap := Formula.var_mem_leaves_map (g := some) (f := (ofFormula f store).1.root)
      (y := some x)
    simp only [Option.some.injEq, exists_eq_right] at hmap
    rw [← hmap, show (ofFormula f store).1.root.map some = _ from hbinds.root,
      Formula.var_mem_leaves_map]
    rfl
  intro l x
  rw [hleaf]
  constructor
  · intro h
    refine ⟨⟨l, ?_, h⟩, hnames l x h⟩
    rcases hbinds.origin h with h | h
    · rw [VariableTable.lookup_empty] at h
      cases h
    · exact h
  · rintro ⟨⟨k, -, h⟩, hx⟩
    have hkl : k = l := Letter.name_injective ((hnames k x h).symm.trans hx)
    rw [← hkl]
    exact h

/-- The table of a tree has the letters of the formula and no others. -/
theorem lookup_isSome_ofFormula {f : Formula Letter} {store : Store} {l : Letter} :
    ((ofFormula f store).1.table.lookup l).isSome ↔ Formula.Leaf.var l ∈ f.leaves :=
  calc ((ofFormula f store).1.table.lookup l).isSome
      ↔ ∃ x, Formula.Leaf.var x ∈ (ofFormula f store).1.root.leaves ∧ x.name = l.name := by
        rw [Option.isSome_iff_exists]
        exact exists_congr (fits_ofFormula f store l)
    _ ↔ Formula.Leaf.var l.name ∈ (f.map Named.name).leaves := by
        rw [← map_name_ofFormula f store]
        exact Formula.var_mem_leaves_map.symm
    _ ↔ Formula.Leaf.var l ∈ f.leaves := by
        rw [Formula.var_mem_leaves_map]
        refine ⟨?_, fun h => ⟨l, h, rfl⟩⟩
        rintro ⟨k, hk, hname⟩
        rw [← Letter.name_injective hname]
        exact hk

end Tree
end PolishLogic
