import PolishLogic.Proofs.Conversion

/-! # New variables

Reading leaves the records of a store as they are and makes new ones for the letters it meets
(`Binding.Over`). So the variables of a tree that has just been read are in its table, and none
of them was in the store before (`Tree.fresh_of_parse`, `Tree.fresh_of_parseNnf`). -/

namespace PolishLogic

namespace Binding

/-- What holds of a binding that was begun over a store without any variable bound: the records
of the store are unchanged, and those of the variables in the table are new ones. -/
structure Over (store : Store) (b : Binding) : Prop where
  named : b.table.WellNamed
  grows : store.records.size ≤ b.store.records.size
  kept : ∀ {x : Variable}, x.id < store.records.size → b.store.record x = store.record x
  new : ∀ {l x}, b.table.lookup l = some x → store.records.size ≤ x.id ∧
    x.id < b.store.records.size ∧ b.store.record x = .fresh x.name

theorem over_empty (store : Store) : Over store ⟨store, .empty⟩ := by
  refine ⟨VariableTable.wellNamed_empty, Nat.le_refl _, fun _ => rfl, ?_⟩
  intro l x h
  rw [VariableTable.lookup_empty] at h
  cases h

theorem Over.create {store : Store} {b : Binding} (h : b.Over store) (l : Letter) :
    Over store ⟨(b.store.create l.name).2, b.table.insert l (b.store.create l.name).1⟩ := by
  have hsize : (b.store.create l.name).2.records.size = b.store.records.size + 1 :=
    Array.size_push ..
  have hgrows := h.grows
  constructor
  · exact h.named.insert rfl
  · show _ ≤ (b.store.create l.name).2.records.size
    omega
  · intro x hx
    show (b.store.create l.name).2.record x = _
    rw [Store.record_create_of_lt (Nat.lt_of_lt_of_le hx hgrows), h.kept hx]
  · intro k x hk
    show _ ∧ x.id < (b.store.create l.name).2.records.size ∧
      (b.store.create l.name).2.record x = _
    by_cases hlk : l = k
    · subst hlk
      rw [VariableTable.lookup_insert_self] at hk
      cases hk
      refine ⟨hgrows, ?_, Store.record_create_self _ _⟩
      rw [hsize]
      exact Nat.lt_succ_self _
    · rw [VariableTable.lookup_insert_of_ne hlk] at hk
      obtain ⟨hnew, hlt, hrecord⟩ := h.new hk
      refine ⟨hnew, by omega, ?_⟩
      rw [Store.record_create_of_lt hlt, hrecord]

/-- A letter is given a new record only if it has none, and so all records stay above the mark. -/
theorem Over.intern {store : Store} {b : Binding} (h : b.Over store) (l : Letter) :
    Over store (intern l b).2 := by
  unfold Binding.intern
  split
  · exact h
  · exact h.create l

theorem Over.mapM {store : Store} {b : Binding} (h : b.Over store) (f : Formula Letter) :
    Over store (f.mapM Binding.intern b).2 := by
  induction f generalizing b with
  | hole | const => exact h
  | var l => exact h.intern l
  | unary op c ih => exact ih h
  | binary op l r ihl ihr => exact ihr (ihl h)

end Binding

namespace Tree

/-- The tree was read into the store `store` and left the store `final`. -/
structure Fresh (store : Store) (t : Tree) (final : Store) : Prop where
  bound : ∀ {x}, Formula.Leaf.var x ∈ t.root.leaves → ∃ l, t.table.lookup l = some x
  binding : Binding.Over store ⟨final, t.table⟩

theorem fresh_ofFormula (f : Formula Letter) (store : Store) :
    (ofFormula f store).1.Fresh store (ofFormula f store).2 := by
  refine ⟨fun {x} hx => ?_, (Binding.over_empty store).mapM f⟩
  have hname : Formula.Leaf.var x.name ∈ (f.map Named.name).leaves := by
    rw [← map_name_ofFormula f store]
    exact Formula.var_mem_leaves_map.mpr ⟨x, hx, rfl⟩
  obtain ⟨l, -, hl⟩ := Formula.var_mem_leaves_map.mp hname
  exact ⟨l, (fits_ofFormula f store l x).mpr ⟨hx, hl.symm⟩⟩

/-- The records of a tree that was read are new and unassigned, and the others stay as they were. -/
theorem fresh_of_parse {level : Level} {store final : Store} {source : Source} {t : Tree}
    (h : (parse level store source).result = .ok (t, final)) : t.Fresh store final := by
  obtain ⟨f, -, ht⟩ := parse_eq_ok.mp h
  have hfresh := fresh_ofFormula f store
  rw [ht] at hfresh
  exact hfresh

/-- Normalization creates no records and takes none away. -/
theorem fresh_of_parseNnf {level : Level} {store final : Store} {source : Source} {t : Tree}
    (h : (parseNnf level store source).result = .ok (t, final)) : t.Fresh store final := by
  rw [result_parseNnf] at h
  cases hread : source.read with
  | error e =>
    rw [hread] at h
    cases h
  | ok f =>
    rw [hread] at h
    cases h
    have hroot := intact_ofFormula (Source.intact_of_read hread) store
    have hfresh := fresh_ofFormula f store
    refine ⟨fun hx => ?_, hfresh.binding⟩
    exact hfresh.bound ((Formula.mem_leaves_polar hroot true).mp hx)

end Tree
end PolishLogic
