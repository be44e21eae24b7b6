import Mathlib.Data.List.Pairwise
import PolishLogic.Proofs.Workspace.Session

/-! # The records of a session

Every variable of a tree that was made in a session is one of a tree that was read in it, and
the first tree descends from the second (`Session.Sound`). No two readings share a record, and
the record of a variable has its name and the value last assigned to it
(`Session.records_of_run`). -/

namespace PolishLogic

/-- A variable of a tree is at one of its leaves or in its table. -/
def Tree.HasVariable (t : Tree) (x : Variable) : Prop :=
  .var x ∈ t.root.leaves ∨ ∃ l, t.table.lookup l = some x

/-- The trees have no record in common. -/
def Tree.Apart (s t : Tree) : Prop :=
  ∀ x y, s.HasVariable x → t.HasVariable y → x.id ≠ y.id

instance : Std.Symm Tree.Apart := ⟨fun _ _ h x y hx hy => (h y x hy hx).symm⟩

namespace Event

/-- The trees an event has made a tree from. -/
def sources : Event → List Tree
  | .derive s _ => [s]
  | .combine r s _ => [r, s]
  | .read _ | .assign _ _ => []

/-- The tree an event has made. -/
def tree? : Event → Option Tree
  | .read t | .derive _ t | .combine _ _ t => some t
  | .assign _ _ => none

/-- The tree an event has read. -/
def reading? : Event → Option Tree
  | .read t => some t
  | _ => none

/-- The value an event has assigned to the record of a variable. -/
def value? (x : Variable) : Event → Option Bool
  | .assign y value => if y.id = x.id then some value else none
  | _ => none

/-- What a tree that has been read has in its table, and what one that was made from others has
of theirs. -/
def Lawful : Event → Prop
  | .read t => t.table.WellNamed ∧
    ∀ x, .var x ∈ t.root.leaves → ∃ l, t.table.lookup l = some x
  | .derive s t => t.table = s.table ∧ ∀ x, .var x ∈ t.root.leaves → .var x ∈ s.root.leaves
  | .combine r s t => t.table = .empty ∧
    ∀ x, .var x ∈ t.root.leaves ↔ .var x ∈ r.root.leaves ∨ .var x ∈ s.root.leaves
  | .assign _ _ => True

variable {e : Event} {t : Tree} {x : Variable}

theorem value?_of_tree? (h : e.tree? = some t) : e.value? x = none := by
  cases e with
  | read | derive | combine => rfl
  | assign => cases h

theorem reading?_eq_some : e.reading? = some t ↔ e = .read t := by
  cases e <;> simp [reading?]

/-- The variables of a tree that was made from others are theirs. -/
theorem Lawful.exists_source (he : e.Lawful) (ht : e.tree? = some t) (hread : e ≠ .read t)
    (hx : t.HasVariable x) : ∃ s ∈ e.sources, s.HasVariable x := by
  cases e with
  | read =>
    cases ht
    exact absurd rfl hread
  | derive s u =>
    cases ht
    refine ⟨s, List.mem_singleton_self s, ?_⟩
    rw [Tree.HasVariable, he.1] at hx
    exact hx.imp_left (he.2 x)
  | combine r s u =>
    cases ht
    have hleaf : .var x ∈ t.root.leaves := by
      rw [Tree.HasVariable, he.1] at hx
      refine hx.resolve_right ?_
      intro ⟨l, hl⟩
      rw [VariableTable.lookup_empty] at hl
      cases hl
    cases (he.2 x).mp hleaf with
    | inl hr => exact ⟨r, by simp [sources], .inl hr⟩
    | inr hs => exact ⟨s, by simp [sources], .inl hs⟩
  | assign => cases ht

/-- Every variable of a tree that has been read is in its table. -/
theorem Lawful.exists_lookup (he : (read t).Lawful) (hx : t.HasVariable x) :
    ∃ l, l.name = x.name ∧ t.table.lookup l = some x := by
  have hl : ∃ l, t.table.lookup l = some x := hx.elim (he.2 x) id
  obtain ⟨l, hl⟩ := hl
  exact ⟨l, (he.1 l x hl).symm, hl⟩

end Event

namespace History

/-- The tree was made in the history. -/
def Made (h : History) (t : Tree) : Prop := ∃ e ∈ h, e.tree? = some t

/-- The trees that were read, the last one first. -/
def readings (h : History) : List Tree := h.filterMap Event.reading?

/-- The value last assigned to the record of a variable. -/
def lastValue (h : History) (x : Variable) : Option Bool := h.findSome? (Event.value? x)

/-- The tree was made from `s`, and perhaps from other trees. -/
inductive Descends (h : History) (s : Tree) : Tree → Prop
  | refl : Descends h s s
  | step {t u : Tree} {e : Event} (ht : Descends h s t) (he : e ∈ h) (hsource : t ∈ e.sources)
    (hu : e.tree? = some u) : Descends h s u

/-- The tree has the variable from one that was read and that it descends from. -/
def Inherits (h : History) (t : Tree) (x : Variable) : Prop :=
  ∃ s, .read s ∈ h ∧ s.HasVariable x ∧ h.Descends s t

variable {h : History} {e : Event} {s t : Tree} {x : Variable}

theorem mem_readings : t ∈ h.readings ↔ .read t ∈ h := by
  simp only [readings, List.mem_filterMap, Event.reading?_eq_some, exists_eq_right]

theorem Made.cons (ht : h.Made t) : Made (e :: h) t :=
  ht.imp fun _ hd => ⟨List.mem_cons_of_mem e hd.1, hd.2⟩

theorem Descends.cons (ht : h.Descends s t) : Descends (e :: h) s t := by
  induction ht with
  | refl => exact .refl
  | step _ he hsource hu ih => exact ih.step (List.mem_cons_of_mem _ he) hsource hu

theorem lastValue_cons_of_tree? (he : e.tree? = some t) :
    lastValue (e :: h) x = h.lastValue x := by
  rw [lastValue, List.findSome?_cons, Event.value?_of_tree? he, lastValue]

theorem lastValue_cons_assign {y : Variable} {value : Bool} :
    lastValue (.assign y value :: h) x = if y.id = x.id then some value else h.lastValue x := by
  rw [lastValue, List.findSome?_cons, Event.value?]
  by_cases hid : y.id = x.id
  · rw [if_pos hid, if_pos hid]
  · rw [if_neg hid, if_neg hid]
    rfl

theorem lastValue_eq_none (hx : ∀ y value, .assign y value ∈ h → y.id ≠ x.id) :
    h.lastValue x = none := by
  apply List.findSome?_eq_none_iff.mpr
  intro e he
  cases e with
  | read | derive | combine => rfl
  | assign y value => exact if_neg (hx y value he)

end History

namespace Session

open History

/-- What holds of every session: the trees in its slots were made in it, each variable of a tree
comes from one that was read, and the records tell what the history does. -/
structure Sound (k : Session) : Prop where
  slots : ∀ p ∈ k.workspace.slots, k.history.Made p.2
  lawful : ∀ e ∈ k.history, e.Lawful
  origin : ∀ {t x}, k.history.Made t → t.HasVariable x → k.history.Inherits t x
  apart : k.history.readings.Pairwise Tree.Apart
  recorded : ∀ {s x}, .read s ∈ k.history → s.HasVariable x →
    x.id < k.workspace.store.records.size ∧
      k.workspace.store.record x = ⟨x.name, k.history.lastValue x⟩
  assigned : ∀ {x value}, .assign x value ∈ k.history → x.id < k.workspace.store.records.size

namespace Sound

variable {w w' : Workspace} {h : History} {e : Event} {a target : String} {s t : Tree}
  {x : Variable}

theorem made_of_lookup (hk : Sound ⟨w, h⟩) (ha : w.slots.lookup a = some t) : h.Made t := by
  obtain ⟨_, _, hslots, -⟩ := List.lookup_eq_some_iff.mp ha
  apply hk.slots (a, t)
  rw [hslots]
  exact List.mem_append_right _ List.mem_cons_self

/-- The record of a variable has its name and the last value. -/
theorem recorded_of_made {k : Session} (hk : k.Sound) (ht : k.history.Made t)
    (hx : t.HasVariable x) : x.id < k.workspace.store.records.size ∧
      k.workspace.store.record x = ⟨x.name, k.history.lastValue x⟩ := by
  obtain ⟨s, hs, hsx, -⟩ := hk.origin ht hx
  exact hk.recorded hs hsx

theorem start : Sound start where
  slots := by simp [Session.start, Workspace.empty]
  lawful := by simp [Session.start]
  origin := by simp [Session.start, Made]
  apart := List.Pairwise.nil
  recorded := by simp [Session.start]
  assigned := by simp [Session.start]

theorem idle (hk : Sound ⟨w, h⟩) (hstore : w'.store = w.store) (hslots : w'.slots = w.slots) :
    Sound ⟨w', h⟩ where
  slots := by
    rw [hslots]
    exact hk.slots
  lawful := hk.lawful
  origin := hk.origin
  apart := hk.apart
  recorded := by
    rw [hstore]
    exact hk.recorded
  assigned := by
    rw [hstore]
    exact hk.assigned

theorem made_of_mem_placed (hk : Sound ⟨w, h⟩) (he : e.tree? = some t) {p : String × Tree}
    (hp : p ∈ (w.placed target t).slots) : Made (e :: h) p.2 := by
  cases List.mem_cons.mp hp with
  | inl hnew =>
    rw [hnew]
    exact ⟨e, List.mem_cons_self, he⟩
  | inr hold => exact (hk.slots p (List.mem_filter.mp hold).1).cons

theorem lawful_cons (hk : Sound ⟨w, h⟩) (he : e.Lawful) : ∀ d ∈ e :: h, d.Lawful :=
  List.forall_mem_cons.mpr ⟨he, hk.lawful⟩

/-- Only the tree that was just made needs a new argument about where its variables come from. -/
theorem origin_cons (hk : Sound ⟨w, h⟩)
    (hnew : e.tree? = some t → t.HasVariable x → Inherits (e :: h) t x)
    (ht : Made (e :: h) t) (hx : t.HasVariable x) : Inherits (e :: h) t x := by
  obtain ⟨d, hd, hdt⟩ := ht
  cases List.mem_cons.mp hd with
  | inl hde =>
    rw [hde] at hdt
    exact hnew hdt hx
  | inr hold =>
    obtain ⟨s, hs, hsx, hdescends⟩ := hk.origin ⟨d, hold, hdt⟩ hx
    exact ⟨s, List.mem_cons_of_mem e hs, hsx, hdescends.cons⟩

/-- Reading makes new records and leaves those that are there. -/
theorem read (hk : Sound ⟨w, h⟩) {final : Store} (ht : t.Fresh w.store final) :
    Sound ⟨{ w with store := final }.placed target t, .read t :: h⟩ := by
  have hgrows : w.store.records.size ≤ final.records.size := ht.binding.grows
  have hlawful : (Event.read t).Lawful := ⟨ht.binding.named, fun x hx => ht.bound hx⟩
  have hnew : ∀ {x}, t.HasVariable x → w.store.records.size ≤ x.id ∧
      x.id < final.records.size ∧ final.record x = .fresh x.name := by
    intro x hx
    obtain ⟨l, -, hl⟩ := hlawful.exists_lookup hx
    exact ht.binding.new hl
  constructor
  · intro p hp
    exact hk.made_of_mem_placed rfl hp
  · exact hk.lawful_cons hlawful
  · intro u x
    apply hk.origin_cons
    intro hu hx
    cases hu
    exact ⟨t, List.mem_cons_self, hx, .refl⟩
  · show (t :: h.readings).Pairwise Tree.Apart
    refine List.pairwise_cons.mpr ⟨?_, hk.apart⟩
    intro s hs x y hx hy
    have hold := (hk.recorded (mem_readings.mp hs) hy).1
    have hfresh := (hnew hx).1
    exact Nat.ne_of_gt (Nat.lt_of_lt_of_le hold hfresh)
  · intro s x hs hx
    rw [lastValue_cons_of_tree? (t := t) rfl]
    cases List.mem_cons.mp hs with
    | inl hst =>
      cases hst
      obtain ⟨hfresh, hlt, hrecord⟩ := hnew hx
      have hnone : h.lastValue x = none := by
        apply lastValue_eq_none
        intro y value hy
        exact Nat.ne_of_lt (Nat.lt_of_lt_of_le (hk.assigned hy) hfresh)
      rw [hnone]
      exact ⟨hlt, hrecord⟩
    | inr hold =>
      obtain ⟨hlt, hrecord⟩ := hk.recorded hold hx
      refine ⟨Nat.lt_of_lt_of_le hlt hgrows, ?_⟩
      rw [← hrecord]
      exact ht.binding.kept hlt
  · intro x value hx
    cases List.mem_cons.mp hx with
    | inl hread => cases hread
    | inr hold => exact Nat.lt_of_lt_of_le (hk.assigned hold) hgrows

/-- A tree made from others changes no record and brings no variable of its own. -/
theorem place (hk : Sound ⟨w, h⟩) (ht : e.tree? = some t) (hread : e.reading? = none)
    (hlawful : e.Lawful) (hsources : ∀ s ∈ e.sources, h.Made s) :
    Sound ⟨w.placed target t, e :: h⟩ := by
  have hne : ∀ {s}, .read s ≠ e := by
    intro s hs
    rw [← hs] at hread
    cases hread
  have hmem : ∀ {s}, .read s ∈ e :: h → .read s ∈ h :=
    fun hs => (List.mem_cons.mp hs).resolve_left hne
  constructor
  · intro p hp
    exact hk.made_of_mem_placed ht hp
  · exact hk.lawful_cons hlawful
  · intro u x
    apply hk.origin_cons
    intro hu hx
    obtain ⟨r, hr, hrx⟩ := hlawful.exists_source hu hne.symm hx
    obtain ⟨s, hs, hsx, hdescends⟩ := hk.origin (hsources r hr) hrx
    exact ⟨s, List.mem_cons_of_mem e hs, hsx, hdescends.cons.step List.mem_cons_self hr hu⟩
  · show (List.filterMap Event.reading? (e :: h)).Pairwise Tree.Apart
    rw [List.filterMap_cons_none hread]
    exact hk.apart
  · intro s x hs hx
    rw [lastValue_cons_of_tree? ht]
    exact hk.recorded (hmem hs) hx
  · intro x value hx
    cases List.mem_cons.mp hx with
    | inl hassign =>
      rw [← hassign] at ht
      cases ht
    | inr hold => exact hk.assigned hold

/-- An assignment goes to a record that exists, and is the last for it. -/
theorem assign (hk : Sound ⟨w, h⟩) {l : Letter} {value : Bool}
    (ha : w.slots.lookup a = some t) (hx : t.table.lookup l = some x) :
    Sound ⟨{ w with store := w.store.assign x value }, .assign x value :: h⟩ := by
  have hsize : (w.store.assign x value).records.size = w.store.records.size :=
    Array.size_modify ..
  have hmem : ∀ {s}, .read s ∈ .assign x value :: h → .read s ∈ h :=
    fun hs => (List.mem_cons.mp hs).resolve_left Event.noConfusion
  constructor
  · intro p hp
    exact (hk.slots p hp).cons
  · exact hk.lawful_cons trivial
  · intro u y
    apply hk.origin_cons
    intro hu
    cases hu
  · exact hk.apart
  · intro s y hs hy
    obtain ⟨hlt, hrecord⟩ := hk.recorded (hmem hs) hy
    show y.id < (w.store.assign x value).records.size ∧
      (w.store.assign x value).record y = _
    refine ⟨Nat.lt_of_lt_of_eq hlt hsize.symm, ?_⟩
    rw [Store.record_assign hlt, hrecord, lastValue_cons_assign]
    split <;> rfl
  · intro y v hy
    refine Nat.lt_of_lt_of_eq ?_ hsize.symm
    cases List.mem_cons.mp hy with
    | inl hassign =>
      cases hassign
      exact (hk.recorded_of_made (hk.made_of_lookup ha) (.inr ⟨l, hx⟩)).1
    | inr hold => exact hk.assigned hold

section shared

variable {k : Session} {u : Tree} {y : Variable}

end shared

end Sound

theorem sound_run (cs : List Command) : (run cs).Sound := by
  apply run_induction Sound.start
  intro w w' e h hk hchanges
  cases hchanges with
  | idle hstore hslots => exact hk.idle hstore hslots
  | read ht => exact hk.read ht
  | @derive _ _ s t ha htable hroot =>
    have hlawful : (Event.derive s t).Lawful := ⟨htable, fun _ => hroot⟩
    apply hk.place rfl rfl hlawful
    exact List.forall_mem_singleton.mpr (hk.made_of_lookup ha)
  | @combine _ _ _ r s t ha hb htable hroot =>
    have hlawful : (Event.combine r s t).Lawful := ⟨htable, fun _ => hroot⟩
    apply hk.place rfl rfl hlawful
    have hr := hk.made_of_lookup ha
    have hs := hk.made_of_lookup hb
    exact List.forall_mem_cons.mpr ⟨hr, List.forall_mem_singleton.mpr hs⟩
  | assign ha hx => exact hk.assign ha hx

theorem run_append (cs ds : List Command) : run (cs ++ ds) = ds.foldl perform (run cs) :=
  List.foldl_append

end Session
end PolishLogic
