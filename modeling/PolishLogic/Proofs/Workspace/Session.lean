import PolishLogic.Proofs.Formula.Position
import PolishLogic.Proofs.Reading.Freshness

/-! # Sessions

A session is a workspace together with the history of what the commands performed in it have
done. `Workspace.Changes` lists what a command can do: it reads a tree with new variables, makes
a tree from one or two others without changing their variables, assigns a value to a variable
of a table, or leaves the trees and the records alone. `Workspace.changes_of_perform` says that
it does no more, and `Session.run_induction` carries what every change keeps over a whole run. -/

namespace PolishLogic

/-- Normalization gives a formula no leaves that it did not have and takes none away. -/
theorem Formula.mem_leaves_toNnf {α : Type} [Named α] {f g : Formula α} {level : Level}
    (h : (f.toNnf level).result = .ok g) {d : Leaf α} : d ∈ g.leaves ↔ d ∈ f.leaves := by
  have hnormalize := h
  rw [result_toNnf] at hnormalize
  have hf : f.Intact := intact_of_normalize hnormalize
  rw [result_toNnf_of_intact hf] at h
  cases h
  exact mem_leaves_polar hf true

theorem VariableTable.exists_lookup {t : VariableTable} {s : String} {x : Variable}
    (h : t.lookupName s = some x) : ∃ l, t.lookup l = some x := by
  unfold lookupName at h
  split at h
  · obtain ⟨l, -, hl⟩ := Option.bind_eq_some_iff.mp h
    exact ⟨l, hl⟩
  · cases h

/-- What a command has done. -/
inductive Event where
  /-- A tree was read, and perhaps brought to normal form. -/
  | read (t : Tree)
  /-- A tree was made from another one: its normal form, a copy, its negation or a part. -/
  | derive (source t : Tree)
  /-- A tree was put together from two, by a connective or by a rule. -/
  | combine (lhs rhs t : Tree)
  | assign (x : Variable) (value : Bool)
  deriving DecidableEq, Repr

namespace Workspace

/-- What a command that was answered with a reply has done to trees or records, if anything. -/
def event? (w : Workspace) : Command → Reply → Option Event
  | .parse _ _, .tree t | .parseNnf _ _, .tree t => some (.read t)
  | .nnf a _, .tree t | .duplicate a _, .tree t | .negate a _, .tree t
  | .descend a _ _, .tree t => (w.slots.lookup a).map (.derive · t)
  | .rule _ a b _, .tree t | .combine _ a b _, .tree t =>
    (w.slots.lookup a).bind fun r => (w.slots.lookup b).map (.combine r · t)
  | .assign a letter value, _ =>
    ((w.slots.lookup a).bind (·.table.lookupName letter)).map (.assign · value)
  | _, _ => none

/-- The workspace with a tree in one of its slots. -/
def placed (w : Workspace) (target : String) (t : Tree) : Workspace :=
  { w with slots := (target, t) :: w.slots.filter (·.1 != target) }

/-- The changes that come of the commands, by what they have done. -/
inductive Changes (w : Workspace) : Option Event → Workspace → Prop
  | idle {w' : Workspace} (hstore : w'.store = w.store) (hslots : w'.slots = w.slots) :
    Changes w none w'
  | read {target : String} {t : Tree} {final : Store} (h : t.Fresh w.store final) :
    Changes w (some (.read t)) ({ w with store := final }.placed target t)
  | derive {a target : String} {s t : Tree} (ha : w.slots.lookup a = some s)
    (htable : t.table = s.table)
    (hroot : ∀ {x}, Formula.Leaf.var x ∈ t.root.leaves → Formula.Leaf.var x ∈ s.root.leaves) :
    Changes w (some (.derive s t)) (w.placed target t)
  | combine {a b target : String} {r s t : Tree} (ha : w.slots.lookup a = some r)
    (hb : w.slots.lookup b = some s) (htable : t.table = .empty)
    (hroot : ∀ {x}, Formula.Leaf.var x ∈ t.root.leaves ↔
      Formula.Leaf.var x ∈ r.root.leaves ∨ Formula.Leaf.var x ∈ s.root.leaves) :
    Changes w (some (.combine r s t)) (w.placed target t)
  | assign {a : String} {t : Tree} {l : Letter} {x : Variable} {value : Bool}
    (ha : w.slots.lookup a = some t) (hx : t.table.lookup l = some x) :
    Changes w (some (.assign x value)) { w with store := w.store.assign x value }

variable {w w' : Workspace} {reply : Reply}

theorem slot_eq_ok {a : String} {t : Tree} :
    (w.slot a).result = .ok t ↔ w.slots.lookup a = some t := by
  unfold slot
  split
  · next h => simp [h, Logged.fail]
  · next h => simp [h]

theorem letterOf_eq_ok {t : Tree} {letter : String} {x : Variable} :
    (letterOf t letter).result = .ok x ↔ t.table.lookupName letter = some x := by
  unfold letterOf
  split
  · next h => simp [h, Logged.fail]
  · next h => simp [h]

theorem formulaResult_eq_ok {α : Type} {x : Except FormulaError α} {a : α} :
    (formulaResult x).result = .ok a ↔ x = .ok a := Except.mapError_eq_ok

/-- A command that succeeds changes the workspace as its event says. -/
theorem changes_of_perform {c : Command} (h : (w.perform c).result = .ok (reply, w')) :
    w.Changes (w.event? c reply) w' := by
  cases c <;> simp only [perform, Logged.result_bind, Except.bind_eq_ok, Logged.result_mapError,
    Except.mapError_eq_ok, slot_eq_ok, letterOf_eq_ok, formulaResult_eq_ok] at h
  case parse =>
    obtain ⟨⟨t, final⟩, ht, h⟩ := h
    cases h
    exact .read (Tree.fresh_of_parse ht)
  case parseNnf =>
    obtain ⟨⟨t, final⟩, ht, h⟩ := h
    cases h
    exact .read (Tree.fresh_of_parseNnf ht)
  case nnf =>
    obtain ⟨s, ha, root, hroot, h⟩ := h
    cases h
    simp only [event?, ha]
    exact .derive ha rfl (Formula.mem_leaves_toNnf hroot).mp
  case duplicate =>
    obtain ⟨s, ha, root, hroot, h⟩ := h
    cases h
    simp only [event?, ha]
    rw [Formula.eq_of_duplicate hroot]
    exact .derive ha rfl id
  case negate =>
    obtain ⟨s, ha, h⟩ := h
    cases h
    simp only [event?, ha]
    exact .derive ha rfl id
  case rule =>
    obtain ⟨r, ha, s, hb, root, hroot, h⟩ := h
    cases h
    simp only [event?, ha, hb]
    rw [Rule.eq_image_of_apply hroot]
    exact .combine ha hb rfl Rule.mem_leaves_image
  case combine =>
    obtain ⟨r, ha, s, hb, root, hroot, h⟩ := h
    cases h
    simp only [event?, ha, hb]
    rw [(Formula.mkBinary_eq_ok.mp hroot).2]
    refine .combine ha hb rfl ?_
    intro x
    rw [Formula.leaves_binary, List.mem_append]
  case descend path _ =>
    obtain ⟨s, ha, h⟩ := h
    cases hpath : s.root.descend path.toList with
    | none =>
      rw [hpath] at h
      cases h
    | some root =>
      rw [hpath] at h
      cases h
      simp only [event?, ha]
      exact .derive ha rfl (Formula.mem_leaves_of_descend hpath)
  case assign =>
    obtain ⟨t, ha, x, hx, h⟩ := h
    cases h
    obtain ⟨l, hl⟩ := VariableTable.exists_lookup hx
    simp only [event?, ha, Option.bind_some, hx]
    exact .assign ha hl
  case compare =>
    obtain ⟨r, ha, s, hb, h⟩ := h
    cases h
    exact .idle rfl rfl
  case sameVariable =>
    obtain ⟨r, ha, s, hb, x, hx, y, hy, h⟩ := h
    cases h
    exact .idle rfl rfl
  case setLevel =>
    cases h
    exact .idle rfl rfl
  case table | leaves | isNnf | view | describe =>
    obtain ⟨t, ha, h⟩ := h
    cases h
    exact .idle rfl rfl

end Workspace

/-- What has been done in a workspace, the last event first. -/
abbrev History := List Event

/-- A workspace and how it came about. -/
structure Session where
  workspace : Workspace
  history : History

namespace Session

def start : Session := ⟨.empty, []⟩

/-- Performs a command in a session; one that fails adds nothing to the history. -/
def perform (k : Session) (c : Command) : Session where
  workspace := (k.workspace.step c).2
  history := match (k.workspace.step c).1.result with
    | .error _ => k.history
    | .ok reply => (k.workspace.event? c reply).toList ++ k.history

/-- The session that some commands lead to. -/
def run (cs : List Command) : Session := cs.foldl perform start

/-- A command is one event or none, and changes the workspace accordingly. -/
theorem changes_perform (k : Session) (c : Command) :
    ∃ e : Option Event, k.workspace.Changes e (k.perform c).workspace ∧
      (k.perform c).history = e.toList ++ k.history := by
  unfold perform Workspace.step
  split
  · exact ⟨none, .idle rfl rfl, rfl⟩
  · next reply w h =>
    have hresult : (k.workspace.perform c).result = .ok (reply, w) := by rw [h]
    exact ⟨_, Workspace.changes_of_perform hresult, rfl⟩

/-- What holds at the start and is kept by every change holds after every run. -/
theorem run_induction {P : Session → Prop} (hstart : P start)
    (hstep : ∀ {w w' e h}, P ⟨w, h⟩ → w.Changes e w' → P ⟨w', e.toList ++ h⟩)
    (cs : List Command) : P (run cs) := by
  have hperform : ∀ k c, P k → P (k.perform c) := by
    intro k c hk
    obtain ⟨e, hchanges, hhistory⟩ := changes_perform k c
    have hnext := hstep hk hchanges
    rw [← hhistory] at hnext
    exact hnext
  have hfold : ∀ k, P k → P (cs.foldl perform k) := by
    induction cs with
    | nil => exact fun _ hk => hk
    | cons c cs ih => exact fun k hk => ih (k.perform c) (hperform k c hk)
  exact hfold start hstart

end Session
end PolishLogic
