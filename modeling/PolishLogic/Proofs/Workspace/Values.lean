import PolishLogic.Proofs.Formula.Word
import PolishLogic.Proofs.Normalization.Relabel
import PolishLogic.Workspace

/-! # What the values of variables change

Nothing but the answers that show them. A workspace whose values are forgotten makes the same
steps (`Workspace.forget_perform`, `Workspace.forget_step`), and an assignment is forgotten with
them (`Workspace.forget_act_of_assigns`). So a run comes to the same, rewrites logged included,
wherever values are assigned in it (`Workspace.outcomes_without_values`). -/

namespace PolishLogic

namespace Logged

variable {μ ε δ α β : Type}

theorem mapError_map (g : ε → δ) (f : α → β) (x : Logged μ ε α) :
    (f <$> x).mapError g = f <$> x.mapError g := by
  obtain ⟨log, e | a⟩ := x <;> rfl

end Logged

namespace Store

/-- The store with the records as they were made. -/
def forget (s : Store) : Store := ⟨s.records.map fun r => .fresh r.name⟩

theorem forget_create (s : Store) (name : String) :
    s.forget.create name = ((s.create name).1, (s.create name).2.forget) := by
  simp [create, forget, Record.fresh]

theorem forget_assign (s : Store) (x : Variable) (value : Bool) :
    (s.assign x value).forget = s.forget := by
  refine congrArg Store.mk (Array.ext ?_ ?_)
  · simp [assign]
  · intro i hi hi'
    simp only [assign, Array.getElem_map, Array.getElem_modify]
    split <;> rfl

end Store

namespace Binding

/-- A binding whose records are as they were made. -/
def forget (b : Binding) : Binding := { b with store := b.store.forget }

theorem intern_forget (l : Letter) (b : Binding) :
    intern l b.forget = ((intern l b).1, (intern l b).2.forget) := by
  have htable : b.forget.table = b.table := rfl
  unfold intern
  rw [htable]
  cases b.table.lookup l with
  | some x => rfl
  | none => simp only [forget, Store.forget_create]

theorem mapM_intern_forget (f : Formula Letter) (b : Binding) :
    f.mapM intern b.forget = ((f.mapM intern b).1, (f.mapM intern b).2.forget) := by
  induction f generalizing b with
  | hole | const => rfl
  | var l => exact congrArg (Prod.map Formula.var id) (intern_forget l b)
  | unary op c ih => exact congrArg (Prod.map (Formula.unary op) id) (ih b)
  | binary op l r ihl ihr =>
    show Prod.map (Formula.binary op (l.mapM intern b.forget).1) id
      (r.mapM intern (l.mapM intern b.forget).2) = _
    rw [ihl]
    exact congrArg (Prod.map (Formula.binary op (l.mapM intern b).1) id) (ihr _)

end Binding

namespace Tree

variable (level : Level) (store : Store) (source : Source)

/-- The variables of a tree are chosen by letters only, not by what was assigned. -/
theorem ofFormula_forget (f : Formula Letter) :
    ofFormula f store.forget = Prod.map id Store.forget (ofFormula f store) :=
  congrArg (fun p : Formula Variable × Binding => (Tree.mk p.1 p.2.table, p.2.store))
    (Binding.mapM_intern_forget f ⟨store, .empty⟩)

theorem parse_forget :
    parse level store.forget source = Prod.map id Store.forget <$> parse level store source := by
  unfold parse
  simp only [map_bind]
  cases source.read with
  | error e => simp only [map_bind]; rfl
  | ok f => simp only [ofFormula_forget, map_bind]; rfl

/-- Values are not looked at, so they can be forgotten before or after reading. -/
theorem parseNnf_forget :
    parseNnf level store.forget source =
      Prod.map id Store.forget <$> parseNnf level store source := by
  unfold parseNnf
  simp only [map_bind, parse_forget, Logged.mapError_map, bind_map_left]
  rfl

end Tree

namespace Command

/-- Whether a command assigns a value. -/
def assigns : Command → Bool
  | .assign .. => true
  | _ => false

/-- The reply shows what the records of variables hold. -/
def showsValues : Command → Bool
  | .table _ | .leaves _ | .describe _ => true
  | _ => false

end Command

namespace Workspace

/-- A workspace without its values. -/
def forget (w : Workspace) : Workspace := { w with store := w.store.forget }

/-- A command that does not show values and assigns none does the same without them. -/
theorem forget_perform (w : Workspace) {c : Command} (ha : c.assigns = false)
    (hs : c.showsValues = false) :
    w.forget.perform c = Prod.map id forget <$> w.perform c := by
  cases c with
  | assign => cases ha
  | table | leaves | describe => cases hs
  | parse =>
    simp only [perform, map_bind]
    show (Tree.parse w.level w.store.forget _).mapError _ >>= _ = _
    rw [Tree.parse_forget, Logged.mapError_map, bind_map_left]
    rfl
  | parseNnf =>
    simp only [perform, map_bind]
    show (Tree.parseNnf w.level w.store.forget _).mapError _ >>= _ = _
    rw [Tree.parseNnf_forget, Logged.mapError_map, bind_map_left]
    rfl
  | setLevel => rfl
  | nnf | duplicate | negate | rule | combine | compare | sameVariable | isNnf | view =>
    simp only [perform, map_bind]
    rfl
  | descend a path target =>
    simp only [perform, map_bind]
    show w.slot a >>= _ = _
    congr 1
    funext t
    cases t.root.descend path.toList <;> rfl

theorem forget_step (w : Workspace) {c : Command} (ha : c.assigns = false)
    (hs : c.showsValues = false) : w.forget.step c = ((w.step c).1, (w.step c).2.forget) := by
  unfold step
  rw [forget_perform w ha hs, Logged.map_eq]
  obtain ⟨log, e | ⟨reply, w'⟩⟩ := w.perform c <;> rfl

theorem step_of_showsValues (w : Workspace) {c : Command} (hs : c.showsValues = true) :
    (w.step c).2 = w := by
  cases c with
  | table a | leaves a | describe a =>
    simp only [step, perform, slot]
    cases w.slots.lookup a <;> rfl
  | _ => cases hs

theorem forget_step_of_assigns (w : Workspace) {c : Command} (ha : c.assigns = true) :
    (w.step c).2.forget = w.forget := by
  cases c with
  | assign a letter value =>
    simp only [step, perform, slot, letterOf]
    cases w.slots.lookup a with
    | none => rfl
    | some t =>
      cases ht : t.table.lookupName letter with
      | none => simp [ht, Logged.fail]
      | some x => simp [ht, forget, Store.forget_assign]
  | _ => cases ha

end Workspace

/-- What is done in a workspace: a command, or an assignment to some variable. -/
inductive Action where
  | command (c : Command)
  | assign (x : Variable) (value : Bool)
  deriving DecidableEq, Repr

namespace Action

def assigns : Action → Bool
  | command c => c.assigns
  | assign .. => true

/-- The action neither changes nor shows what the records of variables hold. -/
def ignoresValues : Action → Bool
  | command c => !c.assigns && !c.showsValues
  | assign .. => false

theorem ignoresValues_of_assigns {a : Action} (ha : a.assigns = true) :
    a.ignoresValues = false := by
  cases a with
  | assign => rfl
  | command c =>
    have hc : c.assigns = true := ha
    rw [ignoresValues, hc]
    rfl

end Action

namespace Workspace

/-- The answer to an action and the workspace after it. -/
def act (w : Workspace) : Action → Logged String WorkspaceError Reply × Workspace
  | .command c => w.step c
  | .assign x value => (pure .done, { w with store := w.store.assign x value })

/-- The actions of a run, each with what it logs and the answer to it. -/
def answers (w : Workspace) :
    List Action → List (Action × Logged String WorkspaceError Reply)
  | [] => []
  | a :: as => (a, (w.act a).1) :: (w.act a).2.answers as

/-- The workspace after some actions. -/
def after (w : Workspace) : List Action → Workspace
  | [] => w
  | a :: as => (w.act a).2.after as

/-- Any action but an assignment does the same to the rest of the workspace, and the answer is the
same unless it shows values. -/
theorem forget_act (w : Workspace) {a : Action} (ha : a.assigns = false) :
    (w.forget.act a).2 = (w.act a).2.forget ∧
      (a.ignoresValues = true → (w.forget.act a).1 = (w.act a).1) := by
  cases a with
  | assign => cases ha
  | command c =>
    show (w.forget.step c).2 = (w.step c).2.forget ∧
      (_ → (w.forget.step c).1 = (w.step c).1)
    cases hs : c.showsValues with
    | false =>
      rw [w.forget_step ha hs]
      exact ⟨rfl, fun _ => rfl⟩
    | true =>
      rw [step_of_showsValues _ hs, step_of_showsValues _ hs]
      refine ⟨rfl, fun hi => ?_⟩
      simp [Action.ignoresValues, hs] at hi

theorem forget_act_of_assigns (w : Workspace) {a : Action} (ha : a.assigns = true) :
    (w.act a).2.forget = w.forget := by
  cases a with
  | command c => exact w.forget_step_of_assigns ha
  | assign x value =>
    exact congrArg (Workspace.mk · w.level w.slots) (w.store.forget_assign x value)

/-- A run and the one without values and assignments differ in no answer but those that have to
do with values. -/
theorem forget_run (w : Workspace) (as : List Action) :
    (w.forget.answers (as.filter (!·.assigns))).filter (·.1.ignoresValues) =
        (w.answers as).filter (·.1.ignoresValues) ∧
      w.forget.after (as.filter (!·.assigns)) = (w.after as).forget := by
  induction as generalizing w with
  | nil => exact ⟨rfl, rfl⟩
  | cons a as ih =>
    obtain ⟨hanswers, hafter⟩ := ih (w.act a).2
    cases ha : a.assigns with
    | true =>
      have hi := Action.ignoresValues_of_assigns ha
      rw [w.forget_act_of_assigns ha] at hanswers hafter
      rw [List.filter_cons_of_neg (by simp [ha]), answers, List.filter_cons_of_neg (by simp [hi]),
        after]
      exact ⟨hanswers, hafter⟩
    | false =>
      obtain ⟨hnext, hanswer⟩ := w.forget_act ha
      rw [← hnext] at hanswers hafter
      rw [List.filter_cons_of_pos (by simp [ha]), answers, answers, after, after]
      refine ⟨?_, hafter⟩
      cases hi : a.ignoresValues with
      | true =>
        rw [List.filter_cons_of_pos (by simp [hi]), List.filter_cons_of_pos (by simp [hi]),
          hanswers, hanswer hi]
      | false =>
        rw [List.filter_cons_of_neg (by simp [hi]), List.filter_cons_of_neg (by simp [hi]),
          hanswers]

/-- Formulas that are alike are written alike, and the check, a copy and a conversion come to
alike ends, with the same error if they fail, and with one log. So assignments to variables, put
anywhere into a run or taken out of it, change nothing of what is logged and answered but the
answers that show values. -/
theorem outcomes_without_values :
    (∀ {α β : Type} [Named α] [Named β] {f : Formula α} {g : Formula β}, f.alike g = true →
      f.render = g.render ∧ f.isNnf = g.isNnf ∧
        Except.Related (fun f g => f.alike g = true) f.duplicate g.duplicate ∧
          ∀ level : Level, (f.toNnf level).log = (g.toNnf level).log ∧
            Except.Related (fun f g => f.alike g = true) (f.toNnf level).result
              (g.toNnf level).result) ∧
    ∀ {as bs : List Action}, as.filter (!·.assigns) = bs.filter (!·.assigns) → ∀ w : Workspace,
      (w.answers as).filter (·.1.ignoresValues) = (w.answers bs).filter (·.1.ignoresValues) ∧
        (w.after as).slots = (w.after bs).slots := by
  constructor
  · intro α β _ _ f g h
    have hname := Formula.alike_iff.mp h
    refine ⟨Formula.render_eq_of_map_name_eq hname, ?_, Formula.related_duplicate h,
      Formula.related_toNnf h⟩
    rw [← Formula.isNnf_map Named.name f, hname, Formula.isNnf_map]
  · intro as bs h w
    obtain ⟨hanswers, hafter⟩ := w.forget_run as
    obtain ⟨hanswers', hafter'⟩ := w.forget_run bs
    rw [h] at hanswers hafter
    refine ⟨hanswers.symm.trans hanswers', ?_⟩
    show (w.after as).forget.slots = (w.after bs).forget.slots
    rw [← hafter, hafter']

/-- A corrupted formula over letters and one over variables; and a conversion that is traced
with values assigned before and after it, through a table and from outside, and without. -/
theorem outcomes_without_values_corrupted_and_traced :
    (let f : Formula Letter :=
      (Formula.binary .xor (.unary .and (.var ⟨0⟩)) (.binary .imply (.var ⟨1⟩) .hole)).neg
     let g : Formula Variable :=
      (Formula.binary .xor (.unary .and (.var ⟨7, "A"⟩)) (.binary .imply (.var ⟨7, "B"⟩) .hole)).neg
     f.alike g = true ∧ f.render = g.render ∧
      Except.Related (fun f g => f.alike g = true) f.duplicate g.duplicate ∧
        (f.toNnf .debug).log = (g.toNnf .debug).log) ∧
    (let as : List Action := [.command (.setLevel .debug), .command (.parse (.text "AB^") "p"),
      .command (.assign "p" "A" true), .command (.nnf "p" "n"), .assign ⟨1, "B"⟩ true,
      .command (.compare "p" "n"), .command (.leaves "n")]
     let bs : List Action := [.command (.setLevel .debug), .command (.parse (.text "AB^") "p"),
      .command (.nnf "p" "n"), .command (.compare "p" "n"), .command (.leaves "n")]
     as.filter (!·.assigns) = bs.filter (!·.assigns) ∧
      (empty.answers as).filter (·.1.ignoresValues) =
        (empty.answers bs).filter (·.1.ignoresValues)) := by
  constructor
  · intro f g
    have halike : f.alike g = true := by decide
    obtain ⟨hrender, -, hduplicate, hnnf⟩ := outcomes_without_values.1 halike
    exact ⟨halike, hrender, hduplicate, (hnnf .debug).1⟩
  · intro as bs
    have hfilter : as.filter (!·.assigns) = bs.filter (!·.assigns) := rfl
    exact ⟨hfilter, (outcomes_without_values.2 hfilter empty).1⟩

end Workspace
end PolishLogic
