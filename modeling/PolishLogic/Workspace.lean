import PolishLogic.Description
import PolishLogic.Conversion

/-! # Workspaces

A workspace holds trees in named slots, the store with the records of all their variables, and
the level at which conversions log. Commands read slots and may write one. A command that
fails leaves the workspace as it was. -/

namespace PolishLogic

/-- Trees in slots, and the records that they share. -/
structure Workspace where
  store : Store
  level : Level
  slots : List (String × Tree)

/-- Why a command fails. -/
inductive WorkspaceError where
  | noSlot
  | noLetter
  | noPath
  | conversion (e : ConversionError)
  deriving DecidableEq, Repr

/-- Commands name the slots they read `a` and `b` and the slot they write `target`. -/
inductive Command where
  | parse (source : Source) (target : String)
  | parseNnf (source : Source) (target : String)
  | nnf (a target : String)
  | duplicate (a target : String)
  | negate (a target : String)
  | rule (rule : Rule) (a b target : String)
  | combine (op : Connective) (a b target : String)
  | descend (a path target : String)
  | assign (a letter : String) (value : Bool)
  | table (a : String)
  | leaves (a : String)
  | compare (a b : String)
  | sameVariable (a b letter : String)
  | isNnf (a : String)
  | view (a : String)
  | describe (a : String)
  | setLevel (level : Level)
  deriving DecidableEq, Repr

inductive Reply where
  | tree (t : Tree)
  | done
  | table (entries : List (Letter × Record))
  | leaves (leaves : List (Formula.Leaf Record))
  | comparison (roots trees : Bool)
  | truth (b : Bool)
  | text (s : String)
  deriving DecidableEq, Repr

/-- The part of a formula at the end of a path of `c` for the child of a unary node and `l` and
`r` for the operands of a binary one. -/
def Formula.descend {α : Type} : Formula α → List Char → Option (Formula α)
  | f, [] => some f
  | .unary _ c, 'c' :: path => c.descend path
  | .binary _ l _, 'l' :: path => l.descend path
  | .binary _ _ r, 'r' :: path => r.descend path
  | _, _ :: _ => none

def Formula.Leaf.map {α β : Type} (g : α → β) : Formula.Leaf α → Formula.Leaf β
  | .const b => .const b
  | .var x => .var (g x)

/-- The variable a table has for a text that is a letter. -/
def VariableTable.lookupName (t : VariableTable) (s : String) : Option Variable :=
  match s.toList with
  | [c] => (Letter.ofChar? c).bind t.lookup
  | _ => none

namespace Workspace

abbrev Run := Logged String WorkspaceError (Reply × Workspace)

def empty : Workspace := ⟨.empty, .info, []⟩

/-- The tree in a slot. -/
def slot (w : Workspace) (name : String) : Logged String WorkspaceError Tree :=
  match w.slots.lookup name with
  | none => .fail .noSlot
  | some t => pure t

/-- Writes a tree to a slot and answers with it. -/
def put (w : Workspace) (target : String) (t : Tree) : Run :=
  return (.tree t, { w with slots := (target, t) :: w.slots.filter (·.1 != target) })

/-- The variable that a tree has for a letter. -/
def letterOf (t : Tree) (letter : String) : Logged String WorkspaceError Variable :=
  match t.table.lookupName letter with
  | none => .fail .noLetter
  | some x => pure x

def formulaResult {α : Type} (x : Except FormulaError α) :
    Logged String WorkspaceError α :=
  .ofExcept (x.mapError fun e => .conversion (.formula e))

def perform (w : Workspace) : Command → Run
  | .parse source target => do
    let (t, store) ← (Tree.parse w.level w.store source).mapError fun e => .conversion (.parse e)
    { w with store := store }.put target t
  | .parseNnf source target => do
    let (t, store) ← (Tree.parseNnf w.level w.store source).mapError .conversion
    { w with store := store }.put target t
  | .nnf a target => do
    let t ← w.slot a
    let root ← (t.root.toNnf w.level).mapError fun e => .conversion (.formula e)
    w.put target { t with root := root }
  | .duplicate a target => do
    let t ← w.slot a
    let root ← formulaResult t.root.duplicate
    w.put target { t with root := root }
  | .negate a target => do
    let t ← w.slot a
    w.put target { t with root := t.root.neg }
  | .rule rule a b target => do
    let s ← w.slot a
    let t ← w.slot b
    let root ← formulaResult (rule.apply s.root t.root)
    w.put target ⟨root, .empty⟩
  | .combine op a b target => do
    let s ← w.slot a
    let t ← w.slot b
    let root ← formulaResult (Formula.mkBinary op s.root t.root)
    w.put target ⟨root, .empty⟩
  | .descend a path target => do
    let t ← w.slot a
    match t.root.descend path.toList with
    | none => .fail .noPath
    | some root => w.put target { t with root := root }
  | .assign a letter value => do
    let t ← w.slot a
    let x ← letterOf t letter
    return (.done, { w with store := w.store.assign x value })
  | .table a => do
    let t ← w.slot a
    return (.table (t.table.entries.map fun (l, x) => (l, w.store.record x)), w)
  | .leaves a => do
    let t ← w.slot a
    return (.leaves (t.root.leaves.map (.map w.store.record)), w)
  | .compare a b => do
    let s ← w.slot a
    let t ← w.slot b
    return (.comparison (s.root.alike t.root) (s.same t), w)
  | .sameVariable a b letter => do
    let s ← w.slot a
    let t ← w.slot b
    let x ← letterOf s letter
    let y ← letterOf t letter
    return (.truth (x == y), w)
  | .isNnf a => do
    let t ← w.slot a
    return (.truth t.root.isNnf, w)
  | .view a => do
    let t ← w.slot a
    return (.tree t, w)
  | .describe a => do
    let t ← w.slot a
    return (.text (t.describe w.store), w)
  | .setLevel level => return (.done, { w with level := level })

/-- Performs a command and keeps the workspace if it fails. -/
def step (w : Workspace) (c : Command) : Logged String WorkspaceError Reply × Workspace :=
  match w.perform c with
  | ⟨log, .error e⟩ => (⟨log, .error e⟩, w)
  | ⟨log, .ok (r, w)⟩ => (⟨log, .ok r⟩, w)

end Workspace
end PolishLogic
