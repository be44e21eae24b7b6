import PolishLogic.Formula.Basic

/-! # Checked construction

The errors that a tree which does not make sense leads to, the two constructors that refuse
a connective of the wrong arity, and the copy made through them. A copy is made of a formula
exactly when it is intact (`duplicate_of_intact`, `intact_of_duplicate`), and a copy that is
made at all is the formula copied (`eq_of_duplicate`). -/

namespace Except

variable {ε α β : Type} {x : Except ε α} {f : α → Except ε β}

theorem bind_eq_ok {b : β} : x >>= f = .ok b ↔ ∃ a, x = .ok a ∧ f a = .ok b := by
  cases x with
  | error e => exact ⟨nofun, nofun⟩
  | ok a =>
    refine ⟨fun h => ⟨a, rfl, h⟩, fun ⟨a', ha, h⟩ => ?_⟩
    cases ha
    exact h

theorem bind_eq_error {e : ε} :
    x >>= f = .error e ↔ x = .error e ∨ ∃ a, x = .ok a ∧ f a = .error e := by
  cases x with
  | error e' =>
    refine ⟨fun h => ?_, fun h => ?_⟩
    · cases h
      exact .inl rfl
    · rcases h with h | ⟨a, ha, -⟩
      · cases h; rfl
      · cases ha
  | ok a =>
    refine ⟨fun h => .inr ⟨a, rfl, h⟩, fun h => ?_⟩
    rcases h with h | ⟨a', ha, h⟩
    · cases h
    · cases ha; exact h

theorem mapError_eq_ok {δ : Type} {g : ε → δ} {a : α} : x.mapError g = .ok a ↔ x = .ok a := by
  cases x with
  | error e => exact ⟨nofun, nofun⟩
  | ok b =>
    constructor <;> intro h <;> exact congrArg Except.ok (Except.ok.inj h)

end Except

namespace PolishLogic

/-- What goes wrong at a node that makes no sense. -/
inductive FormulaError where
  /-- An operation met a hole. -/
  | hole
  /-- A unary node was to be made with another connective than negation. -/
  | unaryOf (op : Connective)
  /-- A binary node was to be made with negation. -/
  | binaryNot
  /-- A run of negations holds a unary node of another connective. -/
  | inNegations (op : Connective)
  /-- A binary node has a connective that is neither kept nor expanded. -/
  | noExpansion (op : Connective)
  /-- What stands under a negation cannot be negated. -/
  | cannotNegate (kind : Kind)
  deriving DecidableEq, Repr

/-- The text of an error; a hole has none. -/
def FormulaError.message : FormulaError → String
  | .hole => ""
  | .unaryOf op => "Unary node carries " ++ op.name ++ ", expected NOT"
  | .binaryNot => "Binary node cannot carry NOT"
  | .inNegations op => "Unary node carries " ++ op.name
  | .noExpansion op => "No NNF expansion for binary " ++ op.name
  | .cannotNegate kind => "Cannot negate " ++ kind.label ++ " node"

namespace Formula

variable {α β : Type}

/-- Makes a unary node, if its connective is negation. -/
def mkUnary (op : Connective) (child : Formula α) : Except FormulaError (Formula α) :=
  if op = .not then .ok (unary op child) else .error (.unaryOf op)

/-- Makes a binary node, unless its connective is negation. -/
def mkBinary (op : Connective) (lhs rhs : Formula α) : Except FormulaError (Formula α) :=
  if op = .not then .error .binaryNot else .ok (binary op lhs rhs)

/-- A copy made node by node: the children first, the left one before the right, and the
node itself through its checking constructor. -/
def duplicate : Formula α → Except FormulaError (Formula α)
  | hole => .error .hole
  | const b => .ok (const b)
  | var x => .ok (var x)
  | unary op c => do
    let c ← c.duplicate
    mkUnary op c
  | binary op l r => do
    let l ← l.duplicate
    let r ← r.duplicate
    mkBinary op l r

theorem mkUnary_eq_ok {op : Connective} {c f : Formula α} :
    mkUnary op c = .ok f ↔ op = .not ∧ f = unary op c := by
  unfold mkUnary
  split <;> simp_all [eq_comm]

theorem mkBinary_eq_ok {op : Connective} {l r f : Formula α} :
    mkBinary op l r = .ok f ↔ op ≠ .not ∧ f = binary op l r := by
  unfold mkBinary
  split <;> simp_all [eq_comm]

theorem duplicate_of_intact {f : Formula α} (h : f.Intact) : f.duplicate = .ok f := by
  induction f with
  | hole => exact h.elim
  | const | var => rfl
  | unary op c ih =>
    rw [duplicate, ih h.2]
    exact mkUnary_eq_ok.mpr ⟨h.1, rfl⟩
  | binary op l r ihl ihr =>
    rw [duplicate, ihl h.2.1, ihr h.2.2]
    exact mkBinary_eq_ok.mpr ⟨h.1, rfl⟩

theorem intact_of_duplicate {f g : Formula α} (h : f.duplicate = .ok g) : f.Intact := by
  induction f generalizing g with
  | hole => cases h
  | const | var => trivial
  | unary op c ih =>
    rw [duplicate] at h
    obtain ⟨c', hc, h⟩ := Except.bind_eq_ok.mp h
    exact ⟨(mkUnary_eq_ok.mp h).1, ih hc⟩
  | binary op l r ihl ihr =>
    rw [duplicate] at h
    obtain ⟨l', hl, h⟩ := Except.bind_eq_ok.mp h
    obtain ⟨r', hr, h⟩ := Except.bind_eq_ok.mp h
    exact ⟨(mkBinary_eq_ok.mp h).1, ihl hl, ihr hr⟩

theorem eq_of_duplicate {f g : Formula α} (h : f.duplicate = .ok g) : g = f := by
  rw [duplicate_of_intact (intact_of_duplicate h)] at h
  exact (Except.ok.inj h).symm

end Formula
end PolishLogic
