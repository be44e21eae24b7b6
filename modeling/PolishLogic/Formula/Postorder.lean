import PolishLogic.Formula.Checked

/-! # Postorder words

A formula is written operands first: the word of its symbols has those of the left operand,
those of the right one, and then the connective. The text of a formula spells its word out.
A hole has no symbol, so a formula with one has no word.

`postorderOnto_eq` separates the word from the rest of the text it is put in front of, and
`postorder_unary`, `postorder_binary` are its recursion. -/

namespace PolishLogic

inductive Symbol (α : Type) where
  | const (value : Bool)
  | leaf (x : α)
  | op (c : Connective)
  deriving DecidableEq, Repr

namespace Symbol

variable {α β : Type}

def map (g : α → β) : Symbol α → Symbol β
  | const b => const b
  | leaf x => leaf (g x)
  | op c => op c

def chars [Named α] : Symbol α → List Char
  | const false => ['0']
  | const true => ['1']
  | leaf x => (Named.name x).toList
  | op c => [c.symbol]

def spell [Named α] (word : List (Symbol α)) : String := String.ofList (word.flatMap chars)

end Symbol

namespace Formula

variable {α β : Type}

/-- The word of a formula, before the symbols given. -/
def postorderOnto : Formula α → List (Symbol α) → Option (List (Symbol α))
  | hole, _ => none
  | const b, rest => some (.const b :: rest)
  | var x, rest => some (.leaf x :: rest)
  | unary op c, rest => c.postorderOnto (.op op :: rest)
  | binary op l r, rest => (r.postorderOnto (.op op :: rest)).bind l.postorderOnto

/-- The word of a formula, which it has unless there is a hole in it. -/
def postorder (f : Formula α) : Option (List (Symbol α)) := f.postorderOnto []

/-- The word of a formula that has to have one. -/
def word (f : Formula α) : Except FormulaError (List (Symbol α)) :=
  match f.postorder with
  | none => .error .hole
  | some w => .ok w

/-- The written form of a formula. -/
def render [Named α] (f : Formula α) : Except FormulaError String := f.word.map Symbol.spell

theorem postorderOnto_eq (f : Formula α) (rest : List (Symbol α)) :
    f.postorderOnto rest = f.postorder.map (· ++ rest) := by
  induction f generalizing rest with
  | hole | const | var => rfl
  | unary op c ih =>
    rw [postorderOnto, postorder, postorderOnto, ih, ih [.op op]]
    cases c.postorder <;> simp
  | binary op l r ihl ihr =>
    rw [postorderOnto, postorder, postorderOnto, ihr, ihr [.op op]]
    cases r.postorder with
    | none => rfl
    | some w =>
      show l.postorderOnto (w ++ _) = (l.postorderOnto (w ++ _)).map _
      rw [ihl, ihl (w ++ [Symbol.op op])]
      cases l.postorder <;> simp

theorem postorder_unary (op : Connective) (c : Formula α) :
    (unary op c).postorder = c.postorder.map (· ++ [.op op]) :=
  postorderOnto_eq c _

theorem postorder_binary (op : Connective) (l r : Formula α) :
    (binary op l r).postorder =
      l.postorder.bind fun v => r.postorder.map fun w => v ++ w ++ [.op op] := by
  rw [postorder, postorderOnto, postorderOnto_eq r]
  cases r.postorder with
  | none => cases l.postorder <;> rfl
  | some w =>
    show l.postorderOnto (w ++ _) = _
    rw [postorderOnto_eq]
    cases l.postorder <;> simp

end Formula
end PolishLogic
