/-! # Connectives

The six connectives with their one-character symbols and their names. `ofSymbol?_eq_some`:
a character denotes a connective exactly when it is its symbol. -/

namespace PolishLogic

inductive Connective where
  | not | and | or | xor | xnor | imply
  deriving DecidableEq, Repr

namespace Connective

def all : List Connective := [.not, .and, .or, .xor, .xnor, .imply]

def symbol : Connective → Char
  | .not => '!'
  | .and => '&'
  | .or => '|'
  | .xor => '^'
  | .xnor => '='
  | .imply => '>'

def name : Connective → String
  | .not => "NOT"
  | .and => "AND"
  | .or => "OR"
  | .xor => "XOR"
  | .xnor => "XNOR"
  | .imply => "IMPLY"

def ofSymbol? (c : Char) : Option Connective := all.find? (·.symbol == c)

def ofName? (s : String) : Option Connective := all.find? (·.name == s)

/-- A text denotes a connective when it consists of its symbol alone. -/
def ofText? (s : String) : Option Connective :=
  match s.toList with
  | [c] => ofSymbol? c
  | _ => none

theorem symbol_injective {c d : Connective} (h : c.symbol = d.symbol) : c = d := by
  cases c <;> cases d <;> first | rfl | exact absurd h (by decide)

@[simp] theorem ofSymbol?_symbol (c : Connective) : ofSymbol? c.symbol = some c := by
  cases c <;> rfl

theorem ofSymbol?_eq_some {x : Char} {c : Connective} :
    ofSymbol? x = some c ↔ x = c.symbol := by
  refine ⟨fun h => ?_, fun h => h ▸ ofSymbol?_symbol c⟩
  have h : (c.symbol == x) = true := List.find?_some (p := fun c => symbol c == x) h
  exact (beq_iff_eq.mp h).symm

/-- Conjunction and disjunction, the binary connectives of a negation normal form. -/
def isMonotone : Connective → Bool
  | .and | .or => true
  | _ => false

end Connective
end PolishLogic
