import PolishLogic.Connective

/-! # Parse errors

What is wrong with something handed in as a formula. -/

namespace PolishLogic

inductive ParseError where
  | emptyInput
  | invalidToken (char : Char) (position : Nat)
  | missingOperand (op : Connective) (position : Nat)
  | noOperands
  | leftOver (count : Nat)
  /-- Something other than text was handed in. -/
  | notText (sort : String)
  deriving DecidableEq, Repr

def ParseError.message : ParseError → String
  | .emptyInput => "Input formula is empty."
  | .invalidToken c n => "Invalid token '" ++ c.toString ++ "' at position " ++ toString n
  | .missingOperand op n =>
    "Operator '" ++ op.symbol.toString ++ "' at position " ++ toString n ++
      " is missing an operand."
  | .noOperands => "No operands in formula."
  | .leftOver k => toString k ++ " operands left over; expected exactly one."
  | .notText sort => "'" ++ sort ++ "' object is not subscriptable"

end PolishLogic
