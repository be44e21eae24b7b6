import PolishLogic.Reading.Error
import PolishLogic.Reading.Token

/-! # The operand stack

A formula is read by one scan from left to right over a stack of operands, the last one on
top. An operand is pushed; a connective takes its operands from the top, where the right one
of two lies, and pushes what it makes of them. A text is a formula when one operand is left.

`Formula.ofText?` reads a text. The whole of it is lexed before the scan begins, so that a
character outside the alphabet is reported before anything else. -/

namespace PolishLogic

/-- The operands read so far, the last one first. -/
abbrev OperandStack := List (Formula Letter)

namespace OperandStack

/-- Takes in one token: an operand is put on top, a connective takes its operands from there. -/
def push (stack : OperandStack) (t : Token) : Except ParseError OperandStack :=
  match t.symbol, stack with
  | .const b, stack => .ok (.const b :: stack)
  | .leaf l, stack => .ok (.var l :: stack)
  | .op .not, f :: stack => .ok (.unary .not f :: stack)
  | .op .not, [] => .error (.missingOperand .not t.index)
  | .op c, r :: l :: stack => .ok (.binary c l r :: stack)
  | .op c, _ => .error (.missingOperand c t.index)

/-- Takes in tokens until one lacks an operand. -/
def scan (stack : OperandStack) : List Token → Except ParseError OperandStack
  | [] => .ok stack
  | t :: ts => do
    let stack ← stack.push t
    scan stack ts

/-- The formula that a scan ends with, if only one is left. -/
def single : OperandStack → Except ParseError (Formula Letter)
  | [] => .error .noOperands
  | [f] => .ok f
  | stack => .error (.leftOver stack.length)

end OperandStack

/-- The tokens of a text that lies in the alphabet. -/
def Lexing.toExcept (x : Lexing) : Except ParseError (List Token) :=
  match x.refused with
  | none => .ok x.tokens
  | some c => .error (.invalidToken c x.stop)

def Formula.ofText? (text : String) : Except ParseError (Formula Letter) :=
  if text.isEmpty then .error .emptyInput
  else do
    let tokens ← (Lexing.ofText text 1 0).toExcept
    let stack ← OperandStack.scan [] tokens
    stack.single

end PolishLogic
