import PolishLogic.Formula.Postorder

/-! # Tokens

Every character of a written formula is a symbol of its own: `0` and `1` are the constants,
`A` to `Z` the letters, and the rest of the alphabet the connectives. Lexing turns characters
into tokens up to the first one outside the alphabet. -/

namespace PolishLogic

namespace Symbol

/-- The symbol a character is, if it lies in the alphabet. -/
def ofChar? (c : Char) : Option (Symbol Letter) :=
  if c = '0' then some (const false)
  else if c = '1' then some (const true)
  else match Letter.ofChar? c with
    | some l => some (leaf l)
    | none => (Connective.ofSymbol? c).map op

def char : Symbol Letter → Char
  | const false => '0'
  | const true => '1'
  | leaf l => l.char
  | op c => c.symbol

/-- The class of a token, by which a list of tokens is reported. -/
def className {α : Type} : Symbol α → String
  | const _ => "CONST"
  | leaf _ => "VAR"
  | op c => c.name

end Symbol

structure Token where
  symbol : Symbol Letter
  /-- The number of characters before the token. -/
  index : Nat
  /-- The line number the text was given with. -/
  line : Int
  deriving DecidableEq, Repr

def Token.stop (t : Token) : Nat := t.index + 1

structure Lexing where
  tokens : List Token
  /-- Where lexing stopped: at the character it refused or at the end. -/
  stop : Nat
  refused : Option Char
  deriving DecidableEq, Repr

namespace Lexing

/-- Lexes characters the first of which has the given position. -/
def ofChars (line : Int) : Nat → List Char → Lexing
  | i, [] => ⟨[], i, none⟩
  | i, c :: cs =>
    match Symbol.ofChar? c with
    | none => ⟨[], i, some c⟩
    | some s =>
      let rest := ofChars line (i + 1) cs
      { rest with tokens := ⟨s, i, line⟩ :: rest.tokens }

/-- Lexes a text from the position given. -/
def ofText (text : String) (line : Int) (start : Nat) : Lexing :=
  ofChars line start (text.toList.drop start)

end Lexing
end PolishLogic
