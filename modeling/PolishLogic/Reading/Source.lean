import PolishLogic.Reading.Scan
import PolishLogic.Text.Decimal

/-! # Sources

What is handed in to be read. It is meant to be text; an empty value of another sort counts
as empty input, and any other value is refused by its sort. -/

namespace PolishLogic

inductive Source where
  | text (s : String)
  | absent
  | truth (b : Bool)
  | whole (n : Int)
  | decimal (d : Decimal)
  | emptyList
  | emptyRecord
  deriving DecidableEq, Repr

namespace Source

/-- How a source is shown in messages. -/
def shown : Source → String
  | text s => s
  | absent => "None"
  | truth true => "True"
  | truth false => "False"
  | whole n => toString n
  | decimal d => d.text
  | emptyList => "[]"
  | emptyRecord => "\x7b\x7d"

/-- The formula of a source. An empty value is refused as empty, whatever its sort. -/
def read : Source → Except ParseError (Formula Letter)
  | text s => Formula.ofText? s
  | absent | emptyList | emptyRecord | truth false => .error .emptyInput
  | truth true => .error (.notText "bool")
  | whole n => .error (if n = 0 then .emptyInput else .notText "int")
  | decimal d => .error (if d.isZero then .emptyInput else .notText "float")

end Source
end PolishLogic
