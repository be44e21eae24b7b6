import PolishLogic.Text.Printable

/-! # Quoted text

A text between quotes on one line. The quotes are single, unless the text has a single quote
and no double one. The quote and the backslash are escaped by a backslash, line feed, carriage
return and tab by a letter, and any other character that does not print by its number, in the
fewest of two, four or eight hexadecimal digits. -/

namespace PolishLogic

namespace Quoted

def mark (cs : List Char) : Char :=
  if cs.contains '\'' && !cs.contains '"' then '"' else '\''

/-- A number in hexadecimal digits, with zeros in front up to the width. -/
def hex (width n : Nat) : List Char :=
  let ds := Nat.toDigits 16 n
  List.replicate (width - ds.length) '0' ++ ds

/-- The characters that stand for one between quotes. -/
def escape (quote c : Char) : List Char :=
  if c = quote || c = '\\' then ['\\', c]
  else if c = '\n' then ['\\', 'n']
  else if c = '\r' then ['\\', 'r']
  else if c = '\t' then ['\\', 't']
  else if isPrinting c then [c]
  else if c.toNat < 0x100 then '\\' :: 'x' :: hex 2 c.toNat
  else if c.toNat < 0x10000 then '\\' :: 'u' :: hex 4 c.toNat
  else '\\' :: 'U' :: hex 8 c.toNat

def encode (cs : List Char) : List Char :=
  mark cs :: cs.flatMap (escape (mark cs)) ++ [mark cs]

end Quoted

def quote (s : String) : String := String.ofList (Quoted.encode s.toList)

end PolishLogic
