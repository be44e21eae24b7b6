/-! # Decimal numbers

A decimal fraction and its text: the digits without trailing zeros, positional from one
ten-thousandth up to sixteen places before the point, and otherwise with an exponent of at
least two digits. -/

namespace PolishLogic

/-- The number `mantissa / 10 ^ scale` or its negative. There are two zeros. -/
structure Decimal where
  negative : Bool
  mantissa : Nat
  scale : Int
  deriving DecidableEq, Repr

namespace Decimal

def isZero (d : Decimal) : Bool := d.mantissa == 0

/-- The significant digits: those of the mantissa without zeros at the end. -/
def digits (d : Decimal) : List Char :=
  ((Nat.toDigits 10 d.mantissa).reverse.dropWhile (· == '0')).reverse

/-- How many places before the point the significant digits begin. -/
def point (d : Decimal) : Int := (Nat.toDigits 10 d.mantissa).length - d.scale

private def positional (ds : List Char) (point : Int) : List Char :=
  if point ≤ 0 then '0' :: '.' :: (List.replicate (-point).toNat '0' ++ ds)
  else
    let n := point.toNat
    let whole := ds.take n
    let fraction := ds.drop n
    whole ++ List.replicate (n - whole.length) '0' ++
      '.' :: if fraction.isEmpty then ['0'] else fraction

private def scientific (ds : List Char) (exponent : Int) : List Char :=
  let mark := if exponent < 0 then '-' else '+'
  let places := Nat.toDigits 10 exponent.natAbs
  let head := match ds with
    | [] => []
    | [d] => [d]
    | d :: rest => d :: '.' :: rest
  head ++ 'e' :: mark :: (if places.length < 2 then '0' :: places else places)

def text (d : Decimal) : String :=
  let sign := if d.negative then ['-'] else []
  let body :=
    if d.isZero then ['0', '.', '0']
    else if -4 < d.point ∧ d.point ≤ 16 then positional d.digits d.point
    else scientific d.digits (d.point - 1)
  String.ofList (sign ++ body)

end Decimal
end PolishLogic
