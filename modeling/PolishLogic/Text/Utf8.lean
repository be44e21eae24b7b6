/-! # UTF-8

Strict decoding of bytes. Each lead byte fixes the ranges that the bytes after it have to lie
in, so that no character is written longer than need be and no surrogate is written at all.
The error of bytes that do not decode names the bytes of the first sequence that breaks off,
as far as they belong together. -/

namespace PolishLogic
namespace Utf8

inductive Reason where
  | invalidStart | invalidContinuation | unexpectedEnd
  deriving DecidableEq, Repr

def Reason.text : Reason → String
  | .invalidStart => "invalid start byte"
  | .invalidContinuation => "invalid continuation byte"
  | .unexpectedEnd => "unexpected end of data"

/-- Where decoding broke off: the first byte of a sequence with its position, how many bytes of
the sequence belong together, and what is wrong after them. -/
structure Error where
  position : Nat
  first : UInt8
  count : Nat
  reason : Reason
  deriving DecidableEq, Repr

private def hexByte (b : UInt8) : String :=
  String.ofList [Nat.digitChar (b.toNat / 16), Nat.digitChar (b.toNat % 16)]

def Error.message (e : Error) : String :=
  let place :=
    if e.count ≤ 1 then "byte 0x" ++ hexByte e.first ++ " in position " ++ toString e.position
    else "bytes in position " ++ toString e.position ++ "-" ++ toString (e.position + e.count - 1)
  "'utf-8' codec can't decode " ++ place ++ ": " ++ e.reason.text

/-- The ranges a byte after the lead byte can lie in, both ends included. -/
abbrev Ranges := List (Nat × Nat)

/-- The part of the code point in a lead byte, and the ranges of the bytes to follow. -/
def lead (b : Nat) : Option (Nat × Ranges) :=
  let tail := (0x80, 0xBF)
  if b < 0x80 then some (b, [])
  else if b < 0xC2 then none
  else if b < 0xE0 then some (b - 0xC0, [tail])
  else if b = 0xE0 then some (b - 0xE0, [(0xA0, 0xBF), tail])
  else if b = 0xED then some (b - 0xE0, [(0x80, 0x9F), tail])
  else if b < 0xF0 then some (b - 0xE0, [tail, tail])
  else if b = 0xF0 then some (b - 0xF0, [(0x90, 0xBF), tail, tail])
  else if b < 0xF4 then some (b - 0xF0, [tail, tail, tail])
  else if b = 0xF4 then some (b - 0xF0, [(0x80, 0x8F), tail, tail])
  else none

/-- A sequence that has begun: its first byte, how many bytes of it were read, the code point so
far, and the ranges of the bytes that are missing. -/
structure Sequence where
  first : UInt8
  count : Nat
  value : Nat
  missing : Ranges

/-- Decodes bytes, the first of which has the given position, going on with a sequence that has
begun before them. -/
def decodeFrom : Option Sequence → Nat → List UInt8 → Except Error (List Char)
  | none, _, [] => .ok []
  | some s, i, [] => .error ⟨i - s.count, s.first, s.count, .unexpectedEnd⟩
  | none, i, b :: bs =>
    match lead b.toNat with
    | none => .error ⟨i, b, 1, .invalidStart⟩
    | some (value, []) => do return Char.ofNat value :: (← decodeFrom none (i + 1) bs)
    | some (value, missing) => decodeFrom (some ⟨b, 1, value, missing⟩) (i + 1) bs
  | some s, i, b :: bs =>
    match s.missing with
    | [] => .error ⟨i - s.count, s.first, s.count, .invalidContinuation⟩
    | (lo, hi) :: missing =>
      if lo ≤ b.toNat ∧ b.toNat ≤ hi then
        let value := s.value * 64 + (b.toNat - 0x80)
        if missing.isEmpty then do return Char.ofNat value :: (← decodeFrom none (i + 1) bs)
        else decodeFrom (some ⟨s.first, s.count + 1, value, missing⟩) (i + 1) bs
      else .error ⟨i - s.count, s.first, s.count, .invalidContinuation⟩

def decode (bytes : List UInt8) : Except Error (List Char) := decodeFrom none 0 bytes

end Utf8
end PolishLogic
