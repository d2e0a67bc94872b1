import TapeMachine.Decimal.Shortest

namespace TapeMachine.Decimal

structure Format where
  /-- Numbers are written out from this power of ten on … -/
  writtenFrom : Int
  /-- … up to but not including this one. -/
  writtenBelow : Int
  /-- What stands in front of an exponent that is not negative. -/
  exponentSign : String
  /-- What is written for infinities and for what is no number. -/
  notFinite : String
  deriving DecidableEq, Repr

/-- A float taken apart: sign, exponent and fraction as stored. -/
structure Fields where
  negative : Bool
  exponentBits : Nat
  fraction : Nat
  deriving DecidableEq, Repr

def Fields.ofBits (bits : UInt64) : Fields where
  negative := Nat.pow 2 63 ≤ bits.toNat
  exponentBits := bits.toNat / Nat.pow 2 52 % Nat.pow 2 11
  fraction := bits.toNat % Nat.pow 2 52

namespace Format

/-- Digits with the point behind `n` of them, filled with zeros where there are fewer; at least one digit stands
on either side. -/
def withPoint (ds : List Char) (n : Int) : List Char :=
  if n ≤ 0 then
    ['0', '.'] ++ List.replicate (-n).toNat '0' ++ ds
  else
    let whole := ds.take n.toNat ++ List.replicate (n.toNat - ds.length) '0'
    let rest := ds.drop n.toNat
    whole ++ '.' :: (if rest.isEmpty then ['0'] else rest)

/-- A point behind the first digit if more follow. -/
def mantissa : List Char → List Char
  | d :: r :: rs => d :: '.' :: r :: rs
  | ds => ds

def withExponent (f : Format) (ds : List Char) (e : Int) : List Char :=
  let sign := if e < 0 then "-" else f.exponentSign
  mantissa ds ++ 'e' :: sign.toList ++ Nat.toDigits 10 e.natAbs

def scaled (f : Format) (s : Scaled) : List Char :=
  let ds := Nat.toDigits 10 s.digits
  let e := s.exponent + ds.length - 1
  if f.writtenFrom ≤ e ∧ e < f.writtenBelow then withPoint ds (e + 1) else withExponent f ds e

def magnitude (f : Format) (v : Fields) : List Char :=
  if v.exponentBits = 0 ∧ v.fraction = 0 then ['0', '.', '0']
  else ((shortest v.exponentBits v.fraction).map (scaled f)).getD []

def text (f : Format) (bits : UInt64) : String :=
  let v := Fields.ofBits bits
  if v.exponentBits = 2047 then f.notFinite
  else String.ofList ((if v.negative then ['-'] else []) ++ magnitude f v)

end Format

end TapeMachine.Decimal
