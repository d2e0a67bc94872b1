namespace TapeMachine.Decimal

/-- The number `digits · 10 ^ exponent`. -/
structure Scaled where
  digits : Nat
  exponent : Int
  deriving DecidableEq, Repr

/-- A positive dyadic number with the reals that round to it, all as multiples of `2 ^ exponent`: the number is
`value`, the reals go from `least` to `greatest`, ends included if `closed` holds. -/
structure Interval where
  least : Nat
  value : Nat
  greatest : Nat
  exponent : Int
  closed : Bool
  deriving DecidableEq, Repr

/-- The interval of the float with these exponent and fraction bits. The range below a power of two is half as
wide, except at the smallest exponent. -/
def Interval.ofFields (exponentBits fraction : Nat) : Interval :=
  let significand := if exponentBits = 0 then fraction else fraction + Nat.pow 2 52
  let exponent : Int := (if exponentBits = 0 then 1 else exponentBits) - 1077
  let below := if fraction = 0 ∧ 1 < exponentBits then 1 else 2
  { least := 4 * significand - below
    value := 4 * significand
    greatest := 4 * significand + 2
    exponent := exponent
    closed := significand % 2 = 0 }

/-- Multiplies by `base ^ e` where `e` is not negative. -/
def scaleUp (base n : Nat) (e : Int) : Nat :=
  n * Nat.pow base e.toNat

/-- The multiples of `10 ^ k` next to a number and in its range, nearest first; a tie goes to the even one. -/
def neighbours (v : Interval) (k : Int) : List Nat :=
  let scale (n : Nat) : Nat := scaleUp 10 (scaleUp 2 n v.exponent) (-k)
  let grid := scaleUp 10 (scaleUp 2 1 (-v.exponent)) k
  let c := scale v.value / grid
  let inside (n : Nat) : Bool :=
    if v.closed then scale v.least ≤ n * grid ∧ n * grid ≤ scale v.greatest
    else scale v.least < n * grid ∧ n * grid < scale v.greatest
  let toLower := scale v.value - c * grid
  let toUpper := (c + 1) * grid - scale v.value
  let lowerFirst : Bool := toLower < toUpper ∨ (toLower = toUpper ∧ c % 2 = 0)
  (if lowerFirst then [c, c + 1] else [c + 1, c]).filter inside

/-- The exponent `e` with `10 ^ e ≤ value < 10 ^ (e + 1)`, counted down from above every float. -/
def leadingExponent (v : Interval) : Int :=
  let n := scaleUp 2 v.value v.exponent
  let d := scaleUp 2 1 (-v.exponent)
  let rec go : Nat → Int → Int
    | 0, e => e
    | fuel + 1, e => if scaleUp 10 d e ≤ scaleUp 10 n (-e) then e else go fuel (e - 1)
  go 700 310

/-- The first grid with a point in the range, of at most `fuel` more, from `10 ^ k` downwards. -/
def search (v : Interval) : Nat → Int → Option Scaled
  | 0, _ => none
  | fuel + 1, k =>
    match neighbours v k with
    | n :: _ => some ⟨n, k⟩
    | [] => search v fuel (k - 1)

/-- Moves final zeros of the digits, of which there are at most `fuel`, into the exponent. -/
def dropZeros : Nat → Scaled → Scaled
  | 0, s => s
  | fuel + 1, s => if s.digits % 10 = 0 then dropZeros fuel ⟨s.digits / 10, s.exponent + 1⟩ else s

/-- The shortest decimal of a positive float. Seventeen digits always suffice. -/
def shortest (exponentBits fraction : Nat) : Option Scaled :=
  let v := Interval.ofFields exponentBits fraction
  (search v 17 (leadingExponent v)).map (dropZeros 17)

end TapeMachine.Decimal
