import LazyConfig.Number.Binary64

/-! Decimal text of floating-point numbers: the fewest digits that read back, without exponents. -/

namespace LazyConfig

/-- The number `coefficient * 10 ^ exponent`. -/
structure Decimal where
  coefficient : Nat
  exponent : Int
  deriving DecidableEq, Inhabited

/-- The reals that round to one floating-point number, as fractions over one denominator. -/
structure RoundingInterval where
  low : Nat
  value : Nat
  high : Nat
  denominator : Nat
  /-- Whether the two ends round to the number too. -/
  closed : Bool
  deriving DecidableEq, Inhabited

namespace RoundingInterval

/--
The reals that round to `significand * 2 ^ exponent`. The number below a power of two is only half
as far away as the number above it, and the ends belong to the number whose significand is even.
-/
def around (significand : Nat) (exponent : Int) : RoundingInterval :=
  let below := if significand = Nat.pow 2 52 ∧ Binary64.minExponent < exponent then 1 else 2
  let scale := Nat.pow 2 (exponent - 2).toNat
  { low := (4 * significand - below) * scale
    value := 4 * significand * scale
    high := (4 * significand + 2) * scale
    denominator := Nat.pow 2 (2 - exponent).toNat
    closed := significand % 2 = 0 }

/-- Whether `coefficient * 10 ^ exponent` lies in the interval. -/
def holds (interval : RoundingInterval) (coefficient : Nat) (exponent : Int) : Bool :=
  let point := coefficient * Nat.pow 10 exponent.toNat * interval.denominator
  let shift := Nat.pow 10 (-exponent).toNat
  if interval.closed then interval.low * shift ≤ point && point ≤ interval.high * shift
  else interval.low * shift < point && point < interval.high * shift

/-- The least `k` for which the number is below `10 ^ k`, searched upward from a lower bound. -/
def magnitude (interval : RoundingInterval) : Nat → Int → Int
  | 0, k => k
  | fuel + 1, k =>
    let scaled := interval.value * Nat.pow 10 (-k).toNat
    if scaled < Nat.pow 10 k.toNat * interval.denominator then k
    else magnitude interval fuel (k + 1)

/--
The point of the grid of multiples of `10 ^ exponent` that lies in the interval and is nearest to
the number; of two equally near points the upper one.
-/
def nearest? (interval : RoundingInterval) (exponent : Int) : Option Decimal :=
  -- Only the two neighbours of the number on the grid can be nearest to it.
  let unit := Nat.pow 10 exponent.toNat * interval.denominator
  let scaled := interval.value * Nat.pow 10 (-exponent).toNat
  let down := scaled / unit
  let rest := scaled % unit
  match interval.holds down exponent, interval.holds (down + 1) exponent with
  | true, true => some ⟨if 2 * rest < unit then down else down + 1, exponent⟩
  | true, false => some ⟨down, exponent⟩
  | false, true => some ⟨down + 1, exponent⟩
  | false, false => none

/-- The first grid with a hit, from the coarsest to the one with the given number of digits more. -/
def search (interval : RoundingInterval) (top : Int) : Nat → Nat → Decimal
  | 0, digits =>
    ⟨interval.value * Nat.pow 10 (digits - top).toNat / interval.denominator, top - digits⟩
  | fuel + 1, digits =>
    match interval.nearest? (top - digits) with
    | some decimal => decimal
    | none => search interval top fuel (digits + 1)

end RoundingInterval

/-- The shortest decimal that rounds to `significand * 2 ^ exponent`, and the nearest of those. -/
def Decimal.shortest (significand : Nat) (exponent : Int) : Decimal :=
  -- Seventeen digits tell any two numbers apart.
  let interval := RoundingInterval.around significand exponent
  let bits := (significand.log2 : Int) + exponent
  let top := interval.magnitude 5 (bits * 30103 / 100000 - 1)
  interval.search top 17 1

namespace Decimal

/-- A decimal in positional notation, with a point only where a fraction follows. -/
def text (decimal : Decimal) : String :=
  -- Zeros at the end of a fraction are not written.
  let digits := toString decimal.coefficient
  if 0 ≤ decimal.exponent then digits ++ "".pushn '0' decimal.exponent.toNat
  else
    let places := (-decimal.exponent).toNat
    let padded := "".pushn '0' (places + 1 - digits.length) ++ digits
    let whole := padded.toList.take (padded.length - places)
    let fraction := (padded.toList.drop (padded.length - places)).reverse.dropWhile (· == '0')
    if fraction.isEmpty then String.ofList whole
    else String.ofList (whole ++ ['.'] ++ fraction.reverse)

end Decimal

/-- A floating-point number as text. -/
def floatText (x : Float) : String :=
  match Binary64.ofFloat x with
  | .nan => "NaN"
  | .infinite negative => (if negative then "-" else "") ++ "inf"
  | .finite negative significand exponent =>
    (if negative then "-" else "") ++
      if significand = 0 then "0" else (Decimal.shortest significand exponent).text

end LazyConfig
