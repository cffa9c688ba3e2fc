/-! The reals that 64-bit floating-point numbers stand for, taken apart and put together exactly. -/

namespace LazyConfig

/-- A floating-point number as a sign and an exact product of an integer and a power of two. -/
inductive Binary64
  | nan
  | infinite (negative : Bool)
  | finite (negative : Bool) (significand : Nat) (exponent : Int)
  deriving DecidableEq, Inhabited

namespace Binary64

/-- The exponent of the smallest positive number. -/
def minExponent : Int :=
  -1074

/-- Reads the fields of a 64-bit pattern: one sign bit, eleven exponent bits, fifty-two digits. -/
def ofBits (bits : Nat) : Binary64 :=
  let negative := Nat.pow 2 63 ≤ bits
  let field : Nat := bits / Nat.pow 2 52 % Nat.pow 2 11
  let fraction := bits % Nat.pow 2 52
  if field = Nat.pow 2 11 - 1 then
    if fraction = 0 then .infinite negative else .nan
  else if field = 0 then .finite negative fraction minExponent
  else .finite negative (Nat.pow 2 52 + fraction) ((field : Int) + minExponent - 1)

/-- The parts of a floating-point number. -/
def ofFloat (x : Float) : Binary64 :=
  ofBits x.toBits.toNat

/--
The number with a given sign, significand and exponent, for a significand below `2 ^ 53` and an
exponent within the range of finite numbers.
-/
def pack (negative : Bool) (significand : Nat) (exponent : Int) : Float :=
  -- The significand moves up until its top digit stands in front or the exponent is the least one.
  let room := min (52 - (significand.log2 : Int)) (exponent - minExponent)
  let shifted := significand * Nat.pow 2 room.toNat
  let field := (exponent - room - minExponent).toNat
  let magnitude := if shifted < Nat.pow 2 52 then shifted else field * Nat.pow 2 52 + shifted
  Float.ofBits (UInt64.ofNat (magnitude + if negative then Nat.pow 2 63 else 0))

end Binary64

end LazyConfig
