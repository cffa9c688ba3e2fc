import LazyConfig.Number.Binary64

/-! The exact remainder of two floating-point numbers. -/

namespace LazyConfig

/--
What is left of a number after taking away a whole multiple of another, rounded toward zero; the
result has the sign of the first number and is always exact.
-/
def floatRemainder (x y : Float) : Float :=
  match Binary64.ofFloat x, Binary64.ofFloat y with
  | .finite negative m p, .finite _ n q =>
    if n = 0 then 0.0 / 0.0
    else
      -- Over the smaller of the two exponents both numbers are integers.
      let low := min p q
      let left := m * Nat.pow 2 (p - low).toNat % (n * Nat.pow 2 (q - low).toNat)
      Binary64.pack negative left low
  | .finite _ _ _, .infinite _ => x
  | _, _ => 0.0 / 0.0

end LazyConfig
