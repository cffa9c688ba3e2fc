/-! A nesting counter that refuses to go past its limit. -/

namespace LazyConfig

/-- The number of levels entered and not yet left, and the most that are allowed. -/
structure DepthMeter where
  limit : Nat
  current : Nat := 0
  deriving DecidableEq, Inhabited

namespace DepthMeter

/-- Enters one more level, unless the limit is reached. -/
def enter? (meter : DepthMeter) : Option DepthMeter :=
  if meter.current < meter.limit then some { meter with current := meter.current + 1 } else none

/-- Leaves one level. -/
def leave (meter : DepthMeter) : DepthMeter :=
  { meter with current := meter.current - 1 }

/-- What a refused entry says. -/
def refusal (meter : DepthMeter) : String :=
  "nesting depth exceeded (limit: " ++ toString meter.limit ++ ")"

end DepthMeter

end LazyConfig
