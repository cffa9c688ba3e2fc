import LazyConfig.Proofs.Deepening.Complete
import LazyConfig.Proofs.Equality.Evaluated

/-!
Equality of the language and equality of the host. Both say of two values whether their data are the same, the one by
asking for parts as it goes, the other by looking at what has been evaluated.
-/

namespace LazyConfig

variable {evaluator : Evaluator} {store : Store} {left right : Value} {data part : Data}

/-- The language compares two values as their data are, from a store in which their data can be obtained. -/
def Evaluator.FindsEqual (evaluator : Evaluator) (store : Store) (left right : Value) (same : Bool) : Prop :=
  ∃ enough after, Asked evaluator.context evaluator.ground store after ∧ ∀ fuel, enough ≤ fuel →
    evaluator.equal fuel left right store = some ⟨.ok same, after⟩

/-- The host compares two values as their data are, once they are evaluated throughout. -/
def Store.FindsEqual (store : Store) (left right : Value) (same : Bool) : Prop :=
  ∃ enough, ∀ fuel, enough ≤ fuel → store.equal? fuel left right = some same

/-- What is the same without floats is the same in both directions, and all along a chain. -/
structure Data.Equivalence : Prop where
  refl : ∀ data : Data, data.Plain → data.Exact → data.same data = true
  symm : ∀ data part : Data, data.Plain → data.Exact → part.Plain → part.Exact → data.same part = part.same data
  trans : ∀ data part other : Data, data.Plain → data.Exact → part.Plain → part.Exact → other.Exact →
    data.same part = true → part.same other = true → data.same other = true

/-- Without floats and functions, to be the same is an equivalence. -/
theorem Data.equivalence : Data.Equivalence where
  refl data plain exact := (same_iff plain exact exact).mpr rfl
  symm data part plain exact plain' exact' :=
    Bool.eq_iff_iff.mpr (((same_iff plain exact exact').trans eq_comm).trans (same_iff plain' exact' exact).symm)
  trans data part other plain exact plain' exact' also first second := by
    obtain rfl := (same_iff plain exact exact').mp first
    exact second

/-- Data that are held by values that are evaluated throughout can be obtained. -/
theorem Store.Holds.obtained {context : Context} {meter : DepthMeter} (holds : store.Holds left data) :
    data.Obtained context meter store left :=
  holds.inherit Store.obtained_inherits store (.refl store)

/-- The numbers zero and one. -/
def zeroAndOne : Store where
  cells := #[.forced (.int 0), .forced (.int 1)]

end LazyConfig
