import LazyConfig.Proofs.Applying.Ways
import LazyConfig.Proofs.Machine.Unasked
import LazyConfig.Proofs.Memoisation

/-!
The fields of a mapped record. Each of them is a call that is put off: it is made at most once in a session, whichever
fields are asked for and how often, and the field is what the call comes to.
-/

namespace LazyConfig

/-- What a function that is put off comes to when it is asked for and called with some arguments. -/
def Context.calling (context : Context) (meter : DepthMeter) (store : Store) (func : ThunkId) (args : List ThunkId) :
    Outcomes :=
  Outcomes.bind (Brings context meter store (.force func)) fun value between =>
    (Request.call value args).comes context {} meter between

/--
What a field that is put off as a call comes to when it is asked for: what the call comes to that is made in its
place, unless the call asks for that very field, which then needs itself.
-/
inductive Context.CalledFor (context : Context) (meter : DepthMeter) (store : Store) (func : ThunkId)
    (args : List ThunkId) (field : ThunkId) (outcome : Outcome) (after : Store) : Prop
  | alone {between : Store} (comes : context.calling meter store func args outcome between)
    (unasked : between.cell field = .suspended (.apply func args))
    (kept : after = between.set field (.ended outcome))
  | circular {asking : State}
    (reached : State.GoesTo context ⟨store, meter, .force func, [.args args]⟩ asking)
    (itself : asking.control = .force field) (waits : asking.store.cell field = .suspended (.apply func args))
    {upset : Upset} (fails : outcome = .error upset) (cause : upset.cause = .ok .infiniteRecursion)

section

variable {context : Context} {meter : DepthMeter} {store after between : Store} {func field : ThunkId}
  {args : List ThunkId} {outcome : Outcome}

/-- A call that was put off goes on as a call does. -/
theorem Context.comes_calling :
    State.Comes context meter ⟨store, meter, .force func, [.args args]⟩ = context.calling meter store func args :=
  comes_split (.cons .nil fun _ _ => rfl)

/-- A field that is put off as a call comes to what the call comes to. -/
theorem Context.CalledFor.of_brings (found : store.cell field = .suspended (.apply func args))
    (brings : Brings context meter store (.force field) outcome after) :
    context.CalledFor meter store func args field outcome after := by
  rcases brings.to_unasked found with ⟨between, comes, unasked, kept⟩ | ⟨⟨asking, goes, itself, waits⟩, upset, fails, cause⟩
  · refine .alone ?_ unasked kept
    rw [← comes_calling]
    exact comes
  · exact .circular goes itself waits fails cause

/-- What a call comes to that leaves a field alone, the field comes to that is put off as the call. -/
theorem Brings.of_calling (found : store.cell field = .suspended (.apply func args))
    (comes : context.calling meter store func args outcome between)
    (unasked : between.cell field = .suspended (.apply func args)) :
    Brings context meter store (.force field) outcome (between.set field (.ended outcome)) := by
  rw [← Context.comes_calling] at comes
  exact .of_unasked found comes unasked

end

namespace Moment

/-- What has become of a field that was put off as a call at some moment of a session. -/
inductive CallState (moment : Moment) (func : ThunkId) (args : List ThunkId) (field : ThunkId) (later : Moment) : Prop
  | waits (found : later.store.cell field = .suspended (.apply func args))
  | started (found : later.store.cell field = .inProgress)
  /-- The field was asked for, and it has kept what the call came to. -/
  | settled {before after : Moment} {outcome : Outcome} (onward : moment.Onward before) (then_on : before.Onward after)
    (beyond : after.Onward later) (found : before.store.cell field = .suspended (.apply func args))
    (brings : Brings moment.context before.state.meter before.store (.force field) outcome after.store)
    (called : moment.context.CalledFor before.state.meter before.store func args field outcome after.store)
    (kept : later.store.cell field = .ended outcome)

/-- In the rest of a session, a field is put off as a call that is made at most once. -/
structure CallsOnce (moment : Moment) (func : ThunkId) (args : List ThunkId) (field : ThunkId) : Prop where
  /-- The field waits for the call, or it is what the call came to. -/
  history : ∀ later, moment.Onward later → moment.CallState func args field later
  /-- The call is made at most once. -/
  once : ∀ begun again, moment.Onward begun → begun.Starts field →
    Relation.TransGen Moment.Next begun again → ¬ again.Starts field
  /-- As long as the field waits, it comes to what the call comes to that leaves the field alone. -/
  comes : ∀ later, moment.Onward later → later.store.cell field = .suspended (.apply func args) →
    ∀ meter outcome between, moment.context.calling meter later.store func args outcome between →
      between.cell field = .suspended (.apply func args) →
      Brings moment.context meter later.store (.force field) outcome (between.set field (.ended outcome))

/-- A later moment of a session with one program is a later moment of the session. -/
theorem Onward.later {moment later : Moment} (onward : moment.Onward later) :
    Relation.ReflTransGen Moment.Next moment later :=
  Relation.ReflTransGen.mono (fun _ _ next => next.1) _ _ onward

/-- A field that is put off as a call is so for the rest of the session. -/
theorem Reachable.callsOnce {moment : Moment} (reached : moment.Reachable) {func field : ThunkId} {args : List ThunkId}
    (found : moment.store.cell field = .suspended (.apply func args)) : moment.CallsOnce func args field where
  history later onward := by
    rcases onward.history reached.wellNested found with
      waits | started | ⟨before, after, outcome, ahead, then_on, beyond, -, waits, brings, -, kept⟩
    · exact .waits waits
    · exact .started started
    · exact .settled ahead then_on beyond waits brings (.of_brings waits brings) kept
  once _ _ onward starts after := starts.once (reached.trans onward.later) after
  comes _ _ waits _ _ _ comes unasked := .of_calling waits comes unasked

end Moment

end LazyConfig
