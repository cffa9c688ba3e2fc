import LazyConfig.Proofs.Lists.Reading
import LazyConfig.Proofs.Machine.Outcomes
import LazyConfig.Proofs.Store.Contents

/-!
Values that are evaluated throughout are left as they are. Evaluating all parts of such a value again goes through all
of them and changes nothing.
-/

namespace LazyConfig

variable {context : Context} {meter : DepthMeter} {base store after : Store} {value whole : Value} {data : Data}

/-- What a walk to the end of a list collects for the work: the values of its elements, the last one first. -/
theorem Visits.deepens {holds : Value → Data → Prop} {cursor : Cursor} {found : List (Visible × ThunkId)}
    {closing : Closing} {parts : List Data} (visits : Visits context meter store cursor found closing after)
    (ended : closing = .finished) (order : base.Precedes store)
    (bear : List.Forall₂ (base.Bears holds) (found.map Prod.fst) parts) (work : List Value) :
    ∃ values, List.Forall₂ holds values parts ∧ ∀ whole stack,
      State.GoesTo context ⟨store, meter, .advance cursor (.deepen work whole), stack⟩
        ⟨after, meter, .deepen (values.reverse ++ work) whole, stack⟩ := by
  -- By induction on the walk; each element is put in front of the work that is there.
  induction visits generalizing parts work with
  | last turn | upset turn => cases ended
  | finished turn =>
    cases bear
    exact ⟨[], .nil, fun whole stack => turn.goesTo (.deepen work whole) stack⟩
  | @next store middle after cursor rest element id found closing turn others ih =>
    cases bear with
    | cons first behind =>
      obtain ⟨value, shown, own⟩ := first
      -- The element is evaluated already, so that asking for it changes nothing.
      have forced : middle.cell id = .forced value := by
        have shows := turn.shows
        cases element with
        | int value =>
          obtain rfl := Option.some.inj shown
          exact shows
        | thunk own =>
          obtain rfl : id = own := shows
          exact (order.trans turn.precedes).forced (Store.forced_of_visible shown)
      obtain ⟨values, hold, goes⟩ := ih ended (order.trans turn.precedes) behind (value :: work)
      refine ⟨value :: values, .cons own hold, fun whole stack => ?_⟩
      rw [List.reverse_cons, List.append_assoc, List.singleton_append]
      exact (turn.goesTo (.deepen work whole) stack).trans
        (((ForcesTo.of_forced forced).above _).trans (.step rfl (goes whole stack)))

/-- Evaluating all parts of a value passes it, in every later store, and changes nothing. -/
def Store.Passed (context : Context) (meter : DepthMeter) (store : Store) (value : Value) (_ : Data) : Prop :=
  ∀ later, store.Precedes later → ∀ work, ∃ after, later.Extends after ∧ ∀ whole stack,
    State.GoesTo context ⟨later, meter, .deepen (value :: work) whole, stack⟩
      ⟨after, meter, .deepen work whole, stack⟩

namespace Store

/-- Values that are passed one by one are passed one after the other. -/
theorem passed_all {values : List Value} {parts : List Data}
    (passed : List.Forall₂ (store.Passed context meter) values parts) (order : store.Precedes after)
    (work : List Value) : ∃ last, after.Extends last ∧ ∀ whole stack,
      State.GoesTo context ⟨after, meter, .deepen (values ++ work) whole, stack⟩
        ⟨last, meter, .deepen work whole, stack⟩ := by
  induction passed generalizing after with
  | nil => exact ⟨after, .refl after, fun whole stack => .refl _⟩
  | cons first others ih =>
    obtain ⟨middle, extended, goes⟩ := first after order (_ ++ work)
    obtain ⟨last, further, rest⟩ := ih (order.trans extended.precedes)
    exact ⟨last, extended.trans further, fun whole stack => (goes whole stack).trans (rest whole stack)⟩

/-- A list whose elements are passed is passed. -/
theorem passed_list {items : LazyList} {elements : List Visible} {parts : List Data}
    (spreads : store.Spreads items elements)
    (bear : List.Forall₂ (store.Bears (store.Passed context meter)) elements parts) (order : store.Precedes after)
    (work : List Value) : ∃ last, after.Extends last ∧ ∀ whole stack,
      State.GoesTo context ⟨after, meter, .advance items.cursor (.deepen work whole), stack⟩
        ⟨last, meter, .deepen work whole, stack⟩ := by
  obtain ⟨middle, sequence, extended⟩ := @Spreads.sequence context meter _ _ _ _ spreads order
  obtain ⟨found, rfl, visits⟩ := sequence_iff.mp sequence
  obtain ⟨values, passed, goes⟩ := visits.deepens rfl order bear work
  obtain ⟨last, further, rest⟩ := passed_all (List.forall₂_reverse_iff.mpr passed) (order.trans extended.precedes) work
  exact ⟨last, extended.trans further, fun whole stack => (goes whole stack).trans (rest whole stack)⟩

/-- Evaluating all parts of a value that holds data passes it. -/
theorem passed_inherits : store.Inherits (store.Passed context meter) where
  leaf leaf later order work := by
    refine ⟨later, .refl later, fun whole stack => .step ?_ (.refl _)⟩
    cases leaf <;> rfl
  list hold spreads bear later order work := by
    obtain ⟨last, extended, goes⟩ :=
      passed_list spreads (bear.imp fun _ _ bears => bears.imp fun _ both => both.imp_right And.right) order work
    exact ⟨last, extended, fun whole stack => .step rfl (goes whole stack)⟩
  record {record fields} hold bear later order work := by
    obtain ⟨last, extended, goes⟩ := passed_list (.ofThunks store record.thunks) (bears_of_fields (bear.imp fun _ _ first =>
      first.imp_right fun own => own.imp fun _ both => both.imp_right And.right)) order work
    exact ⟨last, extended, fun whole stack => .step rfl (goes whole stack)⟩

end Store

/-- What a request comes to is its answer from some number of steps on. -/
theorem Evaluator.performs {evaluator : Evaluator} {request : Request} {outcome : Outcome}
    (goes : State.GoesTo evaluator.context (evaluator.start request store)
      ⟨after, evaluator.ground, .passing outcome, []⟩) :
    ∃ enough, ∀ fuel, enough ≤ fuel → evaluator.perform fuel request store = some ⟨outcome, after⟩ := by
  obtain ⟨steps, reached⟩ := goes
  refine ⟨steps + 1, fun fuel enough => ?_⟩
  obtain ⟨more, rfl⟩ := Nat.exists_eq_add_of_le enough
  rw [perform, run, State.run_add, State.run_last, reached]
  -- One more step hands the outcome to the host, and nothing happens after that.
  cases outcome with
  | ok value =>
    have ended : State.Ended (State.step evaluator.context ⟨after, evaluator.ground, .give value, []⟩) := ⟨_, rfl⟩
    rw [Control.passing, ended.run]
    rfl
  | error upset =>
    have ended : State.Ended (State.step evaluator.context ⟨after, evaluator.ground, .raise upset, []⟩) := ⟨_, rfl⟩
    rw [Control.passing, ended.run]
    rfl

/-- What a request other than a step along a list is answered with is what it comes to. -/
theorem Evaluator.goesTo_of_perform {evaluator : Evaluator} {request : Request} {fuel : Nat} {reply : Reply Value}
    (closed : store.Closed) (asked : request.Within .all store.cells.size) (other : ∀ cursor, request ≠ .next cursor)
    (answered : evaluator.perform fuel request store = some reply) :
    State.GoesTo evaluator.context (evaluator.start request store)
      ⟨reply.store, evaluator.ground, .passing reply.result, []⟩ := by
  -- Nothing of the request is for the host, and no level has been entered at its start.
  have starts : (evaluator.start request store).control.reports = false ∧
      (∀ frame ∈ (evaluator.start request store).stack, frame.reports = false) ∧
      (evaluator.start request store).based evaluator.ground = evaluator.start request store := by
    cases request with
    | next cursor => exact absurd rfl (other cursor)
    | evaluate body env =>
      simp only [start, Request.frames]
      split
      · exact ⟨rfl, List.forall_mem_singleton.mpr rfl, rfl⟩
      · exact ⟨rfl, List.forall_mem_nil _, rfl⟩
    | call func args => exact ⟨rfl, List.forall_mem_singleton.mpr rfl, rfl⟩
    | _ => exact ⟨rfl, List.forall_mem_nil _, rfl⟩
  obtain ⟨quiet, waits, level⟩ := starts
  obtain ⟨before, -, hands⟩ :=
    State.hands_of_ended (asked.start evaluator closed) quiet waits (ended_of_reply answered)
  obtain ⟨outcome, reached⟩ := hands.passing
  rw [State.meter_of_empty level hands.1] at reached
  -- The outcome is the answer from some number of steps on, and there is only one answer.
  obtain ⟨enough, answers⟩ := performs ⟨before, reached⟩
  obtain rfl := reply_unique (answers enough (Nat.le_refl _)) answered
  exact ⟨before, reached⟩

/-- Evaluating all parts of a value that is evaluated throughout gives the value and changes nothing. -/
theorem Store.Holds.deepens_again (holds : store.Holds value data) (evaluator : Evaluator) :
    ∃ enough after, store.Extends after ∧ ∀ fuel, enough ≤ fuel →
      evaluator.perform fuel (.deepen value) store = some ⟨.ok value, after⟩ := by
  obtain ⟨after, extended, goes⟩ :=
    holds.inherit (@Store.passed_inherits evaluator.context evaluator.ground store) store (.refl store) []
  obtain ⟨enough, answers⟩ := @Evaluator.performs store after evaluator (.deepen value) (.ok value)
    ((goes value []).trans (.step rfl (.refl _)))
  exact ⟨enough, after, extended, answers⟩

end LazyConfig
