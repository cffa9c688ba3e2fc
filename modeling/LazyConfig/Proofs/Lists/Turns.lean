import LazyConfig.Proofs.Machine.Deepen
import LazyConfig.Proofs.Machine.Exits
import LazyConfig.Value.Walk

/-!
Steps along lists. What a step comes to is a relation between a position and what is found there; the
evaluator takes exactly these steps, whatever the walk is for and whatever waits below it.
-/

namespace LazyConfig

/-! Lists that are used up. -/

/-- A list in front of a walk without further elements. -/
def LazyList.UsedUp : LazyList → Prop
  | .elems items start => items[start]? = none
  | .range next stop => ¬ next < stop
  | .concat _ _ => False

/-- The empty list is used up. -/
theorem LazyList.empty_usedUp : LazyList.empty.UsedUp :=
  show ¬ (0 : Int64) < 0 by decide

/-- When the front is used up, the right parts are next. -/
theorem LazyList.UsedUp.step {context : Context} {store : Store} {meter : DepthMeter}
    {consumer : Consumer} {stack : List Frame} {front : LazyList} {pending : List ThunkId}
    (used : front.UsedUp) :
    State.step context ⟨store, meter, .advance ⟨front, pending⟩ consumer, stack⟩ =
      Context.crossStep context.annotations.graph store meter pending consumer stack := by
  cases front with
  | elems items start =>
    have none : items[start]? = none := used
    simp [State.step, Context.advanceStep, none]
  | range next stop =>
    have passed : ¬ next < stop := used
    simp [State.step, Context.advanceStep, passed]
  | concat left right => exact used.elim

/-- A walk along what a cursor has left comes back to the cursor. -/
theorem run_rest {context : Context} {store : Store} {meter : DepthMeter} {consumer : Consumer}
    {stack : List Frame} (pending more : List ThunkId) (front : LazyList) :
    State.run context pending.length
        ⟨store, meter, .advance ⟨Cursor.rest ⟨front, pending⟩, more⟩ consumer, stack⟩ =
      ⟨store, meter, .advance ⟨front, pending ++ more⟩ consumer, stack⟩ := by
  induction pending generalizing front with
  | nil => rfl
  | cons right rest ih =>
    -- The joined list is taken apart, and the walk is at its front then.
    rw [List.length_cons, State.run_last]
    exact congrArg (State.step context) (ih (.concat front right))

/-! Asking for a computation. -/

section

variable (context : Context) (meter : DepthMeter)

/-- A computation is evaluated to a value, on the level on which it is asked for. -/
def ForcesTo (store : Store) (id : ThunkId) (value : Value) (after : Store) : Prop :=
  State.GoesTo context ⟨store, meter, .force id, []⟩ ⟨after, meter, .give value, []⟩

/-- A computation goes wrong, on the level on which it is asked for. -/
def FailsWith (store : Store) (id : ThunkId) (upset : Upset) (after : Store) : Prop :=
  State.GoesTo context ⟨store, meter, .force id, []⟩ ⟨after, meter, .raise upset, []⟩

end

section

variable {context : Context} {meter : DepthMeter} {store after : Store} {id : ThunkId}

/-- A computation that is there with a value is evaluated to it. -/
theorem ForcesTo.of_forced {value : Value} (found : store.cell id = .forced value) :
    ForcesTo context meter store id value store :=
  .step (State.step_force_forced found) (.refl _)

/-- What a computation is evaluated to is given to whatever waits for it. -/
theorem ForcesTo.above {value : Value} (forces : ForcesTo context meter store id value after)
    (stack : List Frame) :
    State.GoesTo context ⟨store, meter, .force id, stack⟩ ⟨after, meter, .give value, stack⟩ :=
  State.GoesTo.onto forces (State.not_ended_of_give rfl) stack

/-- What a computation goes wrong with is passed to whatever waits for it. -/
theorem FailsWith.above {upset : Upset} (fails : FailsWith context meter store id upset after)
    (stack : List Frame) :
    State.GoesTo context ⟨store, meter, .force id, stack⟩ ⟨after, meter, .raise upset, stack⟩ :=
  State.GoesTo.onto fails (State.not_ended_of_raise rfl) stack

/-- A value is given, or a failure passed, to the host. -/
def State.Hands (state : State) : Prop :=
  state.stack = [] ∧ ((∃ value, state.control = .give value) ∨ ∃ upset, state.control = .raise upset)

/-- What is handed to the host ends the run. -/
theorem State.Hands.ends {state : State} (hands : state.Hands) : (state.step context).Ended := by
  obtain ⟨store, meter, control, stack⟩ := state
  obtain ⟨empty, passes⟩ := hands
  dsimp only at empty passes
  subst empty
  rcases passes with ⟨value, rfl⟩ | ⟨upset, rfl⟩
  · exact ⟨.value value, rfl⟩
  · exact ⟨.upset upset none, rfl⟩

/-- What is handed to the host is not the end yet. -/
theorem State.Hands.unfinished {state : State} (hands : state.Hands) : ¬ state.Ended := by
  rintro ⟨ending, done⟩
  rcases hands.2 with ⟨value, given⟩ | ⟨upset, raised⟩
  · cases given.symm.trans done
  · cases raised.symm.trans done

/-- From one state, only one thing is handed to the host. -/
theorem State.GoesTo.unique {start first second : State} (left : GoesTo context start first)
    (right : GoesTo context start second) (hands : first.Hands) (also : second.Hands) :
    first = second := by
  -- The state that is reached first is followed by the end, which is not the other one.
  have same {few many : Nat} (less : few ≤ many) (hands : (start.run context few).Hands)
      (also : (start.run context many).Hands) : start.run context few = start.run context many := by
    obtain rfl | more := Nat.eq_or_lt_of_le less
    · rfl
    · obtain ⟨rest, rfl⟩ : ∃ rest, many = few + (rest + 1) := ⟨many - few - 1, by omega⟩
      rw [run_add, run_succ, hands.ends.run] at also
      exact absurd hands.ends also.unfinished
  obtain ⟨few, rfl⟩ := left
  obtain ⟨many, rfl⟩ := right
  rcases Nat.le_total few many with less | less
  · exact same less hands also
  · exact (same less also hands).symm

/-- A computation is evaluated to one value, in one way. -/
theorem ForcesTo.unique {value other : Value} {later : Store}
    (left : ForcesTo context meter store id value after)
    (right : ForcesTo context meter store id other later) : value = other ∧ after = later := by
  have same := State.GoesTo.unique left right ⟨rfl, .inl ⟨_, rfl⟩⟩ ⟨rfl, .inl ⟨_, rfl⟩⟩
  exact ⟨Control.give.inj (congrArg State.control same), congrArg State.store same⟩

/-- A computation goes wrong with one failure, in one way. -/
theorem FailsWith.unique {upset other : Upset} {later : Store}
    (left : FailsWith context meter store id upset after)
    (right : FailsWith context meter store id other later) : upset = other ∧ after = later := by
  have same := State.GoesTo.unique left right ⟨rfl, .inr ⟨_, rfl⟩⟩ ⟨rfl, .inr ⟨_, rfl⟩⟩
  exact ⟨Control.raise.inj (congrArg State.control same), congrArg State.store same⟩

/-- A computation that is evaluated to a value does not go wrong. -/
theorem ForcesTo.not_fails {value : Value} {upset : Upset} {later : Store}
    (left : ForcesTo context meter store id value after) :
    ¬ FailsWith context meter store id upset later := by
  intro right
  have same := State.GoesTo.unique left right ⟨rfl, .inl ⟨_, rfl⟩⟩ ⟨rfl, .inr ⟨_, rfl⟩⟩
  cases congrArg State.control same

/-- A computation that is evaluated to a value keeps it, and no other one goes back. -/
theorem ForcesTo.forced {value : Value} (forces : ForcesTo context meter store id value after) :
    after.cell id = .forced value ∧ store.Precedes after := by
  obtain ⟨steps, reached⟩ := forces
  have order := (WellNested.run context steps ⟨store, meter, .force id, []⟩ (.nil store)).2
  have ended : State.run context (steps + 1) ⟨store, meter, .force id, []⟩ =
      ⟨after, meter, .done (.value value), []⟩ := by
    rw [State.run_last, reached]
    rfl
  obtain ⟨before, less, last, level, given, -, returned, found⟩ :=
    State.force_returns (.nil store) ended
  -- The value that is given to the host is the one that was found.
  have also : State.GoesTo context ⟨store, meter, .force id, []⟩ ⟨last, level, .give given, []⟩ :=
    ⟨before, returned⟩
  have same := also.unique ⟨steps, reached⟩ ⟨rfl, .inl ⟨_, rfl⟩⟩ ⟨rfl, .inl ⟨_, rfl⟩⟩
  obtain rfl : given = value := Control.give.inj (congrArg State.control same)
  obtain rfl : last = after := congrArg State.store same
  rw [reached] at order
  exact ⟨found, order⟩

/-- A computation that goes wrong takes no other one back. -/
theorem FailsWith.precedes {upset : Upset} (fails : FailsWith context meter store id upset after) :
    store.Precedes after := by
  obtain ⟨steps, reached⟩ := fails
  have order := (WellNested.run context steps ⟨store, meter, .force id, []⟩ (.nil store)).2
  rwa [reached] at order

end

/-! Turns. -/

/-- What a step along a list comes to. -/
inductive Stop
  /-- An element, the computation that stands for it, and the position behind it. -/
  | item (element : Visible) (id : ThunkId) (rest : Cursor)
  /-- The end of the list. -/
  | finished
  /-- A right part that goes wrong or is no list, with the right parts behind it. -/
  | upset (upset : Upset) (left : List ThunkId)

/-- A step along a list. Right parts are asked for only where everything in front of them is used up. -/
inductive Turn (context : Context) (meter : DepthMeter) : Store → Cursor → Stop → Store → Prop
  | elem {store : Store} {items : Array ThunkId} {start : Nat} {id : ThunkId} {pending : List ThunkId}
    (found : items[start]? = some id) :
    Turn context meter store ⟨.elems items start, pending⟩
      (.item (.thunk id) id ⟨.elems items (start + 1), pending⟩) store
  /-- An integer of a range gets a computation of its own. -/
  | int {store : Store} {next stop : Int64} {pending : List ThunkId} (more : next < stop) :
    Turn context meter store ⟨.range next stop, pending⟩
      (.item (.int next) store.cells.size ⟨.range (next + 1) stop, pending⟩)
      (store.ready (.int next)).2
  | concat {store after : Store} {left : LazyList} {right : ThunkId} {pending : List ThunkId} {stop : Stop}
    (turn : Turn context meter store ⟨left, right :: pending⟩ stop after) :
    Turn context meter store ⟨.concat left right, pending⟩ stop after
  | finished {store : Store} {front : LazyList} (used : front.UsedUp) :
    Turn context meter store ⟨front, []⟩ .finished store
  | cross {store between after : Store} {front items : LazyList} {right : ThunkId}
    {pending : List ThunkId} {stop : Stop} (used : front.UsedUp)
    (forces : ForcesTo context meter store right (.list items) between)
    (turn : Turn context meter between ⟨items, pending⟩ stop after) :
    Turn context meter store ⟨front, right :: pending⟩ stop after
  | fails {store after : Store} {front : LazyList} {right : ThunkId} {pending : List ThunkId}
    {upset : Upset} (used : front.UsedUp) (fails : FailsWith context meter store right upset after) :
    Turn context meter store ⟨front, right :: pending⟩ (.upset upset pending) after
  | noList {store after : Store} {front : LazyList} {right : ThunkId} {pending : List ThunkId}
    {value : Value} (used : front.UsedUp) (forces : ForcesTo context meter store right value after)
    (other : value.kind ≠ .list) :
    Turn context meter store ⟨front, right :: pending⟩
      (.upset (.fault (.notAList .concatRight value.kind)) pending) after

/-- What a step comes to where everything in front of a right part is used up. -/
inductive Crosses (context : Context) (meter : DepthMeter) (store : Store) (right : ThunkId)
    (pending : List ThunkId) : Stop → Store → Prop
  | list {between after : Store} {items : LazyList} {stop : Stop}
    (forces : ForcesTo context meter store right (.list items) between)
    (turn : Turn context meter between ⟨items, pending⟩ stop after) : Crosses context meter store right
      pending stop after
  | fails {after : Store} {upset : Upset} (fails : FailsWith context meter store right upset after) :
    Crosses context meter store right pending (.upset upset pending) after
  | noList {after : Store} {value : Value} (forces : ForcesTo context meter store right value after)
    (other : value.kind ≠ .list) : Crosses context meter store right pending
      (.upset (.fault (.notAList .concatRight value.kind)) pending) after

/-- What the evaluator does next when a step of a walk has come to something. -/
def Context.stopStep (context : Context) (store : Store) (meter : DepthMeter) (consumer : Consumer)
    (stack : List Frame) : Stop → State
  | .item _ id rest =>
    consumeStep context.annotations.graph store meter consumer (some id) rest stack
  | .finished => consumeStep context.annotations.graph store meter consumer none (.before []) stack
  | .upset upset left => ⟨store, meter, .raise upset, .spine left consumer :: stack⟩

namespace Turn

variable {context : Context} {meter : DepthMeter} {store after : Store} {cursor : Cursor} {stop : Stop}

/-- A step along a join is one along its left part. -/
theorem of_concat {left : LazyList} {right : ThunkId} {pending : List ThunkId}
    (turn : Turn context meter store ⟨.concat left right, pending⟩ stop after) :
    Turn context meter store ⟨left, right :: pending⟩ stop after := by
  cases turn with
  | concat turn => exact turn
  | finished used | cross used | fails used | noList used => exact used.elim

/-- Behind a front that is used up, a step asks for the right part. -/
theorem crosses {front : LazyList} {right : ThunkId} {pending : List ThunkId}
    (turn : Turn context meter store ⟨front, right :: pending⟩ stop after) (used : front.UsedUp) :
    Crosses context meter store right pending stop after := by
  cases turn with
  | elem found => cases found.symm.trans used
  | int more => exact absurd more used
  | concat turn => exact used.elim
  | cross _ forces turn => exact .list forces turn
  | fails _ fails => exact .fails fails
  | noList _ forces other => exact .noList forces other

/-- The evaluator takes each step, whatever the walk is for and whatever waits below it. -/
theorem goesTo (turn : Turn context meter store cursor stop after) (consumer : Consumer)
    (stack : List Frame) :
    State.GoesTo context ⟨store, meter, .advance cursor consumer, stack⟩
      (context.stopStep after meter consumer stack stop) := by
  -- One rule of the evaluator for each way to take a step.
  induction turn with
  | elem found =>
    refine ⟨1, ?_⟩
    simp [State.run, State.step, Context.advanceStep, Context.stopStep, found]
  | int more =>
    refine ⟨1, ?_⟩
    simp [State.run, State.step, Context.advanceStep, Context.stopStep, Store.ready, more]
  | concat turn ih => exact .step rfl ih
  | finished used => exact .step used.step (.refl _)
  | cross used forces turn ih =>
    -- The right part is evaluated above the walk, which then goes on with its elements.
    exact .step used.step ((forces.above _).trans (.step rfl ih))
  | fails used fails => exact .step used.step (fails.above _)
  | @noList store after front right pending value used forces other =>
    -- The value is refused by the frame, which stays.
    have refused : State.step context ⟨after, meter, .give value, .spine pending consumer :: stack⟩ =
        ⟨after, meter, .fail (.notAList .concatRight value.kind), .spine pending consumer :: stack⟩ := by
      cases value with
      | list items => exact absurd rfl other
      | _ => rfl
    exact .step used.step ((forces.above _).trans (.step refused (.refl _)))

/-- A step along a list takes no computation back. -/
theorem precedes (turn : Turn context meter store cursor stop after) : store.Precedes after := by
  induction turn with
  | elem found => exact .refl _
  | int more => exact (Store.ready_extends ..).precedes
  | concat turn ih => exact ih
  | finished used => exact .refl _
  | cross used forces turn ih => exact forces.forced.2.trans ih
  | fails used fails => exact fails.precedes
  | noList used forces other => exact forces.forced.2

/-- From a position, a step comes to one thing only, in one way. -/
theorem unique {other : Stop} {later : Store} (left : Turn context meter store cursor stop after)
    (right : Turn context meter store cursor other later) : stop = other ∧ after = later := by
  -- The position decides what is looked at, and asking for a right part has one outcome.
  induction left generalizing other later with
  | @elem store items start id pending found =>
    cases right with
    | elem also =>
      obtain rfl := Option.some.inj (found.symm.trans also)
      exact ⟨rfl, rfl⟩
    | finished used | cross used | fails used | noList used => cases found.symm.trans used
  | int more =>
    cases right with
    | int => exact ⟨rfl, rfl⟩
    | finished used | cross used | fails used | noList used => exact absurd more used
  | concat turn ih => exact ih right.of_concat
  | finished used =>
    cases right with
    | elem found => cases found.symm.trans used
    | int more => exact absurd more used
    | concat turn => exact used.elim
    | finished => exact ⟨rfl, rfl⟩
  | cross used forces turn ih =>
    cases right.crosses used with
    | list also turn =>
      obtain ⟨same, rfl⟩ := forces.unique also
      obtain rfl := Value.list.inj same
      exact ih turn
    | fails fails => exact absurd fails forces.not_fails
    | noList also other =>
      obtain ⟨rfl, rfl⟩ := forces.unique also
      exact absurd rfl other
  | fails used fails =>
    cases right.crosses used with
    | list forces turn => exact absurd fails forces.not_fails
    | fails also =>
      obtain ⟨rfl, rfl⟩ := fails.unique also
      exact ⟨rfl, rfl⟩
    | noList forces other => exact absurd fails forces.not_fails
  | noList used forces other =>
    cases right.crosses used with
    | list also turn =>
      obtain ⟨rfl, rfl⟩ := forces.unique also
      exact absurd rfl other
    | fails fails => exact absurd fails forces.not_fails
    | noList also other =>
      obtain ⟨rfl, rfl⟩ := forces.unique also
      exact ⟨rfl, rfl⟩

/-- Where the front is used up it does not matter which it was. -/
theorem of_usedUp {front other : LazyList} {pending : List ThunkId} (used : front.UsedUp)
    (also : other.UsedUp) (turn : Turn context meter store ⟨front, pending⟩ stop after) :
    Turn context meter store ⟨other, pending⟩ stop after := by
  cases turn with
  | elem found => cases found.symm.trans used
  | int more => exact absurd more used
  | concat turn => exact used.elim
  | finished used => exact .finished also
  | cross used forces turn => exact .cross also forces turn
  | fails used fails => exact .fails also fails
  | noList used forces other => exact .noList also forces other

/-- A walk of the host that comes to an end at a right part takes a step there. -/
theorem of_right {right : ThunkId} {pending : List ThunkId} {front : LazyList} (used : front.UsedUp)
    {steps : Nat}
    (shorter : ∀ fewer ≤ steps, ∀ {store cursor},
      State.Within .all ⟨store, meter, .advance cursor .report, []⟩ →
      (State.run context fewer ⟨store, meter, .advance cursor .report, []⟩).Ended →
      ∃ stop after, Turn context meter store cursor stop after)
    (within : State.Within .all ⟨store, meter, .force right, [.spine pending .report]⟩)
    (ended : (State.run context steps ⟨store, meter, .force right, [.spine pending .report]⟩).Ended) :
    ∃ stop after, Turn context meter store ⟨front, right :: pending⟩ stop after := by
  have bottomed : State.Bottomed ⟨store, meter, .force right, [.spine pending .report]⟩ :=
    ⟨⟨fun _ => rfl, trivial⟩, fun reports => by cases reports⟩
  have empty : (State.run context steps
      ⟨store, meter, .force right, [.spine pending .report]⟩).stack = [] := by
    have later := @State.Bottomed.run context _ bottomed within steps
    obtain ⟨ending, done⟩ := ended
    exact later.alone (by rw [done]; rfl)
  -- The walk waits below the right part, and what comes to an end passes through it.
  have waits : [Frame.spine pending .report] ≠ [] := nofun
  have unfinished : ¬ State.Ended ⟨store, meter, .force right, []⟩ := by
    rintro ⟨ending, done⟩
    cases done
  obtain ⟨before, less, between, level, control, passes, alone, reached⟩ :=
    State.passes_before_end waits steps unfinished ended empty
  -- The right part is evaluated on the level of the walk.
  have inside : State.Within .all ⟨store, meter, .force right, []⟩ :=
    ⟨within.store, within.control, fun _ member => nomatch member⟩
  have same := @State.level_run context meter _ inside rfl before
  rw [alone] at same
  obtain rfl : level = meter := same
  have reached : State.run context before ⟨store, level, .force right, [.spine pending .report]⟩ =
    ⟨between, level, control, [.spine pending .report]⟩ := reached
  have known := @State.Within.run context _ within (before + 1)
  rcases passes with ⟨value, rfl⟩ | ⟨upset, rfl⟩
  · have forces : ForcesTo context level store right value between := ⟨before, alone⟩
    by_cases list : value.kind = .list
    · cases value with
      | list items =>
        -- The walk goes on with the elements of the right part.
        obtain ⟨-, taken, rest⟩ :=
          State.run_next (Nat.le_of_lt less) reached (State.not_ended_of_give rfl) ended rfl
        rw [taken] at known
        obtain ⟨stop, after, turn⟩ := shorter _ (Nat.sub_le _ _) known (rest ▸ ended)
        exact ⟨stop, after, .cross used forces turn⟩
      | _ => cases list
    · exact ⟨_, between, .noList used forces list⟩
  · exact ⟨_, between, .fails used ⟨before, alone⟩⟩

/-- A walk of the host that comes to an end takes a step. -/
theorem of_ended (steps : Nat) {store : Store} {cursor : Cursor}
    (within : State.Within .all ⟨store, meter, .advance cursor .report, []⟩)
    (ended : (State.run context steps ⟨store, meter, .advance cursor .report, []⟩).Ended) :
    ∃ stop after, Turn context meter store cursor stop after := by
  -- A right part may take any number of steps, so that all shorter walks are assumed to end.
  induction steps using Nat.strongRecOn generalizing store cursor with
  | _ steps ih =>
    obtain _ | steps := steps
    · obtain ⟨ending, done⟩ := ended
      cases done
    obtain ⟨front, pending⟩ := cursor
    have next := @State.Within.step _ context Bounds.all_fits trivial trivial _ within
    rw [State.run_succ] at ended
    have crosses (used : front.UsedUp) :
        ∃ stop after, Turn context meter store ⟨front, pending⟩ stop after := by
      rw [used.step] at ended next
      cases pending with
      | nil => exact ⟨.finished, store, .finished used⟩
      | cons right pending =>
        exact of_right used (fun fewer less => ih fewer (Nat.lt_succ_of_le less)) next ended
    cases front with
    | elems items start =>
      cases found : items[start]? with
      | some id => exact ⟨_, _, .elem found⟩
      | none => exact crosses found
    | range first last =>
      by_cases more : first < last
      · exact ⟨_, _, .int more⟩
      · exact crosses more
    | concat left right =>
      obtain ⟨stop, after, turn⟩ := ih steps (Nat.lt_succ_self steps) next ended
      exact ⟨stop, after, .concat turn⟩

end Turn

end LazyConfig
