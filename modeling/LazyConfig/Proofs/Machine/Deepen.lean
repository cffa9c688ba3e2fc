import LazyConfig.Proofs.Machine.Runs
import LazyConfig.Proofs.Store.Holds

/-!
Evaluating all parts of a value: when it ends with a value, the value is the one that it started
with, and every part of it is evaluated.
-/

namespace LazyConfig

/-- A run of a well nested stack keeps it well nested and brings no computation back. -/
theorem WellNested.run (context : Context) (steps : Nat) (state : State)
    (nested : WellNested state.store state.stack) :
    WellNested (state.run context steps).store (state.run context steps).stack ∧
      state.store.Precedes (state.run context steps).store := by
  induction steps generalizing state with
  | zero => exact ⟨nested, .refl _⟩
  | succ steps ih =>
    have first := nested.step context
    have rest := ih _ first.1
    rw [State.run_succ]
    exact ⟨rest.1, first.2.trans rest.2⟩

/-- A value all of whose parts are evaluated. -/
def Store.Whole (store : Store) (value : Value) : Prop :=
  ∃ data, store.Holds value data

/-- A position in a list from which on all elements and all right parts are evaluated. -/
structure Store.WholeFrom (store : Store) (cursor : Cursor) : Prop where
  front : ∃ parts, store.ListHolds cursor.front parts
  pending : ∀ right ∈ cursor.pending, ∃ items parts,
    store.cell right = .forced (.list items) ∧ store.ListHolds items parts

namespace State

variable {context : Context} {store last : Store} {meter lastMeter : DepthMeter} {value : Value}

/-- A run that has come to a state without having ended takes one more step from there. -/
theorem run_next {steps before : Nat} {start middle ended : State} (less : before ≤ steps)
    (reached : start.run context before = middle) (unfinished : ¬ middle.Ended)
    (finished : ended.Ended) (ran : start.run context steps = ended) :
    before < steps ∧ start.run context (before + 1) = middle.step context ∧
      (middle.step context).run context (steps - (before + 1)) = ended := by
  -- With no step left the middle would be the end already.
  have rest := run_sub less reached ran
  obtain more | more := Nat.eq_zero_or_pos (steps - before)
  · rw [more] at rest
    obtain rfl : middle = ended := rest
    exact absurd finished unfinished
  · have whole : steps - before = (steps - (before + 1)) + 1 := by omega
    rw [whole, run_succ] at rest
    exact ⟨by omega, by rw [run_add, reached, run_succ 0]; rfl, rest⟩

/-- A computation that is asked for in a run that ends with a value gets a value first. -/
theorem force_returns {id : ThunkId} {stack : List Frame} (nested : WellNested store stack)
    {steps : Nat}
    (ended : State.run context steps ⟨store, meter, .force id, stack⟩ =
      ⟨last, lastMeter, .done (.value value), []⟩) :
    ∃ before ≤ steps, ∃ store' meter' given, 0 < before ∧
      State.run context before ⟨store, meter, .force id, stack⟩ =
        ⟨store', meter', .give given, stack⟩ ∧ store'.cell id = .forced given := by
  obtain _ | steps := steps
  · cases congrArg State.control ended
  have fails : ∀ upset, (State.step context ⟨store, meter, .force id, stack⟩).control =
      .raise upset → False := by
    intro upset raised
    rw [run_succ] at ended
    exact raise_not_value raised steps value (congrArg State.control ended)
  -- A computation that fails, or that is under way, would have passed a failure, and the run ends
  -- with a value.
  cases found : store.cell id with
  | suspended work =>
    -- The work gives its value to the frame that settles the computation.
    rw [run_succ, step_force_onto found] at ended
    have unfinished : ¬ (Context.resumeStep (store.set id .inProgress) meter work []).Ended := by
      rintro ⟨ending, done⟩
      cases work <;> cases done
    obtain ⟨before, less, store', meter', given, reached⟩ :=
      gives_before_end (by simp) steps unfinished ended
    have arrived : State.run context (before + 1) ⟨store, meter, .force id, stack⟩ =
        ⟨store', meter', .give given, .update id :: stack⟩ := by
      rw [run_succ, step_force_onto found, reached]
    have inside : id < store'.cells.size := by
      have whole := (WellNested.run context (before + 1) ⟨store, meter, .force id, stack⟩ nested).1
      rw [arrived] at whole
      exact whole.inside id List.mem_cons_self
    refine ⟨before + 1 + 1, by omega, store'.set id (.forced given), meter', given, by omega, ?_, ?_⟩
    · rw [run_add, arrived]
      rfl
    · exact Store.cell_set_self inside _
  | inProgress => exact (fails _ (congrArg State.control (step_force_inProgress found))).elim
  | forced given =>
    refine ⟨1, by omega, store, meter, given, by omega, ?_, found⟩
    rw [run_succ, step_force_forced found, State.run]
  | failed failure => exact (fails _ (congrArg State.control (step_force_failed found))).elim

/-- A computation that a frame waits for gives its value to the frame, and the run goes on. -/
theorem force_then {id : ThunkId} {frame : Frame} (settlesNone : frame.settles? = none)
    {stack : List Frame} (nested : WellNested store stack) {steps : Nat}
    (ended : State.run context steps ⟨store, meter, .force id, frame :: stack⟩ =
      ⟨last, lastMeter, .done (.value value), []⟩) :
    ∃ before < steps, ∃ store' meter' given, store'.cell id = .forced given ∧
      WellNested store' stack ∧
      State.run context (before + 1) ⟨store, meter, .force id, frame :: stack⟩ =
        State.step context ⟨store', meter', .give given, frame :: stack⟩ ∧
      (State.step context ⟨store', meter', .give given, frame :: stack⟩).run context
        (steps - (before + 1)) = ⟨last, lastMeter, .done (.value value), []⟩ := by
  -- The frame settles nothing, so the same computations are waited for with it and without.
  have same : underway (frame :: stack) = underway stack := by simp [underway, settlesNone]
  have waits : WellNested store (frame :: stack) := nested.extend (.refl _) same
  obtain ⟨before, less, store', meter', given, -, reached, found⟩ := force_returns waits ended
  obtain ⟨room, taken, remains⟩ := run_next less reached (not_ended_of_give rfl) ⟨_, rfl⟩ ended
  have arrived := (WellNested.run context before ⟨store, meter, .force id, frame :: stack⟩ waits).1
  rw [reached] at arrived
  exact ⟨before, room, store', meter', given, found, arrived.extend (.refl _) same.symm, taken, remains⟩

/-- A run that comes to giving a whole to a stack, in a store of which something holds. -/
def Completes (context : Context) (start : State) (steps : Nat) (whole : Value)
    (stack : List Frame) (holds : Store → Prop) : Prop :=
  ∃ before ≤ steps, ∃ store meter,
    start.run context before = ⟨store, meter, .give whole, stack⟩ ∧ holds store

/-- A run that completes does so from where it started. -/
theorem Completes.of_rest {start middle : State} {steps before : Nat} {whole : Value}
    {stack : List Frame} {first second : Store → Prop} (less : before ≤ steps)
    (reached : start.run context before = middle)
    (completes : Completes context middle (steps - before) whole stack first)
    (nested : WellNested middle.store middle.stack)
    (follows : ∀ store, middle.store.Precedes store → first store → second store) :
    Completes context start steps whole stack second := by
  obtain ⟨after, fewer, store, meter, arrived, holds⟩ := completes
  refine ⟨before + after, by omega, store, meter, by rw [run_add, reached, arrived], ?_⟩
  have order := (WellNested.run context after middle nested).2
  rw [arrived] at order
  exact follows store order holds

/-- The two ways in which evaluating all parts goes on, for runs of a given length. -/
structure Deepens (context : Context) (last : State) (steps : Nat) : Prop where
  work : ∀ {store meter work whole stack}, WellNested store stack →
    State.run context steps ⟨store, meter, .deepen work whole, stack⟩ = last →
    Completes context ⟨store, meter, .deepen work whole, stack⟩ steps whole stack fun store =>
      ∀ part ∈ work, store.Whole part
  walk : ∀ {store meter cursor work whole stack}, WellNested store stack →
    State.run context steps ⟨store, meter, .advance cursor (.deepen work whole), stack⟩ = last →
    Completes context ⟨store, meter, .advance cursor (.deepen work whole), stack⟩ steps whole stack
      fun store => store.WholeFrom cursor ∧ ∀ part ∈ work, store.Whole part

/-- An element is evaluated before the walk goes on, and joins the work that is left. -/
theorem Deepens.item {steps : Nat}
    (shorter : ∀ fewer < steps, Deepens context ⟨last, lastMeter, .done (.value value), []⟩ fewer)
    {id : ThunkId} {rest : Cursor} {work : List Value} {whole : Value} {stack : List Frame}
    (nested : WellNested store stack)
    (ended : State.run context steps ⟨store, meter, .force id, .deepItem rest work whole :: stack⟩ =
      ⟨last, lastMeter, .done (.value value), []⟩) :
    Completes context ⟨store, meter, .force id, .deepItem rest work whole :: stack⟩ steps whole stack
      fun store => (∃ value, store.cell id = .forced value ∧ store.Whole value) ∧
        store.WholeFrom rest ∧ ∀ part ∈ work, store.Whole part := by
  obtain ⟨before, room, store', meter', given, found, after, taken, remains⟩ :=
    force_then rfl nested ended
  refine .of_rest room taken ((shorter _ (by omega)).walk after remains) after ?_
  rintro later order ⟨whole_rest, parts⟩
  exact ⟨⟨given, order.forced found, parts given List.mem_cons_self⟩, whole_rest,
    fun part member => parts part (List.mem_cons_of_mem _ member)⟩

/-- A right part is evaluated to a list before the walk goes on with its elements. -/
theorem Deepens.right {steps : Nat}
    (shorter : ∀ fewer < steps, Deepens context ⟨last, lastMeter, .done (.value value), []⟩ fewer)
    {right : ThunkId} {pending : List ThunkId} {work : List Value} {whole : Value}
    {stack : List Frame} (nested : WellNested store stack)
    (ended : State.run context steps
      ⟨store, meter, .force right, .spine pending (.deepen work whole) :: stack⟩ =
        ⟨last, lastMeter, .done (.value value), []⟩) :
    Completes context ⟨store, meter, .force right, .spine pending (.deepen work whole) :: stack⟩
      steps whole stack fun store =>
        (∀ id ∈ right :: pending, ∃ items parts,
          store.cell id = .forced (.list items) ∧ store.ListHolds items parts) ∧
        ∀ part ∈ work, store.Whole part := by
  obtain ⟨before, room, store', meter', given, found, after, taken, remains⟩ :=
    force_then rfl nested ended
  -- A right part that is no list would end the run with a failure.
  cases given with
  | list items =>
    refine .of_rest room taken ((shorter _ (by omega)).walk after remains) after ?_
    rintro later order ⟨⟨⟨parts, hold⟩, others⟩, works⟩
    refine ⟨fun id member => ?_, works⟩
    rcases List.mem_cons.mp member with rfl | member
    · exact ⟨items, parts, order.forced found, hold⟩
    · exact others id member
  | _ => exact absurd (congrArg State.control remains) (raise_not_value rfl _ value)

/-- A value that is taken up is whole at once, or walked before the rest of the work. -/
theorem Deepens.take {steps : Nat}
    (next : Deepens context ⟨last, lastMeter, .done (.value value), []⟩ steps) {work : List Value}
    {whole : Value} {stack : List Frame} (nested : WellNested store stack)
    (ended : State.run context (steps + 1) ⟨store, meter, .deepen work whole, stack⟩ =
      ⟨last, lastMeter, .done (.value value), []⟩) :
    Completes context ⟨store, meter, .deepen work whole, stack⟩ (steps + 1) whole stack fun store =>
      ∀ part ∈ work, store.Whole part := by
  have one : State.run context 1 ⟨store, meter, .deepen work whole, stack⟩ =
      State.step context ⟨store, meter, .deepen work whole, stack⟩ := run_succ 0 _
  rw [run_succ] at ended
  -- A list or a record is walked, and what the walk has shown of its parts makes the value whole.
  cases work with
  | nil => exact ⟨1, by omega, store, meter, one, by simp⟩
  | cons part rest =>
    cases part with
    | list items =>
      refine .of_rest (by omega) one (next.walk nested ended) nested ?_
      rintro later - ⟨⟨⟨parts, hold⟩, -⟩, works⟩
      exact List.forall_mem_cons.mpr ⟨⟨_, .list hold⟩, works⟩
    | record fields =>
      refine .of_rest (by omega) one (next.walk nested ended) nested ?_
      rintro later - ⟨⟨⟨parts, hold⟩, -⟩, works⟩
      exact List.forall_mem_cons.mpr ⟨⟨_, .record (Store.ListHolds.of_thunks.mp hold).fields⟩, works⟩
    | _ =>
      refine .of_rest (by omega) one (next.work nested ended) nested ?_
      intro later _ works
      exact List.forall_mem_cons.mpr ⟨⟨_, by constructor⟩, works⟩

/-- When the front is used up, the right parts are next, or else the rest of the work. -/
theorem Deepens.cross {steps : Nat}
    (shorter : ∀ fewer ≤ steps, Deepens context ⟨last, lastMeter, .done (.value value), []⟩ fewer)
    {front : LazyList} {pending : List ThunkId} {work : List Value} {whole : Value}
    {stack : List Frame} (nested : WellNested store stack)
    (ended : State.run context (steps + 1)
      ⟨store, meter, .advance ⟨front, pending⟩ (.deepen work whole), stack⟩ =
        ⟨last, lastMeter, .done (.value value), []⟩)
    (passed : ∃ parts, ∀ later : Store, later.ListHolds front parts)
    (crossed : State.step context
      ⟨store, meter, .advance ⟨front, pending⟩ (.deepen work whole), stack⟩ =
        Context.crossStep context.annotations.graph store meter pending (.deepen work whole) stack) :
    Completes context ⟨store, meter, .advance ⟨front, pending⟩ (.deepen work whole), stack⟩
      (steps + 1) whole stack fun store =>
        store.WholeFrom ⟨front, pending⟩ ∧ ∀ part ∈ work, store.Whole part := by
  have one : State.run context 1 ⟨store, meter, .advance ⟨front, pending⟩ (.deepen work whole), stack⟩ =
      State.step context ⟨store, meter, .advance ⟨front, pending⟩ (.deepen work whole), stack⟩ :=
    run_succ 0 _
  rw [run_succ] at ended
  rw [crossed] at ended one
  obtain ⟨parts, hold⟩ := passed
  -- Either no right part waits, and the rest of the work is next, or the first of them is asked for
  -- and walked.
  cases pending with
  | nil =>
    refine .of_rest (by omega) one ((shorter steps (Nat.le_refl _)).work nested ended) nested ?_
    exact fun later _ works => ⟨⟨⟨parts, hold later⟩, by simp⟩, works⟩
  | cons right rest =>
    have fewer : ∀ less < steps, Deepens context ⟨last, lastMeter, .done (.value value), []⟩ less :=
      fun less bound => shorter less (Nat.le_of_lt bound)
    refine .of_rest (by omega) one (Deepens.right fewer nested ended) (nested.extend (.refl _) rfl) ?_
    exact fun later _ holds => ⟨⟨⟨parts, hold later⟩, holds.1⟩, holds.2⟩

/-- A walk that goes on evaluates what is next, and the rest is walked in a shorter run. -/
theorem Deepens.along {steps : Nat}
    (shorter : ∀ fewer ≤ steps, Deepens context ⟨last, lastMeter, .done (.value value), []⟩ fewer)
    {cursor : Cursor} {work : List Value} {whole : Value} {stack : List Frame}
    (nested : WellNested store stack)
    (ended : State.run context (steps + 1)
      ⟨store, meter, .advance cursor (.deepen work whole), stack⟩ =
        ⟨last, lastMeter, .done (.value value), []⟩) :
    Completes context ⟨store, meter, .advance cursor (.deepen work whole), stack⟩ (steps + 1) whole
      stack fun store => store.WholeFrom cursor ∧ ∀ part ∈ work, store.Whole part := by
  have one : State.run context 1 ⟨store, meter, .advance cursor (.deepen work whole), stack⟩ =
      State.step context ⟨store, meter, .advance cursor (.deepen work whole), stack⟩ := run_succ 0 _
  have fewer : ∀ less < steps, Deepens context ⟨last, lastMeter, .done (.value value), []⟩ less :=
    fun less bound => shorter less (Nat.le_of_lt bound)
  obtain ⟨front, pending⟩ := cursor
  have rest := ended
  rw [run_succ] at rest
  -- The walk takes one step for what is in front; the run that is left is shorter, so it evaluates
  -- the rest.
  cases front with
  | elems items start =>
    cases found : items[start]? with
    | none =>
      have finished : items.toList.drop start = [] := by simpa using found
      refine Deepens.cross shorter nested ended ⟨[], fun later => .elems (finished ▸ .nil)⟩ ?_
      simp [State.step, Context.advanceStep, found]
    | some id =>
      have stepped : State.step context
          ⟨store, meter, .advance ⟨.elems items start, pending⟩ (.deepen work whole), stack⟩ =
          ⟨store, meter, .force id,
            .deepItem ⟨.elems items (start + 1), pending⟩ work whole :: stack⟩ := by
        simp [State.step, Context.advanceStep, Context.consumeStep, found]
      rw [stepped] at one rest
      refine .of_rest (by omega) one (Deepens.item fewer nested rest)
        (nested.extend (.refl _) rfl) ?_
      rintro later - ⟨⟨given, forced, data, holds⟩, ⟨⟨parts, others⟩, rights⟩, works⟩
      cases others with
      | elems others =>
        have all := Store.PartsHold.cons forced holds others
        rw [← LazyList.drop_of_getElem? found] at all
        exact ⟨⟨⟨_, .elems all⟩, rights⟩, works⟩
  | range next stop =>
    by_cases more : next < stop
    · -- An integer of the range is made when it is passed.
      have stepped : State.step context
          ⟨store, meter, .advance ⟨.range next stop, pending⟩ (.deepen work whole), stack⟩ =
          ⟨(store.ready (.int next)).2, meter, .force (store.ready (.int next)).1,
            .deepItem ⟨.range (next + 1) stop, pending⟩ work whole :: stack⟩ := by
        simp [State.step, Context.advanceStep, Context.consumeStep, more]
      have grown := store.ready_extends (.int next)
      rw [stepped] at one rest
      refine .of_rest (by omega) one (Deepens.item fewer (nested.extend grown rfl) rest)
        (nested.extend grown rfl) ?_
      rintro later - ⟨-, ⟨⟨parts, others⟩, rights⟩, works⟩
      exact ⟨⟨⟨_, .rangeNext more others⟩, rights⟩, works⟩
    · refine Deepens.cross shorter nested ended ⟨[], fun later => .rangeEnd more⟩ ?_
      simp [State.step, Context.advanceStep, more]
  | concat left right =>
    refine .of_rest (by omega) one ((shorter steps (Nat.le_refl _)).walk nested rest) nested ?_
    rintro later - ⟨⟨⟨first, front⟩, rights⟩, works⟩
    -- The walk has passed the right part as the first of those that wait.
    obtain ⟨items, second, found, back⟩ := rights right List.mem_cons_self
    exact ⟨⟨⟨_, .concat front found back⟩,
      fun id member => rights id (List.mem_cons_of_mem _ member)⟩, works⟩

/-- Evaluating all parts of a value goes through all of them, whatever the length of the run. -/
theorem deepens (steps : Nat) :
    Deepens context ⟨last, lastMeter, .done (.value value), []⟩ steps := by
  -- Each step leaves a shorter run of one of the two kinds, or the evaluation of one part.
  induction steps using Nat.strongRecOn with
  | ind steps shorter =>
  constructor
  · intro store meter work whole stack nested ended
    obtain _ | steps := steps
    · cases congrArg State.control ended
    exact Deepens.take (shorter steps (Nat.lt_succ_self _)) nested ended
  · intro store meter cursor work whole stack nested ended
    obtain _ | steps := steps
    · cases congrArg State.control ended
    exact Deepens.along (fun fewer bound => shorter fewer (Nat.lt_succ_of_le bound)) nested ended

/-- When all parts of a value have been evaluated, it is still the value that was asked for. -/
theorem deepen_ends {part : Value} (nested : WellNested store []) {steps : Nat}
    (ended : State.run context steps ⟨store, meter, .deepen [part] part, []⟩ =
      ⟨last, lastMeter, .done (.value value), []⟩) : value = part ∧ last.Whole part := by
  -- The run up to the value leaves the evaluation at its end, where nothing more happens.
  obtain ⟨before, less, store', meter', reached, whole⟩ := (deepens steps).work nested ended
  obtain ⟨-, -, remains⟩ := run_next less reached (not_ended_of_give rfl) ⟨_, rfl⟩ ended
  have final : State.Ended (State.step context ⟨store', meter', .give part, []⟩) := ⟨_, rfl⟩
  rw [final.run] at remains
  obtain ⟨rfl, -, rfl⟩ : store' = last ∧ meter' = lastMeter ∧ part = value := by
    simpa [State.step] using remains
  exact ⟨rfl, whole part List.mem_cons_self⟩

/-- A result all of whose parts are asked for has all its parts evaluated. -/
theorem evaluate_ends {control : Control} (unfinished : ∀ ending, control ≠ .done ending)
    (nested : WellNested store [.deepen]) {steps : Nat}
    (ended : State.run context steps ⟨store, meter, control, [.deepen]⟩ =
      ⟨last, lastMeter, .done (.value value), []⟩) : last.Whole value := by
  have alone : ¬ State.Ended ⟨store, meter, control, []⟩ := by
    rintro ⟨ending, done⟩
    exact unfinished ending done
  have waited : [Frame.deepen] ≠ [] := by simp
  -- The value is given to the frame that deepens it, and from there on the run is one of deepening.
  obtain ⟨before, less, store', meter', given, reached⟩ :=
    gives_before_end waited steps alone ended
  have reached' : State.run context before ⟨store, meter, control, [.deepen]⟩ =
      ⟨store', meter', .give given, [.deepen]⟩ := reached
  obtain ⟨-, taken, remains⟩ :=
    run_next (Nat.le_of_lt less) reached' (not_ended_of_give rfl) ⟨_, rfl⟩ ended
  have arrived := (WellNested.run context before ⟨store, meter, control, [.deepen]⟩ nested).1
  rw [reached'] at arrived
  obtain ⟨rfl, whole⟩ := deepen_ends (arrived.extend (.refl _) rfl) remains
  exact whole

end State

end LazyConfig
