import LazyConfig.Proofs.Lists.Turns
import LazyConfig.Proofs.Twins.Runs

/-!
Steps along lists in two stores of paired computations. Whatever a walk is for, it comes to paired
elements, or to the ends of both lists, in as many steps.
-/

namespace LazyConfig

/-! Lists that are used up. -/

/-- Lists of the same form are used up together. -/
theorem ListTwin.usedUp {pairs : Pairing} {front other : LazyList} (same : ListTwin pairs front other)
    (used : front.UsedUp) : other.UsedUp := by
  -- Both fronts have as many elements left, so both have none.
  cases same with
  | @elems items others start paired =>
    have none : items[start]? = none := used
    have item := paired_getElem? paired start
    rw [none] at item
    show others[start]? = .none
    generalize others[start]? = other at item
    cases item
    rfl
  | range next stop => exact used
  | concat => exact used.elim

/-- Nothing is left of a list that is used up. -/
theorem Store.ListHolds.of_usedUp {store : Store} {front : LazyList} {parts : List Data}
    (hold : store.ListHolds front parts) (used : front.UsedUp) : parts = [] := by
  cases hold with
  | @elems items start parts hold =>
    -- No element is left from the position on.
    have finished : items.toList.drop start = [] := by simpa [LazyList.UsedUp] using used
    rw [finished] at hold
    cases hold
    rfl
  | rangeEnd => rfl
  | rangeNext more => exact absurd more used
  | concat => exact used.elim

/-! The data of what a cursor has not passed. -/

namespace Store

variable {store : Store}

/-- The data of a list with right parts: what is in front may be replaced. -/
theorem ListHolds.of_rest {front : LazyList} {pending : List ThunkId} {parts : List Data}
    (hold : store.ListHolds (Cursor.rest ⟨front, pending⟩) parts) :
    ∃ first others, parts = first ++ others ∧ store.ListHolds front first ∧
      ∀ list head, store.ListHolds list head →
        store.ListHolds (Cursor.rest ⟨list, pending⟩) (head ++ others) := by
  induction pending generalizing front parts with
  -- Without right parts the list is all there is.
  | nil => exact ⟨parts, [], by simp, hold, fun list head same => by simpa [Cursor.rest] using same⟩
  | cons right rest ih =>
    -- The front is joined to the first right part before what comes after it is looked at.
    obtain ⟨first, others, rfl, joined, replace⟩ := @ih (.concat front right) parts hold
    cases joined with
    | @concat _ items _ head second front found back =>
      refine ⟨head, second ++ others, by simp, front, fun list start same => ?_⟩
      have whole := replace (.concat list right) (start ++ second) (.concat same found back)
      rwa [List.append_assoc] at whole

/-- What a step along a list comes to, as far as the data go. -/
def Meets (store : Store) : Option ThunkId → Cursor → List Data → Prop
  | some id, rest, parts => ∃ part others, parts = part :: others ∧ store.PartsHold [id] [part] ∧
      store.ListHolds rest.rest others
  | none, _, parts => parts = []

/-- The first of the elements that are left. -/
theorem ListHolds.meets_elem {items : Array ThunkId} {start : Nat} {pending : List ThunkId}
    {id : ThunkId} (found : items[start]? = some id) {parts : List Data}
    (hold : store.ListHolds (Cursor.rest ⟨.elems items start, pending⟩) parts) :
    store.Meets (some id) ⟨.elems items (start + 1), pending⟩ parts := by
  obtain ⟨first, others, rfl, front, replace⟩ := hold.of_rest
  -- The element at the position is the first of those that are left.
  cases front with
  | elems listed =>
    rw [LazyList.drop_of_getElem? found] at listed
    cases listed with
    | @cons _ _ part _ tail here holds listed =>
      exact ⟨part, tail ++ others, rfl, .cons here holds .nil, replace _ tail (.elems listed)⟩

/-- The next integer of a range. -/
theorem ListHolds.meets_int {next stop : Int64} (more : next < stop) {pending : List ThunkId}
    {id : ThunkId} (found : store.cell id = .forced (.int next)) {parts : List Data}
    (hold : store.ListHolds (Cursor.rest ⟨.range next stop, pending⟩) parts) :
    store.Meets (some id) ⟨.range (next + 1) stop, pending⟩ parts := by
  obtain ⟨first, others, rfl, front, replace⟩ := hold.of_rest
  cases front with
  | rangeEnd passed => exact absurd more passed
  | @rangeNext _ _ tail _ front =>
    exact ⟨.int next, tail ++ others, rfl, .cons found (.int next) .nil, replace _ tail front⟩

/-- Where the front is used up, the data are those of the first right part and what comes after it. -/
theorem ListHolds.cross {front items : LazyList} {right : ThunkId} {pending : List ThunkId}
    {parts : List Data} (used : front.UsedUp)
    (found : store.cell right = .forced (.list items))
    (hold : store.ListHolds (Cursor.rest ⟨front, right :: pending⟩) parts) :
    store.ListHolds (Cursor.rest ⟨items, pending⟩) parts := by
  have joined : store.ListHolds (Cursor.rest ⟨.concat front right, pending⟩) parts := hold
  obtain ⟨first, others, rfl, front, replace⟩ := joined.of_rest
  cases front with
  -- What is used up has no data of its own, so that all data are those of the right part.
  | concat front other back =>
    obtain rfl := front.of_usedUp used
    rw [found] at other
    cases other
    exact replace items _ back

end Store

/-- From where a run of a well nested stack has come to, no computation goes back until its end. -/
theorem WellNested.until_end {context : Context} {start middle ended : State} {before steps : Nat}
    (nested : WellNested start.store start.stack) (less : before ≤ steps)
    (reached : start.run context before = middle) (ran : start.run context steps = ended) :
    WellNested middle.store middle.stack ∧ middle.store.Precedes ended.store := by
  have arrived := (nested.run context before start).1
  rw [reached] at arrived
  have rest := State.run_sub less reached ran
  exact ⟨arrived, rest ▸ (arrived.run context (steps - before) middle).2⟩

variable {context : Context} {pairs : Pairing} {left right last : Store} {meter lastMeter : DepthMeter}
  {value whole : Value} {work : List Value} {stack : List Frame}

/-- A step along the list in the second store, as in the first but for any purpose and above any stack. -/
def FindsTwin (context : Context) (pairs : Pairing) (right : Store) (start : DepthMeter) (cursor : Cursor)
    (steps : Nat) (after : Store) (meter : DepthMeter) (item : Option ThunkId) (rest : Cursor) : Prop :=
  ∃ more later image ahead, pairs.Grows right more later ∧ Twins more after later ∧
    Option.Rel more item image ∧ CursorTwin more rest ahead ∧
    ∀ purpose others, State.run context steps ⟨right, start, .advance cursor purpose, others⟩ =
      Context.consumeStep context.annotations.graph later meter purpose image ahead others

/-- A step along a list that is a part of a run with an end, and its twin. -/
def Finds (context : Context) (pairs : Pairing) (left right last : Store) (start : DepthMeter)
    (cursor other : Cursor) (work : List Value) (whole : Value) (stack : List Frame) (steps : Nat) :
    Prop :=
  ∃ before ≤ steps, ∃ after meter item rest, 0 < before ∧
    State.run context before ⟨left, start, .advance cursor (.deepen work whole), stack⟩ =
      Context.consumeStep context.annotations.graph after meter (.deepen work whole) item rest stack ∧
    (∀ parts, last.ListHolds cursor.rest parts → last.Meets item rest parts) ∧
    FindsTwin context pairs right start other before after meter item rest

/-- Runs of a given length that end with a value come to an element or to the end of the list first. -/
structure AllFind (context : Context) (final : State) (work : List Value) (whole : Value)
    (stack : List Frame) (steps : Nat) : Prop where
  finds : ∀ {pairs left right meter cursor other}, Twins pairs left right →
    CursorTwin pairs cursor other → WellNested left stack →
    State.run context steps ⟨left, meter, .advance cursor (.deepen work whole), stack⟩ = final →
    Finds context pairs left right final.store meter cursor other work whole stack steps

/-- What is found after one more step that both take is found. -/
theorem Finds.of_step {cursor other next ahead : Cursor} {steps : Nat}
    (found : Finds context pairs left right last meter next ahead work whole stack steps)
    (stepped : ∀ (store : Store) (purpose : Consumer) (below : List Frame),
      State.step context ⟨store, meter, .advance cursor purpose, below⟩ =
        ⟨store, meter, .advance next purpose, below⟩)
    (stepped_twin : ∀ (store : Store) (purpose : Consumer) (below : List Frame),
      State.step context ⟨store, meter, .advance other purpose, below⟩ =
        ⟨store, meter, .advance ahead purpose, below⟩)
    (same : cursor.rest = next.rest) :
    Finds context pairs left right last meter cursor other work whole stack (steps + 1) := by
  obtain ⟨count, fewer, after, meter', item, rest, -, arrived, meets, more, later, image, cursors,
    grows, between, rel, twin, reached⟩ := found
  refine ⟨count + 1, Nat.succ_le_succ fewer, after, meter', item, rest, Nat.succ_pos count, ?_,
    same ▸ meets, more, later, image, cursors, grows, between, rel, twin, fun purpose others => ?_⟩
  · rw [State.run_succ, stepped, arrived]
  · rw [State.run_succ, stepped_twin, reached]

/-- The next element is there at once, in both stores. -/
theorem Finds.elem (twins : Twins pairs left right) {items elements : Array ThunkId} {start : Nat}
    {pending images : List ThunkId} (listed : List.Forall₂ pairs items.toList elements.toList)
    (paired : List.Forall₂ pairs pending images) {id image : ThunkId} (here : pairs id image)
    (found : items[start]? = some id) (there : elements[start]? = some image) {steps : Nat} :
    Finds context pairs left right last meter ⟨.elems items start, pending⟩
      ⟨.elems elements start, images⟩ work whole stack (steps + 1) := by
  refine ⟨1, by omega, left, meter, some id, ⟨.elems items (start + 1), pending⟩, by omega, ?_,
    fun parts hold => hold.meets_elem found, pairs, right, some image,
    ⟨.elems elements (start + 1), images⟩, .refl _ _, twins, .some here, ⟨.elems _ listed, paired⟩,
    fun purpose others => ?_⟩
  · simp [State.run, State.step, Context.advanceStep, found]
  · simp [State.run, State.step, Context.advanceStep, there]

/-- The next integer of a range gets a place in both stores. -/
theorem Finds.int (twins : Twins pairs left right) {next stop : Int64} (within : next < stop)
    {pending images : List ThunkId} (paired : List.Forall₂ pairs pending images)
    (nested : WellNested left stack) {steps : Nat}
    (ended : State.run context (steps + 1)
      ⟨left, meter, .advance ⟨.range next stop, pending⟩ (.deepen work whole), stack⟩ =
        ⟨last, lastMeter, .done (.value value), []⟩) :
    Finds context pairs left right last meter ⟨.range next stop, pending⟩ ⟨.range next stop, images⟩
      work whole stack (steps + 1) := by
  -- The integer gets a place of its own in each store, and the two places are paired.
  obtain ⟨more, grows, between, here⟩ := twins.ready (.int next)
  have reached : State.run context 1
      ⟨left, meter, .advance ⟨.range next stop, pending⟩ (.deepen work whole), stack⟩ =
        Context.consumeStep context.annotations.graph (left.ready (.int next)).2 meter
          (.deepen work whole) (some (left.ready (.int next)).1) ⟨.range (next + 1) stop, pending⟩
          stack := by
    simp [State.run, State.step, Context.advanceStep, within]
  -- The place of the integer keeps its value to the end of the run.
  have kept := (WellNested.until_end nested (by omega) reached ended).2
  have found : last.cell (left.ready (.int next)).1 = .forced (.int next) := by
    refine Store.Precedes.forced kept ?_
    show (left.ready (.int next)).2.cell (left.ready (.int next)).1 = _
    rw [Store.ready, Store.alloc_fst, Store.cell_alloc, if_pos rfl]
  refine ⟨1, by omega, (left.ready (.int next)).2, meter, some (left.ready (.int next)).1,
    ⟨.range (next + 1) stop, pending⟩, by omega, reached, fun parts hold => hold.meets_int within found,
    more, (right.ready (.int next)).2, some (right.ready (.int next)).1,
    ⟨.range (next + 1) stop, images⟩, grows, between, .some here,
    ⟨.range _ _, paired_mono grows.keeps paired⟩, fun purpose others => ?_⟩
  simp [State.run, State.step, Context.advanceStep, within]

/-- Without right parts, walks whose fronts are used up have come to the end. -/
theorem Finds.at_end (twins : Twins pairs left right) {front first : LazyList} (used : front.UsedUp)
    (used_twin : first.UsedUp) {steps : Nat} :
    Finds context pairs left right last meter ⟨front, []⟩ ⟨first, []⟩ work whole stack (steps + 1) := by
  refine ⟨1, by omega, left, meter, none, .before [], by omega, ?_, fun parts hold => hold.of_usedUp used,
    pairs, right, none, .before [], .refl _ _, twins, .none, .before .nil, fun purpose others => ?_⟩
  · rw [State.run_succ, used.step]
    rfl
  · rw [State.run_succ, used_twin.step]
    rfl

/-- Where the fronts are used up, both walks go on in the lists that their right parts give. -/
theorem Finds.cross (twins : Twins pairs left right) {front first : LazyList} (used : front.UsedUp)
    (used_twin : first.UsedUp) {right_part image : ThunkId} (here : pairs right_part image)
    {pending images : List ThunkId} (paired : List.Forall₂ pairs pending images)
    (nested : WellNested left stack) {steps : Nat}
    (shorter : ∀ fewer ≤ steps,
      AllFind context ⟨last, lastMeter, .done (.value value), []⟩ work whole stack fewer)
    (ended : State.run context (steps + 1)
      ⟨left, meter, .advance ⟨front, right_part :: pending⟩ (.deepen work whole), stack⟩ =
        ⟨last, lastMeter, .done (.value value), []⟩) :
    Finds context pairs left right last meter ⟨front, right_part :: pending⟩ ⟨first, image :: images⟩
      work whole stack (steps + 1) := by
  -- While the right part is evaluated, the walk waits for it on the stack.
  have waits : WellNested left (.spine pending (.deepen work whole) :: stack) :=
    nested.extend (.refl _) rfl
  rw [State.run_succ, used.step] at ended
  obtain ⟨first_steps, less, middle, meter', given, positive, reached, found, more, later, image,
    grows, between, equal, -, above⟩ := twins.force_returns here ended
  -- The walk still has to go on, so that the run has steps left.
  obtain ⟨room, taken, remains⟩ :=
    State.run_next less reached (State.not_ended_of_give rfl) ⟨_, rfl⟩ ended
  obtain ⟨nested', order⟩ := WellNested.until_end waits less reached ended
  cases equal with
  | @list items others equal =>
    have cursors : CursorTwin more ⟨items, pending⟩ ⟨others, images⟩ :=
      ⟨equal, paired_mono grows.keeps paired⟩
    obtain ⟨count, fewer, after, last_meter, item, ahead, some_steps, arrived, meets, twice⟩ :=
      (shorter _ (by omega)).finds between cursors (nested'.extend (.refl _) rfl) remains
    obtain ⟨last_more, last_later, image, beyond, further, still, rel, cursors, found_twin⟩ := twice
    refine ⟨first_steps + 1 + count + 1, by omega, after, last_meter, item, ahead, by omega, ?_,
      fun parts hold => meets parts (hold.cross used (order.forced found)),
      last_more, last_later, image, beyond, grows.trans further, still, rel, cursors,
      fun purpose others => ?_⟩
    · rw [State.run_succ, used.step, State.run_add]
      exact (congrArg (State.run context count) taken).trans arrived
    · rw [State.run_succ, used_twin.step, State.run_add, State.run_last]
      exact (congrArg (fun state => State.run context count (state.step context))
        (above (.spine _ purpose :: others))).trans (found_twin purpose others)
  -- Anything but a list is a failure, and the run would not have ended with a value.
  | _ => exact absurd (congrArg State.control remains) (State.raise_not_value rfl _ value)

/-- A run that ends with a value first comes to an element or to the end of the list. -/
theorem Twins.advance_finds (twins : Twins pairs left right) {cursor other : Cursor}
    (same : CursorTwin pairs cursor other) (nested : WellNested left stack) {steps : Nat}
    (ended : State.run context steps ⟨left, meter, .advance cursor (.deepen work whole), stack⟩ =
      ⟨last, lastMeter, .done (.value value), []⟩) :
    Finds context pairs left right last meter cursor other work whole stack steps := by
  suffices all : AllFind context ⟨last, lastMeter, .done (.value value), []⟩ work whole stack steps from
    all.finds twins same nested ended
  clear twins same nested ended
  -- What is done for a right part takes any number of steps.
  induction steps using Nat.strongRecOn with
  | ind steps shorter =>
  refine ⟨fun {pairs left right meter cursor other} twins same nested ended => ?_⟩
  obtain _ | steps := steps
  · cases congrArg State.control ended
  obtain ⟨front, pending⟩ := cursor
  obtain ⟨first, images⟩ := other
  obtain ⟨fronts, paired⟩ := same
  dsimp only at fronts paired
  -- When the front is used up on the left it is so on the right, and both go on with a right part.
  have crosses (used : front.UsedUp) :
      Finds context pairs left right last meter ⟨front, pending⟩ ⟨first, images⟩ work whole stack
        (steps + 1) := by
    cases paired with
    | nil => exact .at_end twins used (fronts.usedUp used)
    | cons here paired =>
      exact .cross twins used (fronts.usedUp used) here paired nested
        (fun fewer bound => shorter fewer (Nat.lt_succ_of_le bound)) ended
  cases fronts with
  | @elems items elements start listed =>
    have item := paired_getElem? listed start
    generalize found : items[start]? = one at item
    generalize there : elements[start]? = two at item
    cases item with
    | some here => exact .elem twins listed paired here found there
    | none => exact crosses found
  | range next stop =>
    by_cases within : next < stop
    · exact .int twins within paired nested ended
    · exact crosses within
  | concat fronts here =>
    -- A joined list is taken apart, and the walk goes on in its front.
    rw [State.run_succ] at ended
    exact ((shorter steps (Nat.lt_succ_self steps)).finds twins ⟨fronts, .cons here paired⟩ nested
      ended).of_step (fun _ _ _ => rfl) (fun _ _ _ => rfl) rfl

end LazyConfig
