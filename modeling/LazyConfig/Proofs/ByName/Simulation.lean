import LazyConfig.Proofs.ByName.Rules
import LazyConfig.Proofs.Machine.Progress

/-!
One step of the evaluator, followed by name. A value that is there takes one step to look up and
many to evaluate anew; entering and leaving levels, settling computations and taking lists apart
take steps that are not there by name, but only a bounded number of them in a row.
-/

namespace LazyConfig.ByName

/-- Whether a frame only passes values on. -/
def passesOn : LazyConfig.Frame → Bool
  | .leave | .update _ | .note _ => true
  | _ => false

/-- The number of joins on the way to the first stretch of a list. -/
def joins : LazyList → Nat
  | .concat left _ => joins left + 1
  | _ => 0

/-- The steps that can be taken in a row without a step by name. -/
def delay (state : LazyConfig.State) : Nat :=
  state.stack.countP passesOn +
    match state.control with
    | .enter _ _ => 2
    | .advance cursor _ => joins cursor.front
    | _ => 0

/-- The levels that a state is in or about to enter. -/
def weight (state : LazyConfig.State) : Nat :=
  levels state.stack +
    match state.control with
    | .enter _ _ => 1
    | _ => 0

/--
A stack stands for a stack, given what is done now by name above some frames. By name, the meaning
of each computation that is waited for has led to all that stands above the end of its frame.
-/
inductive Linked (context : Context) (meaning : Meaning) (now : Control) :
    List Frame → List LazyConfig.Frame → List Frame → Prop
  | nil (above : List Frame) : Linked context meaning now above [] []
  | leave {above : List Frame} {stack : List LazyConfig.Frame} {below : List Frame}
    (linked : Linked context meaning now above stack below) :
    Linked context meaning now above (.leave :: stack) below
  | note (name : Name) {above : List Frame} {stack : List LazyConfig.Frame} {below : List Frame}
    (linked : Linked context meaning now above stack below) :
    Linked context meaning now above (.note name :: stack) below
  | update {id : ThunkId} {promise : Promise} {above : List Frame}
    {stack : List LazyConfig.Frame} {below : List Frame} (stands : Stands meaning id promise)
    (leads : Leads context (.force promise) [] now above)
    (linked : Linked context meaning now above stack below) :
    Linked context meaning now above (.update id :: stack) below
  | frame {frame : LazyConfig.Frame} {waits : Frame} {above : List Frame}
    {stack : List LazyConfig.Frame} {below : List Frame} (mirrors : FrameMirrors meaning frame waits)
    (linked : Linked context meaning now (above ++ [waits]) stack below) :
    Linked context meaning now above (frame :: stack) (waits :: below)

namespace Linked

variable {context : Context} {meaning : Meaning} {now later : Control} {above : List Frame}
  {stack : List LazyConfig.Frame} {below : List Frame}

/-- A larger meaning links the same stacks. -/
theorem grow {after : Meaning} (grown : Grows meaning after)
    (linked : Linked context meaning now above stack below) :
    Linked context after now above stack below := by
  induction linked with
  | nil above => exact .nil above
  | leave _ ih => exact .leave ih
  | note name _ ih => exact .note name ih
  | update stands leads _ ih => exact .update (grown _ _ stands) leads ih
  | frame mirrors _ ih => exact .frame (mirrors.grow grown) ih

/-- Stacks stay linked while something above them is done by name. -/
theorem advance {frames laterFrames : List Frame}
    (linked : Linked context meaning now (frames ++ above) stack below)
    (leads : Leads context now frames later laterFrames) :
    Linked context meaning later (laterFrames ++ above) stack below := by
  generalize whole : frames ++ above = all at linked
  -- The induction is on the stack with a store; the frames by name go down along with it.
  induction linked generalizing above with
  | nil => exact .nil _
  | leave _ ih => exact .leave (ih whole)
  | note name _ ih => exact .note name (ih whole)
  | update stands led _ ih =>
    -- What led to the work that was done leads to where that work has come.
    subst whole
    exact .update stands (led.trans (leads.above above)) (ih rfl)
  | frame mirrors _ ih =>
    subst whole
    have rest := ih (List.append_assoc frames above _).symm
    rw [← List.append_assoc] at rest
    exact .frame mirrors rest

/-- Frames that stand for frames are put on linked stacks. -/
theorem push {pushed : List LazyConfig.Frame} {frames : List Frame}
    (mirror : FramesMirror meaning pushed frames)
    (linked : Linked context meaning now (above ++ frames) stack below) :
    Linked context meaning now above (pushed ++ stack) (frames ++ below) := by
  induction mirror generalizing above with
  | nil => simpa using linked
  | note name _ ih => exact .note name (ih linked)
  | cons top _ ih =>
    refine .frame top (ih ?_)
    simpa using linked

/-- A computation that is waited for has led to what is done now by name. -/
theorem waited {id : ThunkId} (linked : Linked context meaning now above stack below)
    (waited : id ∈ underway stack) :
    ∃ promise, Stands meaning id promise ∧ ∃ frames, Leads context (.force promise) [] now frames := by
  induction linked with
  | nil => cases waited
  | leave _ ih | note _ _ ih => exact ih waited
  | @update other promise above _ _ stands leads _ ih =>
    -- The frame of the computation itself says where its promise has led.
    rcases List.mem_cons.mp waited with rfl | waited
    · exact ⟨promise, stands, above, leads⟩
    · exact ih waited
  | frame mirrors _ ih =>
    refine ih ?_
    cases mirrors <;> exact waited

/-- A computation that is asked for while it is waited for goes on for ever by name. -/
theorem circle {promise : Promise} {id : ThunkId} (linked : Linked context meaning now above stack below)
    (waited : id ∈ underway stack) (stands : Stands meaning id promise) :
    ∃ frames, Leads context (.force promise) [] now frames := by
  obtain ⟨other, found, frames, leads⟩ := linked.waited waited
  obtain rfl := stands.unique found
  exact ⟨frames, leads⟩

end Linked

/-- Frames that stand for frames wait for no computation. -/
theorem FramesMirror.underway {meaning : Meaning} {pushed : List LazyConfig.Frame}
    {frames : List Frame} (mirror : FramesMirror meaning pushed frames)
    (stack : List LazyConfig.Frame) : underway (pushed ++ stack) = underway stack := by
  induction mirror with
  | nil => rfl
  | note name _ ih => exact ih
  | cons top _ ih => cases top <;> exact ih

/-- Frames that stand for frames end no level. -/
theorem FramesMirror.levels {meaning : Meaning} {pushed : List LazyConfig.Frame}
    {frames : List Frame} (mirror : FramesMirror meaning pushed frames)
    (stack : List LazyConfig.Frame) : levels (pushed ++ stack) = levels stack := by
  induction mirror with
  | nil => rfl
  | note name _ ih => exact ih
  | cons top _ ih => cases top <;> exact ih

/-- A state of the evaluator stands for a state by name. -/
structure Mirrored (context : Context) (refused : Prop) (meaning : Meaning)
    (state : LazyConfig.State) (named : State) : Prop where
  heap : Heap context ⟨underway state.stack, refused⟩ meaning state.store
  control : ControlMirrors meaning state.control named.control
  linked : Linked context meaning named.control [] state.stack named.stack
  level : state.meter.current = levels state.stack

/-- What one step of the evaluator is by name. -/
inductive Progress (context : Context) (refused : Prop) (meaning : Meaning)
    (state : LazyConfig.State) (named : State) : Prop
  /-- At least one step by name, and at most one more level. -/
  | moves (later : Meaning) (grown : Grows meaning later) (steps : Nat) (unfinished : ¬ named.Final)
    (mirrored :
      Mirrored context refused later (state.step context) (run context (steps + 1) named))
    (limit : (state.step context).meter.limit = state.meter.limit)
    (deeper : weight (state.step context) ≤ weight state + 1)
  /-- No step by name, which cannot go on. -/
  | pauses (later : Meaning) (grown : Grows meaning later)
    (mirrored : Mirrored context refused later (state.step context) named)
    (limit : (state.step context).meter.limit = state.meter.limit)
    (shorter : delay (state.step context) < delay state)
    (flat : weight (state.step context) ≤ weight state)
  /-- The end, with a value. -/
  | ends (value : LazyConfig.Value) (result : Value) (given : state.control = .give value)
    (alone : state.stack = []) (final : named = ⟨.give result, []⟩)
  /-- A failure, passed up on both sides. -/
  | fails (failure : EvalError) (own : failure.fault.ordinary = true)
    (raised : state.control = .raise (.error failure))
    (same : named.control = .raise failure.fault.variant)
  /-- The limit of levels is reached, or was reached before. -/
  | refuses (failure : EvalError) (cause : failure.fault.variant = .stackOverflow)
    (stays : state.step context = { state with control := .raise (.error failure) })
    (full : state.meter.limit ≤ state.meter.current ∨ refused)
  /-- A computation that needs itself is asked for. -/
  | circles (failure : EvalError) (cause : failure.fault = .infiniteRecursion)
    (stays : state.step context = { state with control := .raise (.error failure) })
    (promise : Promise) (asked : named.control = .force promise)
    (endless : ∀ stack, Diverges context ⟨.force promise, stack⟩)

section

variable {context : Context} {busy : Busy} {refused : Prop} {waiting : List ThunkId}
  {meaning : Meaning} {store : Store} {meter : DepthMeter} {stack : List LazyConfig.Frame}

/-- Starting the work of a computation. -/
theorem resumeStep_follows (heap : Heap context busy meaning store) {work : Suspension}
    {promise : Promise} (mirrors : SuspensionMirrors meaning work promise) :
    Follows context busy meaning meter stack (Context.resumeStep store meter work stack)
      (forceTurn promise) := by
  cases mirrors with
  | expr bound => exact .here heap (.enter bound)
  | recursive bound => exact .here heap (.enter bound)
  | apply func args => exact .waits heap (.args args) (.force func)
  | check stands => exact .waits heap (.ascribe _ _) (.force stands)
  | checkList listed => exact .here heap (.advance listed.cursor (.checkCell _ _ _))

/-- A computation that has started is under way. -/
theorem Heap.start (heap : Heap context ⟨waiting, refused⟩ meaning store) (id : ThunkId)
    (inside : id < store.cells.size) :
    Heap context ⟨id :: waiting, refused⟩ meaning (store.set id .inProgress) := by
  refine ⟨by simp [heap.size], fun {other promise} stands => ?_⟩
  -- The computation that has started is under way, the others are as they were.
  by_cases same : other = id
  · subst same
    rw [Store.cell_set_self inside]
    exact List.mem_cons_self
  · rw [Store.cell_set_of_ne same]
    have mirrors := heap.cells stands
    cases found : store.cell other <;> simp_all [CellMirrors]

/-- A computation that has ended is where its promise leads. -/
theorem Heap.settle {id : ThunkId} (heap : Heap context ⟨id :: waiting, refused⟩ meaning store)
    {promise : Promise} (stands : Stands meaning id promise) {cell : Cell}
    (mirrors : CellMirrors context ⟨waiting, refused⟩ meaning id promise cell) :
    Heap context ⟨waiting, refused⟩ meaning (store.set id cell) := by
  have inside : id < store.cells.size := by
    rw [← heap.size]
    exact (Array.getElem?_eq_some_iff.mp stands).1
  refine ⟨by simp [heap.size], fun {other promise'} stands' => ?_⟩
  -- The computation that has ended is as given, the others are as they were.
  by_cases same : other = id
  · subst same
    obtain rfl := stands.unique stands'
    rwa [Store.cell_set_self inside]
  · rw [Store.cell_set_of_ne same]
    have old := heap.cells stands'
    cases found : store.cell other <;> simp_all [CellMirrors]

/-- A rule that is followed by name leads to states that stand for each other. -/
theorem Follows.mirrored {after : LazyConfig.State} {turn : Turn} {below : List Frame}
    (follows : Follows context ⟨underway stack, refused⟩ meaning meter stack after turn)
    (linked : Linked context meaning turn.control turn.frames stack below)
    (level : meter.current = levels stack) :
    after.meter = meter ∧ levels after.stack = levels stack ∧
      ∃ later, Grows meaning later ∧ Mirrored context refused later after (turn.onto below) := by
  obtain ⟨sameMeter, pushed, stacked, later, grown, heap, mirror, control⟩ := follows
  -- The frames that were added wait for no computation and end no level.
  refine ⟨sameMeter, by rw [stacked, mirror.levels], later, grown, ⟨?_, control, ?_, ?_⟩⟩
  · rwa [stacked, mirror.underway]
  · rw [stacked]
    exact .push mirror (linked.grow grown)
  · rw [stacked, mirror.levels, sameMeter, level]

/-- A state is in its levels, and about to enter at most one more. -/
theorem weight_le (state : LazyConfig.State) : weight state ≤ levels state.stack + 1 := by
  unfold weight
  split <;> omega

/-- A rule that is followed by name, as a step. -/
theorem Progress.of_follows {state : LazyConfig.State} {named : State} {frames : List Frame}
    {below : List Frame} {turn : Turn} (stacked : named.stack = frames ++ below)
    (follows :
      Follows context ⟨underway stack, refused⟩ meaning state.meter stack (state.step context) turn)
    (linked : Linked context meaning named.control frames stack below)
    (moved : ∀ stack, step context ⟨named.control, frames ++ stack⟩ = turn.onto stack)
    (level : state.meter.current = levels stack) (same : levels state.stack = levels stack)
    (unfinished : ¬ named.Final) : Progress context refused meaning state named := by
  have leads := Leads.of_step turn moved
  have advanced : Linked context meaning turn.control turn.frames stack below := by
    have linked' : Linked context meaning named.control (frames ++ []) stack below := by
      simpa using linked
    simpa using linked'.advance leads
  -- What stood above the frames by name has gone on by one turn.
  obtain ⟨sameMeter, sameLevels, later, grown, mirrored⟩ := follows.mirrored advanced level
  refine .moves later grown 0 unfinished ?_ (by rw [sameMeter]) ?_
  · have started : run context 1 named = turn.onto below := by
      rw [← moved below, ← stacked]
      rfl
    rwa [started]
  · have bound := weight_le (state.step context)
    have least : levels state.stack ≤ weight state := Nat.le_add_right _ _
    omega

/-- Entering a level is nothing by name, unless the limit is reached. -/
theorem Progress.enter {body : ExprId} {env : LazyConfig.Env} {bound : Env} {below : List Frame}
    (mirrored : Mirrored context refused meaning ⟨store, meter, .enter body env, stack⟩
      ⟨.eval body bound, below⟩) :
    Progress context refused meaning ⟨store, meter, .enter body env, stack⟩
      ⟨.eval body bound, below⟩ := by
  obtain ⟨heap, mirrors, linked, level⟩ := mirrored
  dsimp only at heap linked level
  obtain _ | inside := mirrors
  cases entered : meter.enter? with
  -- Without room for a level the evaluation fails, as it never does by name.
  | none =>
    refine .refuses ⟨.depthExceeded meter.limit, []⟩ rfl ?_ (.inl ?_)
    · simp [LazyConfig.State.step, Context.enterStep, entered, LazyConfig.Control.fail, Upset.fault]
    · simpa [DepthMeter.enter?] using entered
  | some deeper =>
    obtain ⟨room, rfl⟩ : meter.current < meter.limit ∧
        { meter with current := meter.current + 1 } = deeper := by
      simpa [DepthMeter.enter?] using entered
    have stepped : LazyConfig.State.step context ⟨store, meter, .enter body env, stack⟩ =
        ⟨store, { meter with current := meter.current + 1 }, .eval body env, .leave :: stack⟩ := by
      simp [LazyConfig.State.step, Context.enterStep, entered]
    have deeper : levels (.leave :: stack) = levels stack + 1 := by
      simp [levels, List.countP_cons, isLeave]
    -- Only the level is new, and by name the expression is what is evaluated already.
    refine .pauses meaning (.refl meaning) ?_ (by rw [stepped]) ?_ ?_
    · rw [stepped]
      exact ⟨heap, .eval inside, .leave linked, by rw [deeper, ← level]⟩
    · simp [stepped, delay, List.countP_cons, passesOn]
    · simp [stepped, weight, deeper]

/-- Asking for a computation gives what its promise gives, starts its work, or goes in a circle. -/
theorem Progress.force {id : ThunkId} {promise : Promise} {below : List Frame}
    (mirrored :
      Mirrored context refused meaning ⟨store, meter, .force id, stack⟩ ⟨.force promise, below⟩) :
    Progress context refused meaning ⟨store, meter, .force id, stack⟩ ⟨.force promise, below⟩ := by
  obtain ⟨heap, mirrors, linked, level⟩ := mirrored
  dsimp only at heap linked level
  obtain ⟨⟩ | ⟨⟩ | stands := mirrors
  have cell := heap.cells stands
  cases found : store.cell id with
  | suspended work =>
    have inside := Store.lt_size_of_cell found (by simp)
    rw [found] at cell
    -- From now on the work is above the frame that waits for the computation.
    have leads : Leads context (.force promise) [] (forceTurn promise).control
        (forceTurn promise).frames := .of_step _ fun _ => rfl
    have follows : Follows context ⟨underway (.update id :: stack), refused⟩ meaning meter
        (.update id :: stack) (LazyConfig.State.step context ⟨store, meter, .force id, stack⟩)
        (forceTurn promise) := by
      rw [LazyConfig.State.step_force_suspended found]
      exact resumeStep_follows (heap.start id inside) cell
    have advanced : Linked context meaning (forceTurn promise).control (forceTurn promise).frames
        stack below := by
      simpa using linked.advance leads
    obtain ⟨sameMeter, sameLevels, later, grown, mirrored⟩ :=
      follows.mirrored (.update stands leads advanced) level
    refine .moves later grown 0 nofun mirrored (by rw [sameMeter]) ?_
    have bound := weight_le (LazyConfig.State.step context ⟨store, meter, .force id, stack⟩)
    have same : levels (.update id :: stack) = levels stack := rfl
    rw [sameLevels, same] at bound
    exact bound
  | inProgress =>
    rw [found] at cell
    -- The promise leads back to itself above some frames, and so goes on for ever.
    obtain ⟨frames, leads⟩ := linked.circle cell stands
    exact .circles ⟨.infiniteRecursion, []⟩ rfl (LazyConfig.State.step_force_inProgress found) promise
      rfl fun stack => leads.diverges stack nofun
  | forced value =>
    rw [found] at cell
    obtain ⟨named, gives, same⟩ := cell
    -- By name the value is evaluated anew, in as many steps as that takes.
    obtain ⟨steps, run_steps⟩ := gives
    have stepped : LazyConfig.State.step context ⟨store, meter, .force id, stack⟩ =
        ⟨store, meter, .give value, stack⟩ := LazyConfig.State.step_force_forced found
    refine .moves meaning (.refl meaning) steps nofun ?_ (by rw [stepped]) (by simp [stepped, weight])
    rw [stepped, show run context (steps + 1) ⟨.force promise, below⟩ = ⟨.give named, below⟩ from
      run_steps below]
    exact ⟨heap, .give same, linked.advance ⟨steps, run_steps⟩, level⟩
  | failed failure =>
    rw [found] at cell
    have stepped : LazyConfig.State.step context ⟨store, meter, .force id, stack⟩ =
        ⟨store, meter, .raise (.error failure), stack⟩ := LazyConfig.State.step_force_failed found
    cases cell with
    | own own leads =>
      -- By name the failure comes about anew.
      obtain ⟨steps, run_steps⟩ := leads
      refine .moves meaning (.refl meaning) steps nofun ?_ (by rw [stepped]) (by simp [stepped, weight])
      rw [stepped, show run context (steps + 1) ⟨.force promise, below⟩ =
        ⟨.raise failure.fault.variant, below⟩ from run_steps below]
      exact ⟨heap, .raise failure own, linked.advance ⟨steps, run_steps⟩, level⟩
    | circle cause endless => exact .circles failure cause stepped promise rfl endless
    | refused cause may => exact .refuses failure cause stepped (.inr may)

/-- A step along a list is one by name, unless it only takes a join apart. -/
theorem Progress.advance {cursor : Cursor} {segments : List Segment}
    {consumer : LazyConfig.Consumer} {named : Consumer} {below : List Frame}
    (mirrored : Mirrored context refused meaning ⟨store, meter, .advance cursor consumer, stack⟩
      ⟨.advance segments named, below⟩) :
    Progress context refused meaning ⟨store, meter, .advance cursor consumer, stack⟩
      ⟨.advance segments named, below⟩ := by
  obtain ⟨heap, mirrors, linked, level⟩ := mirrored
  dsimp only at heap linked level
  cases mirrors with
  | advance ahead consumes =>
    obtain ⟨front, pending⟩ := cursor
    have goesOn : ¬ State.Final ⟨.advance segments named, below⟩ := by rintro ⟨⟩
    cases front with
    | concat left right =>
      -- By name a list has no joins, so that taking one apart changes nothing.
      refine .pauses meaning (.refl meaning) ⟨heap, .advance ahead.join consumes, linked, level⟩ rfl
        ?_ (Nat.le_refl _)
      simp [LazyConfig.State.step, Context.advanceStep, delay, joins]
    | elems items start =>
      exact .of_follows rfl (advanceStep_follows _ heap ahead (by simp) consumes) linked
        (fun _ => rfl) level rfl goesOn
    | range next stop =>
      exact .of_follows rfl (advanceStep_follows _ heap ahead (by simp) consumes) linked
        (fun _ => rfl) level rfl goesOn

/-- Giving a value to a frame is a step by name, unless the frame only passes it on. -/
theorem Progress.give {value : LazyConfig.Value} {named : Value} {below : List Frame}
    (mirrored :
      Mirrored context refused meaning ⟨store, meter, .give value, stack⟩ ⟨.give named, below⟩) :
    Progress context refused meaning ⟨store, meter, .give value, stack⟩ ⟨.give named, below⟩ := by
  obtain ⟨heap, mirrors, linked, level⟩ := mirrored
  dsimp only at heap linked level
  cases mirrors with
  | give same =>
    cases linked with
    | nil => exact .ends value named rfl rfl rfl
    | leave linked =>
      refine .pauses meaning (.refl meaning) ⟨heap, .give same, linked, ?_⟩ rfl ?_ ?_
      · simp [levels, List.countP_cons, isLeave] at level
        simp [LazyConfig.State.step, Context.giveStep, DepthMeter.leave, level, levels]
      · simp [LazyConfig.State.step, Context.giveStep, delay, List.countP_cons, passesOn]
      · simp [LazyConfig.State.step, Context.giveStep, weight, levels, List.countP_cons, isLeave]
    | note name linked =>
      refine .pauses meaning (.refl meaning) ⟨heap, .give same, linked, level⟩ rfl ?_ (Nat.le_refl _)
      simp [LazyConfig.State.step, Context.giveStep, delay, List.countP_cons, passesOn]
    -- Settling a computation with the value that its promise gives changes nothing by name.
    | update stands leads linked =>
      refine .pauses meaning (.refl meaning)
        ⟨heap.settle stands ⟨named, leads, same⟩, .give same, linked, level⟩ rfl ?_ (Nat.le_refl _)
      simp [LazyConfig.State.step, Context.giveStep, delay, List.countP_cons, passesOn]
    | @frame frame waits _ rest below mirrors linked =>
      -- The frame waits by name too, and both go on with the value.
      have plain : isLeave frame = false := by cases mirrors <;> rfl
      have quiet : underway (frame :: rest) = underway rest := by cases mirrors <;> rfl
      have same_levels : levels (frame :: rest) = levels rest := by simp [levels, plain]
      rw [quiet] at heap
      exact .of_follows rfl (giveStep_follows heap same mirrors) linked (fun _ => rfl)
        (same_levels ▸ level) same_levels (by rintro ⟨⟩)

/-- Every step of the evaluator is followed by name, up to the two failures that are not there. -/
theorem Mirrored.progress {state : LazyConfig.State} {named : State}
    (mirrored : Mirrored context refused meaning state named) :
    Progress context refused meaning state named := by
  -- Most controls are followed step by step; what takes none or several steps by name has a lemma
  -- of its own.
  obtain ⟨store, meter, control, stack⟩ := state
  obtain ⟨now, below⟩ := named
  obtain ⟨heap, mirrors, linked, level⟩ := id mirrored
  dsimp only at heap mirrors linked level
  cases mirrors with
  | eval bound =>
    exact .of_follows rfl (evalStep_follows heap _ bound) linked (fun _ => rfl) level rfl nofun
  | enter bound => exact .enter mirrored
  | force stands => exact .force mirrored
  | apply mirrors stands =>
    exact .of_follows rfl (applyStep_follows heap mirrors stands) linked (fun _ => rfl) level rfl
      nofun
  | run stand =>
    exact .of_follows rfl (runStep_follows heap _ stand) linked (fun _ => rfl) level rfl nofun
  | operate left right =>
    exact .of_follows rfl (operateStep_follows heap _ left right) linked (fun _ => rfl) level rfl
      nofun
  | advance ahead consumes => exact .advance mirrored
  | deepen works whole =>
    exact .of_follows rfl (deepenStep_follows heap works whole) linked (fun _ => rfl) level rfl
      nofun
  | compare pairs =>
    exact .of_follows rfl (compareStep_follows heap pairs) linked (fun _ => rfl) level rfl nofun
  | give same => exact .give mirrored
  | raise failure own => exact .fails failure own rfl rfl

end

end LazyConfig.ByName
