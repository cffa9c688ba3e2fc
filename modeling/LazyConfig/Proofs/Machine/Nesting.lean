import LazyConfig.Proofs.Machine.Deepen
import LazyConfig.Proofs.Machine.Exits
import LazyConfig.Proofs.Machine.Wrappers

/-!
How deep computations are nested in each other. Evaluating an expression enters a level, so that the
limit of levels bounds how many expressions are under way. Checks, parts of checked lists and
applications ask for other computations without entering a level, and no limit bounds those.
-/

namespace LazyConfig

variable {context : Context}

/-- The top frame of a stack waits for a computation of some sort. -/
def Awaits (sort : ThunkId → Prop) (stack : List Frame) : Prop :=
  ∃ id rest, stack = .update id :: rest ∧ sort id

/-- Right above a frame that waits for a computation of some sort stands the end of a level. -/
def Sheltered (sort : ThunkId → Prop) (stack : List Frame) : Prop :=
  ∀ above id rest, above :: .update id :: rest <:+ stack → sort id → above = .leave

section

variable {sort : ThunkId → Prop} {stack : List Frame} {frame : Frame}

/-- A stack that waits for no computation waits for none of some sort. -/
theorem Sheltered.of_fresh (fresh : underway stack = []) : Sheltered sort stack := by
  intro above id rest suffix
  have member : id ∈ underway stack :=
    List.mem_filterMap.mpr ⟨.update id, suffix.subset (by simp), rfl⟩
  rw [fresh] at member
  cases member

/-- What holds above a frame holds without it. -/
theorem Sheltered.tail (sheltered : Sheltered sort (frame :: stack)) : Sheltered sort stack :=
  fun above id rest suffix => sheltered above id rest (suffix.trans (List.suffix_cons frame stack))

/-- Below anything but the end of a level, no computation of the sort is waited for. -/
theorem Sheltered.not_awaits (sheltered : Sheltered sort (frame :: stack)) (inside : frame ≠ .leave) :
    ¬ Awaits sort stack := by
  rintro ⟨id, rest, rfl, sorted⟩
  exact inside (sheltered frame id rest (List.suffix_refl _) sorted)

/-- Any frame may be put where no computation of the sort is waited for. -/
theorem Sheltered.push (sheltered : Sheltered sort stack) (quiet : ¬ Awaits sort stack) :
    Sheltered sort (frame :: stack) := by
  intro above id rest suffix sorted
  rcases List.suffix_cons_iff.mp suffix with same | earlier
  · exact absurd ⟨id, rest, (List.cons.inj same).2.symm, sorted⟩ quiet
  · exact sheltered above id rest earlier sorted

/-- The end of a level may be put anywhere. -/
theorem Sheltered.push_leave (sheltered : Sheltered sort stack) : Sheltered sort (.leave :: stack) := by
  intro above id rest suffix sorted
  rcases List.suffix_cons_iff.mp suffix with same | earlier
  · exact (List.cons.inj same).1
  · exact sheltered above id rest earlier sorted

/-- Frames that only wait may be put where no computation of the sort is waited for. -/
theorem Sheltered.append {pushed : List Frame} (sheltered : Sheltered sort stack)
    (quiet : ¬ Awaits sort stack) (plain : ∀ frame ∈ pushed, frame.isPlain = true) :
    Sheltered sort (pushed ++ stack) ∧ ¬ Awaits sort (pushed ++ stack) := by
  induction pushed with
  | nil => exact ⟨sheltered, quiet⟩
  | cons frame rest ih =>
    obtain ⟨others, still⟩ := ih fun other member => plain other (List.mem_cons_of_mem _ member)
    refine ⟨others.push still, ?_⟩
    -- The new top frame only waits.
    rintro ⟨id, below, same, -⟩
    have waits := plain frame List.mem_cons_self
    rw [(List.cons.inj same).1] at waits
    cases waits

/--
The levels of a stack are as many as the computations of the sort that it waits for, but for one that
has not entered its level yet.
-/
theorem Sheltered.length_le {ids : List ThunkId} (sheltered : Sheltered sort stack)
    (distinct : ids.Nodup) (listed : ∀ id ∈ ids, id ∈ underway stack ∧ sort id) :
    ids.length ≤ levels stack + 1 ∧ (levels stack < ids.length → Awaits sort stack) := by
  -- By induction on the stack, with any list of computations below a frame.
  induction stack generalizing ids with
  | nil =>
    have none : ids = [] :=
      List.eq_nil_iff_forall_not_mem.mpr fun id member => absurd (listed id member).1 List.not_mem_nil
    simp [none]
  | cons frame rest ih =>
    have below {ids : List ThunkId} := @ih ids sheltered.tail
    -- Without a level in between, what is below the frame waits for no such computation.
    have within {ids : List ThunkId} (inside : frame ≠ .leave) (distinct : ids.Nodup)
        (listed : ∀ id ∈ ids, id ∈ underway rest ∧ sort id) : ids.length ≤ levels rest :=
      Nat.not_lt.mp fun more => sheltered.not_awaits inside ((below distinct listed).2 more)
    have count : levels (frame :: rest) = levels rest + if isLeave frame then 1 else 0 :=
      List.countP_cons
    cases frame with
    | leave =>
      -- The level makes up for the one that the rest of the stack may have too many.
      have bounded := (below distinct listed).1
      rw [isLeave, if_pos rfl] at count
      exact ⟨by omega, fun more => by omega⟩
    | update id =>
      simp only [isLeave, Bool.false_eq_true, if_false, Nat.add_zero] at count
      -- All computations but the one on top are waited for below.
      have others := within (by simp) (distinct.erase id) fun other member => by
        obtain ⟨different, member⟩ := distinct.mem_erase_iff.mp member
        obtain ⟨waited, sorted⟩ := listed other member
        exact ⟨(List.mem_cons.mp waited).resolve_left different, sorted⟩
      have lengths : ids.length ≤ (ids.erase id).length + 1 := by
        rw [List.length_erase]
        split <;> omega
      refine ⟨by omega, fun more => ⟨id, rest, rfl, ?_⟩⟩
      -- If there are more, then the one on top is among them.
      by_contra other
      have unlisted : id ∉ ids := fun member => other (listed id member).2
      rw [List.erase_of_not_mem unlisted] at others
      omega
    | _ =>
      have bounded := within (by simp) distinct listed
      simp only [isLeave, Bool.false_eq_true, if_false, Nat.add_zero] at count
      exact ⟨by omega, fun more => by omega⟩

end

/-- A value or a failure takes the frame off that waits for a computation. -/
theorem State.step_update {state : State} {id : ThunkId} {rest : List Frame}
    (passes : state.control.passes = true) (top : state.stack = .update id :: rest) :
    ∃ outcome, state.step context =
      ⟨state.store.set id outcome, state.meter, state.control, rest⟩ := by
  obtain ⟨store, meter, control, stack⟩ := state
  dsimp only at top
  subst top
  -- Only a value or a failure is passed to the frame, and it keeps either.
  cases control with
  | give value => exact ⟨.forced value, rfl⟩
  | raise upset => exact ⟨.failed upset.remembered, rfl⟩
  | _ => cases passes

/-- What holds of computations of some sort in every state, if all of them evaluate expressions. -/
structure State.Metered (sort : ThunkId → Prop) (limit : Nat) (state : State) : Prop where
  room : state.meter.current ≤ limit
  sheltered : Sheltered sort state.stack
  /-- One that is on top is about to enter its level, has left it again, or was refused. -/
  top : Awaits sort state.stack → (∃ body env, state.control = .enter body env) ∨
    (state.control.passes = true ∧ state.meter.current < limit) ∨
    state.control = .fail (.depthExceeded limit)

namespace State.Metered

variable {sort : ThunkId → Prop} {base : DepthMeter} {state : State}

/-- A state that waits for no computation of the sort on top is metered if it is sheltered. -/
theorem of_quiet {limit : Nat} (room : state.meter.current ≤ limit)
    (frames : Sheltered sort state.stack ∧ ¬ Awaits sort state.stack) : state.Metered sort limit :=
  ⟨room, frames.1, fun awaits => absurd awaits frames.2⟩

/-- A step takes a computation of the sort that is on top into its level, or off the stack. -/
theorem step_awaiting (sane : state.Sane base) (metered : state.Metered sort base.limit)
    (awaits : Awaits sort state.stack) : (state.step context).Metered sort base.limit := by
  obtain ⟨room, sheltered, top⟩ := metered
  obtain ⟨id, rest, stacked, -⟩ := id awaits
  have limit : state.meter.limit = base.limit := by rw [sane.level]
  -- Whatever is passed to the computation takes it off, and nothing of the sort is right below it.
  have settles (passes : state.control.passes = true) :
      (state.step context).Metered sort base.limit := by
    obtain ⟨outcome, stepped⟩ := @step_update context _ _ _ passes stacked
    rw [stacked] at sheltered
    rw [stepped]
    exact of_quiet room ⟨sheltered.tail, sheltered.not_awaits (by simp)⟩
  rcases top awaits with ⟨body, env, asked⟩ | ⟨passes, -⟩ | refused
  · obtain ⟨store, meter, control, stack⟩ := state
    dsimp only at asked room limit
    subst asked
    by_cases free : meter.current < meter.limit
    · -- The level is entered, and its end shelters the computation.
      have stepped : State.step context ⟨store, meter, .enter body env, stack⟩ =
          ⟨store, ⟨meter.limit, meter.current + 1⟩, .eval body env, .leave :: stack⟩ := by
        simp [State.step, Context.enterStep, DepthMeter.enter?, free]
      rw [stepped]
      refine of_quiet (limit ▸ free) ⟨sheltered.push_leave, ?_⟩
      rintro ⟨_, _, same, -⟩
      cases (List.cons.inj same).1
    · -- No level is left, which is the last of the three cases for what is on top.
      have stepped : State.step context ⟨store, meter, .enter body env, stack⟩ =
          ⟨store, meter, .fail (.depthExceeded meter.limit), stack⟩ := by
        simp [State.step, Context.enterStep, DepthMeter.enter?, free]
      rw [stepped, limit]
      exact ⟨room, sheltered, fun _ => .inr (.inr rfl)⟩
  · exact settles passes
  · exact settles (by rw [refused]; rfl)

/-- A step with no computation of the sort on top starts at most one, which then enters its level. -/
theorem step_quiet (sane : state.Sane base) (metered : state.Metered sort base.limit)
    (quiet : ¬ Awaits sort state.stack)
    (expressions : ∀ id work, state.store.cell id = .suspended work → sort id →
      ∃ body env, work = .expr body env) : (state.step context).Metered sort base.limit := by
  obtain ⟨room, sheltered, -⟩ := metered
  cases @State.moves _ context Bounds.all_fits _ sane.within.ready with
  | adds below origin added =>
    obtain ⟨pushed, stacked, each⟩ := added.frames
    have plain := fun frame member => (each frame member).1
    refine of_quiet (added.level ▸ room) (stacked ▸ ?_)
    rcases origin with same | ⟨frame, waits, same⟩
    · exact (same ▸ sheltered).append (same ▸ quiet) plain
    · -- The frame that is taken off only waits, so that nothing of the sort stands right below it.
      rw [same] at sheltered
      exact sheltered.tail.append (sheltered.not_awaits fun leave => by cases leave ▸ waits) plain
  | enters body env deeper asked free stepped =>
    rw [DepthMeter.enter?] at free
    split at free
    · rename_i less
      obtain rfl := Option.some.inj free
      rw [stepped]
      refine of_quiet (sane.level ▸ ?_) ⟨sheltered.push_leave, ?_⟩
      · rw [sane.level] at less
        exact less
      · rintro ⟨_, _, same, -⟩
        cases (List.cons.inj same).1
    · cases free
  | leaves rest top stepped passes =>
    rw [top] at sheltered
    rw [stepped]
    -- A level that is left had been entered, and there is room for it again.
    have entered : 0 < state.meter.current := by
      rw [sane.level, top]
      simp only [levels, List.countP_cons, isLeave, if_true]
      omega
    exact ⟨Nat.le_trans (Nat.sub_le _ 1) room, sheltered.tail, fun _ => .inr (.inl ⟨passes, by
      simp only [DepthMeter.leave]
      omega⟩)⟩
  | starts id work asked found added =>
    by_cases sorted : sort id
    · -- The computation evaluates an expression, which enters a level first.
      obtain ⟨body, env, rfl⟩ := expressions id work found sorted
      obtain ⟨store, meter, control, stack⟩ := state
      dsimp only at asked found
      subst asked
      rw [step_force_suspended found]
      exact ⟨room, sheltered.push quiet, fun _ => .inl ⟨body, env, rfl⟩⟩
    · -- Whatever else is started may be nested freely, since it is not of the sort.
      obtain ⟨pushed, stacked, each⟩ := added.frames
      refine of_quiet (added.level ▸ room) (stacked ▸ ?_)
      refine (sheltered.push quiet).append ?_ fun frame member => (each frame member).1
      rintro ⟨other, rest, same, sorted'⟩
      obtain rfl := Frame.update.inj (List.cons.inj same).1
      exact sorted sorted'
  | settles id outcome rest top final stepped =>
    rw [top] at sheltered
    rw [stepped]
    exact of_quiet room ⟨sheltered.tail, sheltered.not_awaits (by simp)⟩
  | circles id asked found stepped =>
    rw [stepped]
    exact of_quiet room ⟨sheltered, quiet⟩
  | answers ending alone passes allowed stepped =>
    rw [stepped]
    refine of_quiet room ⟨.of_fresh rfl, ?_⟩
    rintro ⟨_, _, same, -⟩
    cases same

end State.Metered

/-- At some moment of a run, a computation is put off as the evaluation of an expression. -/
def PutsOffExpr (context : Context) (start : State) (id : ThunkId) : Prop :=
  ∃ steps body env, (start.run context steps).store.cell id = .suspended (.expr body env)

section

variable {base : DepthMeter} {start : State}

/-- Work that is put off is the same at all moments of a run. -/
theorem PutsOffExpr.unique {id : ThunkId} {work : Suspension} {steps : Nat}
    (putsOff : PutsOffExpr context start id) (nested : WellNested start.store start.stack)
    (found : (start.run context steps).store.cell id = .suspended work) :
    ∃ body env, work = .expr body env := by
  obtain ⟨other, body, env, located⟩ := putsOff
  have order {early late : Nat} (before : early ≤ late) :
      (start.run context early).store.Precedes (start.run context late).store := by
    have later := (WellNested.run context (late - early) _ (WellNested.run context early _ nested).1).2
    rwa [← State.run_add, Nat.add_sub_cancel' before] at later
  -- The earlier of the two moments fixes the work of the later one.
  rcases Nat.le_total steps other with before | before
  · have same := (order before).2 id (Store.lt_size_of_cell found nofun)
    rw [found, located] at same
    exact ⟨body, env, same.symm⟩
  · have same := (order before).2 id (Store.lt_size_of_cell located nofun)
    rw [found, located] at same
    exact ⟨body, env, same⟩

/-- The expressions of a run are metered throughout. -/
theorem State.Metered.run (sane : start.Sane base) (room : base.current ≤ base.limit)
    (fresh : underway start.stack = []) (none : levels start.stack = 0) (steps : Nat) :
    (start.run context steps).Metered (PutsOffExpr context start) base.limit := by
  -- Each step starts with a computation of the sort on top, or with none.
  induction steps with
  | zero =>
    refine of_quiet ?_ ⟨.of_fresh fresh, ?_⟩
    · rw [State.run, sane.level, none]
      exact room
    · rintro ⟨id, rest, same, -⟩
      have member : id ∈ underway start.stack :=
        List.mem_filterMap.mpr ⟨.update id, same ▸ List.mem_cons_self, rfl⟩
      rw [fresh] at member
      cases member
  | succ steps ih =>
    rw [State.run_last]
    by_cases awaits : Awaits (PutsOffExpr context start) (start.run context steps).stack
    · exact ih.step_awaiting (sane.run steps) awaits
    · exact ih.step_quiet (sane.run steps) awaits fun id work found putsOff =>
        putsOff.unique sane.nested found

end

/--
The limit bounds the levels, and with them the expressions that are nested in each other. At every
moment of a request at most as many levels are entered as the limit says, and of the computations
under way at most one more than that evaluates an expression; if there is that one more, the request
ends with the failure that the limit was reached.
-/
theorem expressions_nested_within_limit (evaluator : Evaluator) {store : Store}
    (closed : store.Closed) (idle : store.Idle) {request : Request}
    (asked : request.Within .all store.cells.size) (steps : Nat) :
    let start := evaluator.start request store
    let state := start.run evaluator.context steps
    let limit := evaluator.settings.maxDepth
    state.meter.current ≤ limit ∧
    ∀ ids : List ThunkId, ids.Nodup →
      (∀ id ∈ ids, id < state.store.cells.size ∧ state.store.cell id = .inProgress ∧
        PutsOffExpr evaluator.context start id) →
      ids.length ≤ limit + 1 ∧
      (limit < ids.length → ∃ more failure left,
        (start.run evaluator.context more).control = .done (.upset (.error failure) left) ∧
        failure.fault = .depthExceeded limit) := by
  intro start state limit
  have first : start.Sane ⟨limit, 0⟩ := start_sane evaluator closed idle asked ⟨limit, 0⟩
  have none : levels start.stack = 0 := by
    have level := congrArg DepthMeter.current first.level
    exact (Nat.zero_add _).symm.trans level.symm
  have fresh : underway start.stack = [] := Moment.start_underway evaluator request store
  have sane : state.Sane ⟨limit, 0⟩ := first.run steps
  have metered : state.Metered (PutsOffExpr evaluator.context start) limit :=
    State.Metered.run first (Nat.zero_le _) fresh none steps
  refine ⟨metered.room, fun ids distinct listed => ?_⟩
  -- Each level that has been entered is counted by the meter.
  have entered : state.meter.current = levels state.stack := by
    rw [sane.level]
    exact Nat.zero_add _
  have room := metered.room
  obtain ⟨bounded, awaits⟩ := metered.sheltered.length_le distinct fun id member =>
    have ⟨inside, running, putsOff⟩ := listed id member
    ⟨sane.awaited id inside running, putsOff⟩
  refine ⟨by omega, fun more => ?_⟩
  -- The one that has no level is on top, and there is no level left for it.
  have refused : ∃ later, (start.run evaluator.context later).control =
      .fail (.depthExceeded limit) := by
    rcases metered.top (awaits (by omega)) with ⟨body, env, asked⟩ | ⟨-, less⟩ | refused
    · refine ⟨steps + 1, ?_⟩
      have limits : state.meter.limit = limit := by rw [sane.level]
      have full : ¬ state.meter.current < state.meter.limit := by omega
      have stepped : (state.step evaluator.context).control =
          .fail (.depthExceeded state.meter.limit) := by
        simp [State.step, asked, Context.enterStep, DepthMeter.enter?, full]
      rw [State.run_last, ← limits]
      exact stepped
    · omega
    · exact ⟨steps, refused⟩
  obtain ⟨before, refused⟩ := refused
  obtain ⟨after, failure, left, cause, ended⟩ := @ends_with_cause evaluator.context _ _ _ refused
  exact ⟨before + after, failure, left, (State.run_add ..).symm ▸ ended, cause⟩

/-- Two variables, the first of which stands for the second, and the second for a number. -/
def variableChain : Store where
  cells := #[.suspended (.expr 0 ⟨[(1, 1)]⟩), .suspended (.expr 0 ⟨[(1, 2)]⟩), .forced (.int 7)]

/-- With one level both variables are under way, and the request ends at the limit. -/
theorem expressions_nested_within_limit_variableChain :
    let evaluator : Evaluator := ⟨⟨{}, { exprs := #[.ident 1] }, {}⟩, { maxDepth := 1 }⟩
    (evaluator.run 4 (.force 0) variableChain).meter.current = 1 ∧
    ∃ more failure left, (evaluator.run more (.force 0) variableChain).control =
        .done (.upset (.error failure) left) ∧ failure.fault = .depthExceeded 1 := by
  intro evaluator
  have three (id : Nat) (inside : id < 3) : id = 0 ∨ id = 1 ∨ id = 2 := by omega
  have closed : variableChain.Closed := by
    intro id inside
    rcases three id inside with rfl | rfl | rfl
    · exact ⟨trivial, fun binding member => by simp_all [variableChain]⟩
    · exact ⟨trivial, fun binding member => by simp_all [variableChain]⟩
    · trivial
  have idle : variableChain.Idle := by
    intro id inside
    rcases three id inside with rfl | rfl | rfl <;> exact nofun
  obtain ⟨-, nested⟩ := expressions_nested_within_limit evaluator closed idle
    (show Request.Within .all 3 (.force 0) from (by decide : 0 < 3)) 4
  refine ⟨rfl, (nested [1, 0] (by decide) fun id member => ?_).2 (by decide)⟩
  rcases List.mem_cons.mp member with rfl | member
  · exact ⟨by decide, rfl, 0, 0, _, rfl⟩
  · obtain rfl := List.mem_singleton.mp member
    exact ⟨by decide, rfl, 0, 0, _, rfl⟩

/-- No function of the limit bounds how many computations are under way at once. -/
theorem computations_nested_beyond_limit :
    ¬ ∃ bound : Nat → Nat, ∀ (program : Program) (annotations : Annotations) (settings : Settings)
      (steps : Nat), program.annotations = .ok annotations →
      let evaluator : Evaluator := ⟨⟨program.names, program.code, annotations⟩, settings⟩
      let state := evaluator.run steps (.evaluate program.root {}) {}
      ∀ ids : List ThunkId, ids.Nodup →
        (∀ id ∈ ids, id < state.store.cells.size ∧ state.store.cell id = .inProgress) →
        ids.length ≤ bound settings.maxDepth := by
  rintro ⟨bound, bounded⟩
  -- With four levels, a program of one round more than the bound has that many checks under way.
  obtain ⟨annotations, resolves, steps, ids, distinct, count, running⟩ :=
    @Wrappers.rounds_nest (bound 4 + 1) (Nat.succ_pos _)
  have less := bounded (Wrappers.program (bound 4 + 1)) annotations { maxDepth := 4 } steps resolves ids
    distinct running
  have limit : ({ maxDepth := 4 } : Settings).maxDepth = 4 := rfl
  rw [limit] at less
  omega

end LazyConfig
