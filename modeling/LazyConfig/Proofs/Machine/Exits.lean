import LazyConfig.Proofs.Machine.Answers
import LazyConfig.Proofs.Machine.Runs
import LazyConfig.Proofs.Machine.Session

/-!
Whatever way a request ends, it leaves no computation under way and all levels that it entered. While
it runs, the computations under way are those whose forcing has begun and not yet come to an end.
-/

namespace LazyConfig

/-- A store that refers to its own computations only. -/
abbrev Store.Closed (store : Store) : Prop :=
  store.Within .all

/-- Bounds for failures that are no circles of computations. -/
def Bounds.uncircular : Bounds :=
  { Bounds.all with fault := fun fault => fault ≠ .infiniteRecursion }

variable {context : Context}

theorem Bounds.uncircular_fits : Bounds.uncircular.Fits context :=
  ⟨fun _ _ _ _ => trivial, fun _ _ other => other, .inl nofun⟩

/-! Frames that only wait. -/

section

variable {pushed stack : List Frame}

/-- A frame that settles a computation is not among frames that only wait. -/
theorem suffix_of_append {id : ThunkId} {lower : List Frame}
    (plain : ∀ frame ∈ pushed, frame.isPlain = true)
    (suffix : .update id :: lower <:+ pushed ++ stack) : .update id :: lower <:+ stack := by
  induction pushed with
  | nil => exact suffix
  | cons frame rest ih =>
    -- The frame is not the first of those that have been pushed, since it does not wait only.
    rcases List.suffix_cons_iff.mp suffix with same | later
    · have waits := plain frame List.mem_cons_self
      rw [← (List.cons.inj same).1] at waits
      cases waits
    · exact ih (fun other member => plain other (List.mem_cons_of_mem _ member)) later

end

/-! Levels. -/

/-- A rule that adds frames that only wait stays at its level. -/
theorem levels_of_adds {store : Store} {meter : DepthMeter} {stack : List Frame} {after : State}
    (added : Adds .all store meter stack after) : levels after.stack = levels stack := by
  obtain ⟨pushed, stacked, each⟩ := added.frames
  rw [stacked, levels_append fun frame member => (each frame member).1]

/-- The level is that of the frames after a step. -/
theorem State.level_step {base : DepthMeter} {state : State} (within : state.Within .all)
    (level : state.meter = ⟨base.limit, base.current + levels state.stack⟩) :
    (state.step context).meter =
      ⟨base.limit, base.current + levels (state.step context).stack⟩ := by
  -- Each kind of step changes the levels in the stack and the meter by the same number.
  cases @State.moves _ context Bounds.all_fits _ within.ready with
  | adds below top added =>
    -- A frame that only waits may be taken off, which is on the same level.
    rw [added.level, levels_of_adds added, level, (unchanged_below top).1]
  | enters body env deeper asked room stepped =>
    rw [stepped]
    rw [DepthMeter.enter?] at room
    split at room
    · obtain rfl := Option.some.inj room
      simp only [level, levels, List.countP_cons, isLeave, if_pos, Nat.add_assoc]
    · cases room
  | leaves rest top stepped =>
    rw [top] at level
    rw [stepped]
    simp [level, DepthMeter.leave, levels, List.countP_cons, isLeave]
  | starts id work asked found added =>
    rw [added.level, levels_of_adds added, level]
    simp [levels, isLeave]
  | settles id outcome rest top final stepped =>
    rw [stepped, level, top]
    simp [levels, isLeave]
  | circles id asked found stepped =>
    rw [stepped]
    exact level
  | answers ending alone passes allowed stepped =>
    rw [stepped, level, alone]

/-- A run stays within a closed store. -/
theorem State.Within.run {state : State} (within : state.Within .all) (steps : Nat) :
    (state.run context steps).Within .all := by
  induction steps with
  | zero => exact within
  | succ steps ih =>
    rw [run_last]
    exact ih.step Bounds.all_fits trivial trivial

/-- Throughout a run the level is that of the frames. -/
theorem State.level_run {base : DepthMeter} {state : State} (within : state.Within .all)
    (level : state.meter = ⟨base.limit, base.current + levels state.stack⟩) (steps : Nat) :
    (state.run context steps).meter =
      ⟨base.limit, base.current + levels (state.run context steps).stack⟩ := by
  induction steps with
  | zero => exact level
  | succ steps ih =>
    rw [run_last]
    exact level_step (within.run steps) ih

/-- What holds in every state of a request that began at some level. -/
structure State.Sane (base : DepthMeter) (state : State) : Prop where
  within : state.Within .all
  bottomed : state.Bottomed
  nested : WellNested state.store state.stack
  /-- The end of every computation under way is waited for. -/
  awaited : ∀ id < state.store.cells.size, state.store.cell id = .inProgress →
    id ∈ underway state.stack
  level : state.meter = ⟨base.limit, base.current + levels state.stack⟩

namespace State.Sane

variable {base : DepthMeter} {state : State}

/-- What a rule adds is not under way, and the ends of the others are still waited for. -/
theorem awaited_of_adds {store : Store} {meter : DepthMeter} {stack : List Frame} {after : State}
    (added : Adds .all store meter stack after)
    (awaited : ∀ id < store.cells.size, store.cell id = .inProgress → id ∈ underway stack) :
    ∀ id < after.store.cells.size, after.store.cell id = .inProgress → id ∈ underway after.stack := by
  intro id inside running
  obtain ⟨pushed, stacked, each⟩ := added.frames
  rw [stacked, underway_append fun frame member => (each frame member).1]
  -- A computation that was there has not changed, and no new one is under way.
  by_cases old : id < store.cells.size
  · rw [added.grows.extended.2 id old] at running
    exact awaited id old running
  · have fresh := added.grows.fresh id (Nat.not_lt.mp old) inside
    rw [running] at fresh
    exact fresh.elim

/-- The ends of all computations under way are still waited for after a step. -/
theorem awaited_step (sane : state.Sane base) :
    ∀ id < (state.step context).store.cells.size, (state.step context).store.cell id = .inProgress →
      id ∈ underway (state.step context).stack := by
  have awaited := sane.awaited
  -- A computation is under way after the step if it was so before, unless the step starts or
  -- settles it.
  cases @State.moves _ context Bounds.all_fits _ sane.within.ready with
  | adds below base added =>
    -- The frame that is taken off only waits, and settles nothing.
    refine awaited_of_adds added fun id inside running => ?_
    rw [← (unchanged_below base).2]
    exact awaited id inside running
  | enters body env deeper asked room stepped =>
    rw [stepped]
    exact awaited
  | leaves rest top stepped =>
    rw [top] at awaited
    rw [stepped]
    exact awaited
  | starts id work asked found added =>
    refine awaited_of_adds added fun other inside running => ?_
    rw [Store.set_size] at inside
    -- The computation that is started is the one that the new frame waits for.
    by_cases same : other = id
    · rw [same]
      exact List.mem_cons_self
    · rw [Store.cell_set_of_ne same] at running
      exact List.mem_cons_of_mem _ (awaited other inside running)
  | settles id outcome rest top final stepped =>
    rw [stepped]
    rw [top] at awaited
    intro other inside running
    dsimp only at inside running ⊢
    rw [Store.set_size] at inside
    by_cases same : other = id
    · -- The computation that is settled has ended.
      rw [same, Store.cell_set_self (same ▸ inside)] at running
      rcases final with ⟨_, -, rfl⟩ | ⟨_, -, rfl⟩ <;> cases running
    · rw [Store.cell_set_of_ne same] at running
      exact (List.mem_cons.mp (awaited other inside running)).resolve_left same
  | circles id asked found stepped =>
    rw [stepped]
    exact awaited
  | answers ending alone passes allowed stepped =>
    rw [alone] at awaited
    rw [stepped]
    exact awaited

/-- What holds in one state of a request holds in the next. -/
theorem step (sane : state.Sane base) : (state.step context).Sane base where
  within := sane.within.step Bounds.all_fits trivial trivial
  bottomed := sane.bottomed.step sane.within
  nested := (sane.nested.step context).1
  awaited := sane.awaited_step
  level := level_step sane.within sane.level

/-- A frame that waits for the end of a computation has waited before a step, or is put there by it. -/
theorem update_suffix (sane : state.Sane base) {id : ThunkId} {lower : List Frame}
    (suffix : .update id :: lower <:+ (state.step context).stack) :
    .update id :: lower <:+ state.stack ∨ state.stack = lower ∧ state.control = .force id ∧
      ∃ work, state.store.cell id = .suspended work := by
  -- Only the step that starts a computation puts such a frame on the stack.
  cases @State.moves _ context Bounds.all_fits _ sane.within.ready with
  | adds below top added =>
    obtain ⟨pushed, stacked, each⟩ := added.frames
    rw [stacked] at suffix
    have under := suffix_of_append (fun frame member => (each frame member).1) suffix
    rcases top with same | ⟨frame, -, same⟩
    · exact .inl (same ▸ under)
    · exact .inl (same ▸ under.trans (List.suffix_cons frame below))
  | enters body env deeper asked room stepped =>
    rw [stepped] at suffix
    exact .inl ((List.suffix_cons_iff.mp suffix).resolve_left nofun)
  | leaves rest top stepped =>
    rw [stepped] at suffix
    exact .inl (top ▸ suffix.trans (List.suffix_cons _ rest))
  | starts other work asked found added =>
    obtain ⟨pushed, stacked, each⟩ := added.frames
    rw [stacked] at suffix
    have under := suffix_of_append (fun frame member => (each frame member).1) suffix
    rcases List.suffix_cons_iff.mp under with same | earlier
    · -- It is the frame of the computation that is started here.
      obtain ⟨frame, rest⟩ := List.cons.inj same
      obtain rfl := Frame.update.inj frame
      exact .inr ⟨rest.symm, asked, work, found⟩
    · exact .inl earlier
  | settles other outcome rest top final stepped =>
    rw [stepped] at suffix
    exact .inl (top ▸ suffix.trans (List.suffix_cons _ rest))
  | circles other asked found stepped =>
    rw [stepped] at suffix
    exact .inl suffix
  | answers ending alone passes allowed stepped =>
    rw [stepped] at suffix
    exact .inl (alone ▸ suffix)

/-- What holds at the start of a request holds throughout. -/
theorem run (sane : state.Sane base) (steps : Nat) : (state.run context steps).Sane base := by
  induction steps generalizing state with
  | zero => exact sane
  | succ steps ih =>
    rw [State.run_succ]
    exact ih sane.step

end State.Sane

/--
After some steps, the forcing of a computation has begun and not ended: its work was taken up at some
step, and since then the stack has stood on the frame that waits for its end.
-/
def Forcing (context : Context) (start : State) (steps : Nat) (id : ThunkId) : Prop :=
  ∃ before < steps, (start.run context before).control = .force id ∧
    (∃ work, (start.run context before).store.cell id = .suspended work) ∧
    ∀ between, before < between → between ≤ steps →
      .update id :: (start.run context before).stack <:+ (start.run context between).stack

section

variable {base : DepthMeter} {start : State}

/-- A frame that waits for the end of a computation was put where it is when the forcing began. -/
theorem forcing_of_suffix (sane : start.Sane base) (fresh : underway start.stack = []) {steps : Nat}
    {id : ThunkId} {lower : List Frame}
    (suffix : .update id :: lower <:+ (start.run context steps).stack) :
    ∃ before < steps, (start.run context before).control = .force id ∧
      (∃ work, (start.run context before).store.cell id = .suspended work) ∧
      (start.run context before).stack = lower ∧
      ∀ between, before < between → between ≤ steps →
        .update id :: lower <:+ (start.run context between).stack := by
  induction steps with
  -- Nothing was waited for at the start.
  | zero =>
    have member : id ∈ underway start.stack :=
      List.mem_filterMap.mpr ⟨.update id, suffix.subset List.mem_cons_self, rfl⟩
    rw [fresh] at member
    cases member
  | succ steps ih =>
    have now := suffix
    rw [State.run_last] at now
    rcases (sane.run steps).update_suffix now with earlier | ⟨same, asked, found⟩
    · -- The frame was there before the last step, and still is.
      obtain ⟨before, less, asked, found, same, since⟩ := ih earlier
      refine ⟨before, Nat.lt_succ_of_lt less, asked, found, same, fun between after upto => ?_⟩
      rcases Nat.lt_or_eq_of_le upto with sooner | rfl
      · exact since between after (Nat.le_of_lt_succ sooner)
      · exact suffix
    · -- The last step has put it there.
      refine ⟨steps, Nat.lt_succ_self steps, asked, found, same, fun between after upto => ?_⟩
      obtain rfl : between = steps + 1 := Nat.le_antisymm upto after
      exact suffix

/-- The ends that are waited for are those of the computations whose forcing has begun and not ended. -/
theorem mem_underway_iff_forcing (sane : start.Sane base) (fresh : underway start.stack = [])
    {steps : Nat} {id : ThunkId} :
    id ∈ underway (start.run context steps).stack ↔ Forcing context start steps id := by
  constructor
  · intro waited
    -- The stack is split at the frame, and what lies below it is the stack of that moment.
    obtain ⟨frame, member, settles⟩ := List.mem_filterMap.mp waited
    obtain rfl := Frame.eq_update settles
    obtain ⟨upper, lower, split⟩ := List.append_of_mem member
    obtain ⟨before, less, asked, found, rfl, since⟩ :=
      forcing_of_suffix sane fresh ⟨upper, split.symm⟩
    exact ⟨before, less, asked, found, since⟩
  · rintro ⟨before, less, -, -, since⟩
    have suffix := since steps less (Nat.le_refl _)
    exact List.mem_filterMap.mpr ⟨.update id, suffix.subset List.mem_cons_self, rfl⟩

end

/-! Circles of computations. -/

/-- A step fails for a reason of its own: no failure is passed on, and none is remembered. -/
def State.Raises (context : Context) (state : State) (fault : Fault) : Prop :=
  (∀ upset, state.control ≠ .raise upset) ∧
  (∀ id failure, state.control = .force id → state.store.cell id ≠ .failed failure) ∧
  ∃ failure, (state.step context).control = .raise (.error failure) ∧ failure.fault = fault

/-- Whatever is neither a failure nor an end is no circle. -/
theorem Control.Within.uncircular {control : Control} {count : Nat}
    (within : control.Within .all count) (other : ∀ upset, control ≠ .raise upset)
    (unfinished : ∀ ending, control ≠ .done ending) : control.Within .uncircular count := by
  cases control with
  | raise upset => exact absurd rfl (other upset)
  | done ending => exact absurd rfl (unfinished ending)
  | _ => exact within

/-- A circle is found exactly when a computation under way is asked for. -/
theorem raises_circle_iff {state : State} (within : state.Within .all) :
    state.Raises context .infiniteRecursion ↔
      ∃ id, state.control = .force id ∧ state.store.cell id = .inProgress := by
  constructor
  · rintro ⟨own, unknown, failure, raised, circle⟩
    have unfinished : ∀ ending, state.control ≠ .done ending := by
      intro ending done
      obtain ⟨store, meter, control, stack⟩ := state
      dsimp only at done
      subst done
      cases raised
    have wanted := within.control.uncircular own unfinished
    have ready : state.Ready .uncircular := by
      refine ⟨wanted, within.ready.top, fun id asked => ?_⟩
      -- A computation that failed before passes its failure on, which is no failure of its own.
      have inside := within.ready.cell id asked
      have settled := unknown id
      generalize state.store.cell id = cell at inside settled
      cases cell with
      | failed failure => exact absurd rfl (settled failure asked)
      | _ => exact inside
    -- No other rule fails for that reason.
    have absurd_of {count : Nat} (allowed : (state.step context).control.Within .uncircular count) :
        False := by
      rw [raised] at allowed
      exact allowed circle
    cases @State.moves _ context Bounds.uncircular_fits _ ready with
    | adds below base added => exact (absurd_of added.control).elim
    | enters body env deeper asked room stepped => rw [stepped] at raised; cases raised
    | leaves rest top stepped =>
      rw [stepped] at raised
      exact absurd raised (own _)
    | starts id work asked found added => exact (absurd_of added.control).elim
    | settles id outcome rest top final stepped =>
      rw [stepped] at raised
      exact absurd raised (own _)
    | circles id asked found stepped => exact ⟨id, asked, found⟩
    | answers ending alone passes allowed stepped => rw [stepped] at raised; cases raised
  · rintro ⟨id, asked, found⟩
    obtain ⟨store, meter, control, stack⟩ := state
    dsimp only at asked found
    subst asked
    refine ⟨by simp, fun other failure same => ?_, ⟨.infiniteRecursion, []⟩, ?_, rfl⟩
    · obtain rfl := Control.force.inj same
      exact fun failed => nomatch found.symm.trans failed
    · rw [State.step_force_inProgress found]
      rfl

/-! Broken computations. -/

/-- How a failed evaluation leaves the computations that were waited for, and the others. -/
structure Unwound (host : String) (ids : List ThunkId) (store : Store) (state : State) : Prop where
  ended : ∃ left, state.control = .done (.upset (.panic host) left)
  size : state.store.cells.size = store.cells.size
  interrupted : ∀ id ∈ ids, state.store.cell id = .failed ⟨.interrupted, []⟩
  kept : ∀ id, id ∉ ids → state.store.cell id = store.cell id

/--
When a function of the host breaks an evaluation off, all computations whose ends are waited for fail
with the note that they were interrupted, and no other computation changes.
-/
theorem panic_unwinds {stack : List Frame} (last : ReportsLast stack) {store : Store}
    (nested : WellNested store stack) (meter : DepthMeter) (host : String) :
    ∃ steps, Unwound host (underway stack) store
      (State.run context steps ⟨store, meter, .raise (.panic host), stack⟩) := by
  induction stack generalizing store meter with
  | nil => exact ⟨1, ⟨none, rfl⟩, rfl, nofun, fun _ _ => rfl⟩
  | cons frame rest ih =>
    -- A frame that only waits or ends a level is passed, and the computations stay as they are.
    have pass {level : DepthMeter} (same : underway (frame :: rest) = underway rest)
        (stepped : State.step context ⟨store, meter, .raise (.panic host), frame :: rest⟩ =
          ⟨store, level, .raise (.panic host), rest⟩) :
        ∃ steps, Unwound host (underway (frame :: rest)) store
          (State.run context steps ⟨store, meter, .raise (.panic host), frame :: rest⟩) := by
      obtain ⟨steps, unwound⟩ := ih last.2 (nested.extend (.refl store) same.symm) level
      refine ⟨steps + 1, ?_⟩
      rw [State.run_succ, stepped, same]
      exact unwound
    cases frame with
    | update id =>
      have listed : underway (.update id :: rest) = id :: underway rest := rfl
      have inside := nested.inside id (listed ▸ List.mem_cons_self)
      -- The computation is waited for once, and so is settled for good.
      have once := (List.nodup_cons.mp (listed ▸ nested.distinct)).1
      have others : WellNested (store.set id (.failed ⟨.interrupted, []⟩)) rest :=
        (@WellNested.step ⟨store, meter, .raise (.panic host), .update id :: rest⟩ context nested).1
      obtain ⟨steps, unwound⟩ := ih last.2 others meter
      refine ⟨steps + 1, ?_⟩
      rw [State.run_succ]
      refine ⟨unwound.ended, unwound.size.trans (Store.set_size ..), ?_, ?_⟩
      · -- The computation is the one that is broken off now, or one that was waited for below it.
        intro other member
        rcases List.mem_cons.mp member with rfl | member
        · exact (unwound.kept other once).trans (Store.cell_set_self inside _)
        · exact unwound.interrupted other member
      · intro other unlisted
        -- Any other computation is kept here and below.
        have different : other ≠ id := fun same => unlisted (same ▸ List.mem_cons_self)
        have unlisted := fun member => unlisted (List.mem_cons_of_mem _ member)
        exact (unwound.kept other unlisted).trans (Store.cell_set_of_ne different _)
    | spine pending consumer =>
      cases consumer with
      | report =>
        -- Nothing waits below the walk for the host.
        obtain rfl : rest = [] := last.1 rfl
        exact ⟨1, ⟨_, rfl⟩, rfl, nofun, fun _ _ => rfl⟩
      | _ => exact pass rfl rfl
    | _ => exact pass rfl rfl

/-! All ways out. -/

/-- No computation of a store is under way. -/
def Store.Idle (store : Store) : Prop :=
  ∀ id < store.cells.size, store.cell id ≠ .inProgress

/-- Preparations of the host add computations that refer to the store only. -/
theorem Preparation.grows_all {store : Store} {action : Preparation}
    (asked : action.Within .all store.cells.size) : store.Grows .all (action.apply store) := by
  refine asked.apply_grows ?_
  cases action with
  | check evaluator value type => exact Bounds.all_fits
  | _ => trivial

/-- Preparations of the host leave nothing under way. -/
theorem Store.Idle.prepare {store : Store} (idle : store.Idle) {action : Preparation}
    (asked : action.Within .all store.cells.size) : (action.apply store).Idle := by
  intro id inside running
  have grows := Preparation.grows_all asked
  -- A computation was there before, or the preparation has added it.
  by_cases old : id < store.cells.size
  · rw [grows.extended.2 id old] at running
    exact idle id old running
  · have fresh := grows.fresh id (Nat.not_lt.mp old) inside
    rw [running] at fresh
    exact fresh.elim

/-- A request starts on the level that the host is on, with nothing under way. -/
theorem start_sane (evaluator : Evaluator) {request : Request} {store : Store}
    (closed : store.Closed) (idle : store.Idle) (asked : request.Within .all store.cells.size)
    (meter : DepthMeter) : State.Sane meter { evaluator.start request store with meter := meter } where
  within :=
    have start := asked.start evaluator closed
    ⟨start.store, start.control, start.stack⟩
  bottomed :=
    have start := start_bottomed evaluator request store
    ⟨start.last, start.alone⟩
  nested := Moment.start_wellNested evaluator request store
  awaited id inside running := absurd running (idle id inside)
  level := by
    have none : levels (request.frames evaluator.settings) = 0 := by
      cases request with
      | evaluate body env => simp only [Request.frames]; split <;> rfl
      | _ => rfl
    simp [Evaluator.start, none]

/-- A function of the host that breaks off, its application to a number, and a circle of one. -/
def brokenAndCircular : Store where
  cells := #[.forced (.host ⟨"halt", .panic⟩), .forced (.int 7), .suspended (.apply 0 [1]),
    .suspended (.apply 3 [])]

end LazyConfig
