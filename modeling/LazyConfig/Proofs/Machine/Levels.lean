import LazyConfig.Proofs.Machine.Limit

/-!
The level is that of the frames, whatever is in the store. So a run depends on its meter only by the number
of levels that are left: with as many or more of them left it goes on in the same way on any other level.
-/

namespace LazyConfig

/-- The end of a level is one level more. -/
theorem levels_leave (stack : List Frame) : levels (.leave :: stack) = levels stack + 1 := by
  simp [levels, List.countP_cons, isLeave]

namespace State

variable {context : Context}

/-- What a step does with its meter: it passes it on, or a level begins or ends. -/
inductive Climbs (context : Context) (state : State) : Prop
  /-- The step is the same for every meter, on the level of its frames. -/
  | stays (rule : DepthMeter → State)
    (blind : ∀ meter other, (rule meter).metered other = rule other)
    (level : ∀ meter, levels (rule meter).stack = levels state.stack)
    (stepped : ∀ meter, (state.metered meter).step context = rule meter)
  | enters (body : ExprId) (env : Env) (asked : state.control = .enter body env)
  | leaves (rest : List Frame) (top : state.stack = .leave :: rest)
    (stepped : ∀ meter, (state.metered meter).step context =
      ⟨state.store, meter.leave, state.control, rest⟩)

/-- Each step is one of these. -/
theorem climbs (state : State) : state.Climbs context := by
  cases state.shape context with
  | uniform below base alone rule =>
    refine .stays (fun meter => (alone.metered meter).onto below) (fun _ _ => rfl) (fun meter => ?_)
      fun meter => (uniform_self rule meter).above
    rw [← (uniform_self rule meter).above, (uniform_self rule meter).levels_eq, (unchanged_below base).1]
  | enters body env asked => exact .enters body env asked
  | leaves rest top _ stepped => exact .leaves rest top (step_self stepped)
  | starts id work asked found =>
    obtain ⟨store, meter, control, stack⟩ := state
    obtain rfl : control = .force id := asked
    -- The work begins in the same way on every level, above the frame that settles the computation.
    refine .stays (fun meter => Context.resumeStep (store.set id .inProgress) meter work (.update id :: stack))
      (fun meter other => ?_) (fun meter => ?_) fun meter => step_force_suspended found
    · cases work <;> rfl
    · cases work <;> rfl
  | settles id outcome rest top _ _ stepped =>
    refine .stays (fun meter => ⟨state.store.set id outcome, meter, state.control, rest⟩) (fun _ _ => rfl)
      (fun _ => ?_) (step_self stepped)
    rw [top]
    rfl
  | answers ending empty _ _ stepped =>
    refine .stays (fun meter => ⟨state.store, meter, .done ending, []⟩) (fun _ _ => rfl) (fun _ => ?_) stepped
    rw [empty]

/-- The same state as a part of a run that began at a given level. -/
def based (state : State) (base : DepthMeter) : State :=
  state.metered ⟨base.limit, base.current + levels state.stack⟩

/--
A step is the same on any level with as many levels left, unless it is refused one more level. On its own
level it stays as far above its beginning as its frames say.
-/
theorem step_based {low high : DepthMeter} (room : low.limit + high.current ≤ high.limit + low.current)
    (state : State) :
    (state.based high).step context = ((state.based low).step context).based high ∨
      (state.based low).step context =
        { state.based low with control := .fail (.depthExceeded low.limit) } := by
  -- A rule that does not look at the meter gives the same on both levels.
  cases @climbs context state with
  | stays rule blind level stepped =>
    refine .inl ?_
    have here (base : DepthMeter) : (state.based base).step context =
        rule ⟨base.limit, base.current + levels state.stack⟩ := stepped _
    rw [here, here, based, level]
    exact (blind _ _).symm
  | enters body env asked =>
    obtain ⟨store, meter, control, stack⟩ := state
    obtain rfl : control = .enter body env := asked
    -- Where there is room for one more level here, there is room on the other level.
    by_cases inside : low.current + levels stack < low.limit
    · refine .inl ?_
      have more : high.current + levels stack < high.limit := by omega
      simp [step, based, metered, Context.enterStep, DepthMeter.enter?, inside, more, levels_leave,
        Nat.add_assoc]
    · refine .inr ?_
      simp [step, based, metered, Context.enterStep, DepthMeter.enter?, inside]
  | leaves rest top stepped =>
    refine .inl ?_
    have here (base : DepthMeter) : (state.based base).step context =
        ⟨state.store, ⟨base.limit, base.current + levels rest⟩, state.control, rest⟩ := by
      rw [based, stepped, top, levels_leave]
      rfl
    rw [here, here]
    rfl

/-- On its own level a run stays as far above its beginning as its frames say. -/
theorem run_based_self (base : DepthMeter) (state : State) (steps : Nat) :
    ((state.based base).run context steps).based base = (state.based base).run context steps := by
  -- The last step is taken by a state that stands on its own level, so it stays there.
  induction steps with
  | zero => rfl
  | succ steps ih =>
    rw [run_last, ← ih]
    rcases @step_based context base base (Nat.le_refl _)
      ((state.based base).run context steps) with same | refused
    · exact same.symm
    · rw [refused]
      rfl

/-- A run is the same on any level with as many levels left, unless it is refused one more level. -/
theorem run_based {low high : DepthMeter} (room : low.limit + high.current ≤ high.limit + low.current)
    (state : State) (steps : Nat) :
    (state.based high).run context steps = ((state.based low).run context steps).based high ∨
      ∃ before, ((state.based low).run context before).control = .fail (.depthExceeded low.limit) := by
  induction steps with
  | zero => exact .inl rfl
  | succ steps ih =>
    rcases ih with same | refused
    · -- Both runs stand at the same state, which takes the same step or is refused.
      have own := @run_based_self context low state steps
      rw [run_last, run_last, same]
      rcases @step_based context low high room ((state.based low).run context steps) with same | refused
      · rw [own] at same
        exact .inl same
      · rw [own] at refused
        exact .inr ⟨steps + 1, by rw [run_last, refused]⟩
    · exact .inr refused

/-- No step goes past the limit. -/
theorem step_current {state : State} (inside : state.meter.current ≤ state.meter.limit) :
    (state.step context).meter.current ≤ (state.step context).meter.limit := by
  cases @climbs context state with
  | stays rule blind level stepped =>
    -- With its own meter in place of its meter the result stays the same, so that is its meter.
    have own (meter : DepthMeter) : (rule meter).meter = meter :=
      (congrArg State.meter (blind meter meter)).symm
    have same : state.step context = rule state.meter := stepped state.meter
    rwa [same, own]
  | enters body env asked =>
    obtain ⟨store, meter, control, stack⟩ := state
    obtain rfl : control = .enter body env := asked
    simp only [step, Context.enterStep, DepthMeter.enter?]
    split
    · rename_i deeper entered
      split at entered
      · obtain rfl := Option.some.inj entered
        assumption
      · cases entered
    · exact inside
  | leaves rest top stepped =>
    have same : state.step context = ⟨state.store, state.meter.leave, state.control, rest⟩ :=
      stepped state.meter
    rw [same]
    exact Nat.le_trans (Nat.sub_le _ _) inside

/-- No run goes past the limit. -/
theorem run_current {state : State} (inside : state.meter.current ≤ state.meter.limit) (steps : Nat) :
    (state.run context steps).meter.current ≤ (state.run context steps).meter.limit := by
  induction steps with
  | zero => exact inside
  | succ steps ih =>
    rw [run_last]
    exact step_current ih

end State

end LazyConfig
