import LazyConfig.Proofs.ByName.Simulation
import LazyConfig.Proofs.Machine.Deepen

/-!
Whole evaluations, with a store and by name. Both end, and in the same way, up to a computation that
needs itself and to the limit of levels.
-/

namespace LazyConfig.ByName

/--
An evaluation with a store has ended as the one by name does; with a value, the meanings from before are
kept. The condition says when the limit of levels can have been too low.
-/
inductive Agrees (context : Context) (refused tight : Prop) (before : Meaning) (named : State)
    (last : LazyConfig.State) : Prop
  /-- Both have a value. -/
  | value (store : Store) (meter : DepthMeter) (value : LazyConfig.Value) (result : Value)
    (meaning : Meaning) (grown : Grows before meaning)
    (ended : last = ⟨store, meter, .done (.value value), []⟩)
    (reaches : Reaches context named ⟨.give result, []⟩)
    (heap : Heap context ⟨[], refused⟩ meaning store) (mirrors : ValueMirrors meaning value result)
  /-- Both fail, for reasons of the same kind that lie in the program. -/
  | failure (failure : EvalError) (left : Option Cursor) (own : failure.fault.ordinary = true)
    (ended : last.control = .done (.upset (.error failure) left))
    (reaches : Reaches context named ⟨.raise failure.fault.variant, []⟩)
  /-- A computation needs itself, and goes on for ever by name. -/
  | circle (failure : EvalError) (left : Option Cursor) (cause : failure.fault = .infiniteRecursion)
    (ended : last.control = .done (.upset (.error failure) left))
    (endless : Diverges context named)
  /-- The limit of levels is too low. -/
  | overflow (failure : EvalError) (left : Option Cursor)
    (cause : failure.fault.variant = .stackOverflow)
    (ended : last.control = .done (.upset (.error failure) left)) (low : tight)

variable {context : Context} {refused : Prop} {meaning : Meaning}

/-- What agrees with a later state by name agrees with an earlier one. -/
theorem Agrees.of_reaches {tight loose : Prop} {after : Meaning} {named later : State}
    {last : LazyConfig.State} (grown : Grows meaning after) (reached : Reaches context named later)
    (weaker : tight → loose) (agrees : Agrees context refused tight after later last) :
    Agrees context refused loose meaning named last := by
  -- What the later state reaches the earlier one reaches through it, and so it is for a run without
  -- end.
  cases agrees with
  | value store meter value result final more ended reaches heap mirrors =>
    exact .value store meter value result final (grown.trans more) ended (reached.trans reaches) heap
      mirrors
  | failure failure left own ended reaches =>
    exact .failure failure left own ended (reached.trans reaches)
  | circle failure left cause ended endless =>
    exact .circle failure left cause ended (endless.of_reaches reached)
  | overflow failure left cause ended low => exact .overflow failure left cause ended (weaker low)

/-- By name, a failure passes all frames. -/
theorem reaches_raise (variant : Variant) (stack : List Frame) :
    Reaches context ⟨.raise variant, stack⟩ ⟨.raise variant, []⟩ := by
  induction stack with
  | nil => exact .refl _
  | cons frame rest ih => exact Reaches.trans ⟨1, rfl⟩ ih

/-- A state that stands for a state by name is not at its end. -/
theorem Mirrored.unfinished {state : LazyConfig.State} {named : State}
    (mirrored : Mirrored context refused meaning state named) : ¬ state.Ended := by
  rintro ⟨ending, done⟩
  have control := mirrored.control
  rw [done] at control
  cases control

/-- What a state comes to that does not go on by a step of either kind. -/
theorem Mirrored.step_or_end {state : LazyConfig.State} {named : State}
    (mirrored : Mirrored context refused meaning state named) :
    (∃ later steps, Grows meaning later ∧ ¬ named.Final ∧
      Mirrored context refused later (state.step context) (run context (steps + 1) named) ∧
      (state.step context).meter.limit = state.meter.limit ∧
      weight (state.step context) ≤ weight state + 1) ∨
    (∃ later, Grows meaning later ∧ Mirrored context refused later (state.step context) named ∧
      (state.step context).meter.limit = state.meter.limit ∧
      delay (state.step context) < delay state ∧ weight (state.step context) ≤ weight state) ∨
    ∃ steps, Agrees context refused (state.meter.limit ≤ weight state ∨ refused) meaning named
      (state.run context steps) := by
  cases mirrored.progress with
  | moves later grown steps unfinished mirrored limit deeper =>
    exact .inl ⟨later, steps, grown, unfinished, mirrored, limit, deeper⟩
  | pauses later grown mirrored limit shorter flat =>
    exact .inr (.inl ⟨later, grown, mirrored, limit, shorter, flat⟩)
  | ends value result given alone final =>
    obtain ⟨store, meter, control, stack⟩ := state
    obtain ⟨heap, mirrors, -, -⟩ := mirrored
    simp only at given alone heap mirrors
    subst given alone final
    cases mirrors with
    | give mirrors =>
      refine .inr (.inr ⟨1, ?_⟩)
      exact .value store meter value result meaning (.refl meaning) rfl (.refl _) heap mirrors
  -- Unwinding the frames may take steps here as well as by name; the cause stays what it is.
  | fails failure own raised same =>
    obtain ⟨steps, later, left, cause, ended⟩ := @ends_with_cause context _ _ _ raised
    obtain ⟨control, stack⟩ := named
    simp only at same
    subst same
    have reaches := @reaches_raise context failure.fault.variant stack
    rw [← cause] at reaches own ⊢
    exact .inr (.inr ⟨steps, .failure later left own ended reaches⟩)
  -- The level that was refused is the number of frames that stand for levels.
  | refuses failure same stays full =>
    have raised : (state.step context).control = .raise (.error failure) := by rw [stays]
    obtain ⟨steps, later, left, cause, ended⟩ := @ends_with_cause context _ _ _ raised
    rw [← LazyConfig.State.run_succ] at ended
    refine .inr (.inr ⟨steps + 1, .overflow later left (cause ▸ same) ended (full.imp_left ?_)⟩)
    intro full
    rw [mirrored.level] at full
    exact Nat.le_trans full (Nat.le_add_right _ _)
  | circles failure same stays promise asked endless =>
    have raised : (state.step context).control = .raise (.error failure) := by rw [stays]
    obtain ⟨steps, later, left, cause, ended⟩ := @ends_with_cause context _ _ _ raised
    rw [← LazyConfig.State.run_succ] at ended
    obtain ⟨control, stack⟩ := named
    obtain rfl : control = .force promise := asked
    exact .inr (.inr ⟨steps + 1, .circle later left (cause.trans same) ended (endless stack)⟩)

/-- An evaluation that has ended has ended as the one by name does. -/
theorem Mirrored.agrees {state : LazyConfig.State} {named : State}
    (mirrored : Mirrored context refused meaning state named) {steps : Nat}
    (ended : (state.run context steps).Ended) :
    Agrees context refused True meaning named (state.run context steps) := by
  induction steps generalizing state named meaning with
  | zero => exact absurd ended mirrored.unfinished
  | succ steps ih =>
    obtain ⟨later, count, grown, -, next, -, -⟩ | ⟨later, grown, next, -, -, -⟩ | ⟨others, agrees⟩ :=
      mirrored.step_or_end
    · -- Both have moved, so the end by name is reached through the steps just taken.
      rw [LazyConfig.State.run_succ] at ended ⊢
      exact (ih next ended).of_reaches grown ⟨count + 1, rfl⟩ id
    · rw [LazyConfig.State.run_succ] at ended ⊢
      exact (ih next ended).of_reaches grown (.refl _) id
    · -- This is the end, and a run has one end only.
      have finished : (state.run context others).Ended := by
        cases agrees with
        | value _ _ _ _ _ _ ended => exact ⟨_, by rw [ended]⟩
        | failure _ _ _ ended => exact ⟨_, ended⟩
        | circle _ _ _ ended => exact ⟨_, ended⟩
        | overflow _ _ _ ended => exact ⟨_, ended⟩
      rw [ended.unique finished]
      exact agrees.of_reaches (.refl _) (.refl _) fun _ => trivial

/--
When the evaluation by name ends, so does the one with a store, and in the same way if the limit is
larger than what it starts with and the number of steps by name together.
-/
theorem Mirrored.ends {named : State} {rounds : Nat} (final : (run context rounds named).Final)
    {state : LazyConfig.State} (mirrored : Mirrored context refused meaning state named) :
    ∃ steps, Agrees context refused (state.meter.limit ≤ weight state + rounds ∨ refused) meaning
      named (state.run context steps) := by
  -- Each step by name brings the end nearer, and between two of them only so many steps fit.
  induction rounds using Nat.strongRecOn generalizing named state meaning with
  | ind rounds fewer =>
  induction lag : delay state using Nat.strongRecOn generalizing state meaning with
  | ind lag shorter =>
  obtain ⟨later, count, grown, unfinished, next, limit, deeper⟩ |
    ⟨later, grown, next, limit, less, flat⟩ | ⟨steps, agrees⟩ := mirrored.step_or_end
  · -- A step by name leaves fewer rounds, so the outer induction applies.
    have positive : 0 < rounds := by
      rcases Nat.eq_zero_or_pos rounds with rfl | positive
      · exact absurd final unfinished
      · exact positive
    have rest : (run context (rounds - (count + 1)) (run context (count + 1) named)).Final := by
      rwa [run_sub final]
    obtain ⟨steps, agrees⟩ := fewer _ (by omega) rest next
    refine ⟨steps + 1, ?_⟩
    rw [LazyConfig.State.run_succ]
    refine agrees.of_reaches grown ⟨count + 1, rfl⟩ (Or.imp_left fun tight => ?_)
    omega
  · -- No step by name was taken, but fewer of those that wait remain.
    obtain ⟨steps, agrees⟩ := shorter _ (lag ▸ less) next rfl
    refine ⟨steps + 1, ?_⟩
    rw [LazyConfig.State.run_succ]
    refine agrees.of_reaches grown (.refl _) (Or.imp_left fun tight => ?_)
    omega
  · exact ⟨steps, agrees.of_reaches (.refl _) (.refl _) (Or.imp_left fun tight => by omega)⟩

end LazyConfig.ByName
