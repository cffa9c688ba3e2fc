import LazyConfig.Proofs.Machine.Frames
import LazyConfig.Proofs.Store.Extension

/-!
What one step does to the store. Of its computations it starts one that is put off, settles one that is under
way, or leaves all of them as they are. A call of a host function is noted when the function gets its argument,
with the text of the argument at that moment, and nothing else notes a call.
-/

namespace LazyConfig

/-- The computation that a frame settles, if it settles one. -/
def Frame.settles? : Frame → Option ThunkId
  | .update id => some id
  | _ => none

/-- The computations that wait to be settled by the frames of a stack, innermost first. -/
def underway (stack : List Frame) : List ThunkId :=
  stack.filterMap Frame.settles?

/-- Whether a frame is the end of a level. -/
def isLeave : Frame → Bool
  | .leave => true
  | _ => false

/-- The number of levels that the frames of a stack are in. -/
def levels (stack : List Frame) : Nat :=
  stack.countP isLeave

/-- Only a frame that settles a computation is one. -/
theorem Frame.eq_update {frame : Frame} {id : ThunkId} (settled : frame.settles? = some id) :
    frame = .update id := by
  cases frame <;> simp_all [settles?]

/-- A step that only adds computations and settles none. -/
def Undisturbed (store : Store) (stack : List Frame) (after : State) : Prop :=
  store.Extends after.store ∧ underway after.stack = underway stack

/-! Frames that only wait. -/

section

variable {pushed stack : List Frame}

/-- Frames that only wait settle no computation. -/
theorem underway_append (plain : ∀ frame ∈ pushed, frame.isPlain = true) :
    underway (pushed ++ stack) = underway stack := by
  induction pushed with
  | nil => rfl
  -- A frame that only waits settles nothing, so the list of those that do skips it.
  | cons frame rest ih =>
    have none : frame.settles? = none := by
      have waits := plain frame List.mem_cons_self
      cases frame with
      | update id => cases waits
      | _ => rfl
    have others := ih fun other member => plain other (List.mem_cons_of_mem _ member)
    rwa [underway, List.cons_append, List.filterMap_cons_none none]

/-- Frames that only wait are the end of no level. -/
theorem levels_append (plain : ∀ frame ∈ pushed, frame.isPlain = true) :
    levels (pushed ++ stack) = levels stack := by
  have none : pushed.countP isLeave = 0 := by
    -- A frame that only waits leaves no level.
    refine List.countP_eq_zero.mpr fun frame member => ?_
    have waits := plain frame member
    cases frame with
    | leave => cases waits
    | _ => simp [isLeave]
  rw [levels, List.countP_append, none, Nat.zero_add, levels]

/-- Taking off a frame that only waits neither ends a level nor settles a computation. -/
theorem unchanged_below {below : List Frame}
    (base : stack = below ∨ ∃ frame, frame.isPlain = true ∧ stack = frame :: below) :
    levels stack = levels below ∧ underway stack = underway below := by
  rcases base with rfl | ⟨frame, plain, rfl⟩
  · exact ⟨rfl, rfl⟩
  · have waits : ∀ other ∈ [frame], other.isPlain = true :=
      fun other member => List.mem_singleton.mp member ▸ plain
    exact ⟨levels_append waits, underway_append waits⟩

end

/-! Rules that are the same on every level and above all frames. -/

namespace Uniform

variable {store : Store} {calls : Array HostCall} {meter : DepthMeter} {stack : List Frame} {after alone : State}

/-- Such a rule puts frames on the stack that only wait. -/
theorem stacked (uniform : Uniform store calls meter stack after alone) :
    after.stack = alone.stack ++ stack ∧ ∀ frame ∈ alone.stack, frame.isPlain = true :=
  ⟨congrArg State.stack uniform.above, List.all_eq_true.mp uniform.plain⟩

/-- Such a rule ends no level and begins none. -/
theorem levels_eq (uniform : Uniform store calls meter stack after alone) :
    levels after.stack = levels stack := by
  rw [uniform.stacked.1, levels_append uniform.stacked.2]

/-- Such a rule disturbs no computation. -/
theorem undisturbed (uniform : Uniform store calls meter stack after alone) :
    Undisturbed store stack after := by
  refine ⟨?_, by rw [uniform.stacked.1, underway_append uniform.stacked.2]⟩
  rw [uniform.above]
  exact uniform.grown

end Uniform

/-! One step of any kind. -/

/-- What a step does to the computations of the store. -/
inductive State.Effect (context : Context) (state : State) : Prop
  /-- The computations that are there stay as they are. -/
  | undisturbed (quiet : Undisturbed state.store state.stack (state.step context))
  /-- A computation that was put off is started, and its end is waited for. -/
  | starts (id : ThunkId) (work : Suspension) (asked : state.control = .force id)
    (found : state.store.cell id = .suspended work)
    (cells : (state.step context).store = state.store.set id .inProgress)
    (waits : underway (state.step context).stack = id :: underway state.stack)
  /-- The computation that the top frame waits for is settled. -/
  | settles (id : ThunkId) (outcome : Cell) (rest : List Frame)
    (top : state.stack = .update id :: rest)
    (final : (∃ value, outcome = .forced value) ∨ ∃ failure, outcome = .failed failure)
    (cells : (state.step context).store = state.store.set id outcome)
    (waits : (state.step context).stack = rest)

/-- Every step starts one computation, settles one, or disturbs none. -/
theorem State.effect (context : Context) (state : State) : state.Effect context := by
  cases state.shape context with
  | uniform below base alone rule =>
    obtain ⟨grown, same⟩ := (uniform_self rule state.meter).undisturbed
    exact .undisturbed ⟨grown, same.trans (unchanged_below base).2.symm⟩
  -- Whether the level is entered or refused, the store stays as it is.
  | enters body env asked =>
    obtain ⟨store, meter, control, stack⟩ := state
    obtain rfl : control = .enter body env := asked
    refine .undisturbed ?_
    simp only [State.step, Context.enterStep]
    split <;> exact ⟨.refl store, rfl⟩
  | leaves rest top _ stepped =>
    have here : state.step context = _ := step_self stepped state.meter
    refine .undisturbed ?_
    rw [here, top]
    exact ⟨.refl state.store, rfl⟩
  | starts id work asked found =>
    obtain ⟨store, meter, control, stack⟩ := state
    obtain rfl : control = .force id := asked
    -- The work goes on in a store in which the computation is under way.
    refine .starts id work rfl found ?_ ?_ <;> rw [step_force_suspended found] <;> cases work <;> rfl
  | settles id outcome rest top final _ stepped =>
    have here : state.step context = _ := step_self stepped state.meter
    exact .settles id outcome rest top final (congrArg State.store here) (congrArg State.stack here)
  | answers ending empty _ _ stepped =>
    have here : state.step context = _ := stepped state.meter
    refine .undisturbed ?_
    rw [here, empty]
    exact ⟨.refl state.store, rfl⟩

/-- One step notes the call that is to be noted, and no other. -/
theorem State.step_calls {context : Context} (state : State) :
    (state.step context).store.calls = state.store.calls ++ state.heard := by
  cases state.shape context with
  -- What such a rule notes was part of its statement; all other steps note nothing.
  | uniform below _ alone rule =>
    have here : state.step context = _ := (uniform_self rule state.meter).above
    rw [here]
    exact (uniform_self rule state.meter).noted
  | enters body env asked =>
    obtain ⟨store, meter, control, stack⟩ := state
    obtain rfl : control = .enter body env := asked
    refine Eq.trans ?_ Array.append_empty.symm
    simp only [State.step, Context.enterStep]
    split <;> rfl
  | leaves rest _ unheard stepped =>
    have here : state.step context = _ := step_self stepped state.meter
    rw [here, unheard, Array.append_empty]
  | starts id work asked found =>
    obtain ⟨store, meter, control, stack⟩ := state
    obtain rfl : control = .force id := asked
    rw [step_force_suspended found]
    refine Eq.trans ?_ Array.append_empty.symm
    cases work <;> rfl
  | settles id outcome rest _ _ unheard stepped =>
    have here : state.step context = _ := step_self stepped state.meter
    rw [here, unheard, Array.append_empty]
    rfl
  | answers ending _ unheard _ stepped =>
    have here : state.step context = _ := stepped state.meter
    rw [here, unheard, Array.append_empty]

end LazyConfig
