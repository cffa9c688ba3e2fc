import LazyConfig.Machine.Step
import LazyConfig.Proofs.Store.Noted

/-!
What the rules of the evaluator have in common. Apart from those that begin and end a level and those that start
and settle a computation, a rule is the same on every level and above all frames: it passes its meter on, puts
frames on the stack that only wait for values, and adds computations to the store.
-/

namespace LazyConfig

/-- Whether a frame only waits, and neither leaves a level nor settles a computation. -/
def Frame.isPlain : Frame → Bool
  | .leave | .update _ => false
  | _ => true

/-- A frame that does not only wait leaves a level or settles a computation. -/
theorem Frame.eq_of_not_isPlain {frame : Frame} (special : frame.isPlain = false) :
    frame = .leave ∨ ∃ id, frame = .update id := by
  cases frame with
  | leave => exact .inl rfl
  | update id => exact .inr ⟨id, rfl⟩
  | _ => cases special

namespace State

/-- A state with more frames below those that it has. -/
def onto (state : State) (stack : List Frame) : State :=
  { state with stack := state.stack ++ stack }

/-- Frames are put below one after the other. -/
theorem onto_onto (state : State) (first second : List Frame) :
    (state.onto first).onto second = state.onto (first ++ second) := by
  simp [onto]

/-- No more frames are none. -/
@[simp] theorem onto_nil (state : State) : state.onto [] = state := by
  simp [onto]

/-- The same state with another meter. -/
def metered (state : State) (meter : DepthMeter) : State :=
  { state with meter }

/-- The call that is noted in the next step, if there is one. -/
def heard (state : State) : Array HostCall :=
  match state.control, state.stack with
  | .give value, .hostArgument function :: _ => #[⟨function.name, state.store.quoted value⟩]
  | _, _ => #[]

end State

/--
What a rule comes to from a store on some level and above some frames, after what it comes to on another level and
above none. Both differ in the meter and in those frames only, all that is there is left as it is, and the calls
noted are as given.
-/
structure Uniform (store : Store) (calls : Array HostCall) (meter : DepthMeter) (stack : List Frame)
    (after alone : State) : Prop where
  above : after = (alone.metered meter).onto stack
  plain : alone.stack.all Frame.isPlain = true
  grown : store.Extends alone.store
  noted : alone.store.calls = calls

/-- A rule may be taken in a store to which something was added before. -/
theorem Uniform.of_extends {store middle : Store} {calls : Array HostCall} {meter : DepthMeter}
    {stack : List Frame} {after alone : State} (added : store.Extends middle)
    (uniform : Uniform middle calls meter stack after alone) : Uniform store calls meter stack after alone :=
  { uniform with grown := added.trans uniform.grown }

namespace Context

variable (context : Context) (graph : TypeGraph) (store : Store) (meter other : DepthMeter)
  (stack : List Frame)

/-- Evaluating an expression. -/
theorem evalStep_uniform (id : ExprId) (env : Env) :
    Uniform store store.calls meter stack (context.evalStep store meter id env stack)
      (context.evalStep store other id env []) := by
  -- Parts are put off or evaluated first; either way nothing that is there changes.
  unfold evalStep
  cases context.code.expr id with
  | ident name =>
    dsimp only
    split <;> exact ⟨rfl, rfl, .refl store, rfl⟩
  | lambda param body => exact ⟨rfl, rfl, store.closure_extends param body env, rfl⟩
  | letIn name value body =>
    exact ⟨rfl, rfl, bindRecursive_extends store env name value, bindRecursive_calls store env name value⟩
  | binary op left right => cases op <;> exact ⟨rfl, rfl, .refl store, rfl⟩
  | list items =>
    exact ⟨rfl, rfl, context.suspendAll_extends env items store, context.suspendAll_calls env items store⟩
  | record fields =>
    exact ⟨rfl, rfl, context.suspendFields_extends env fields .empty store,
      context.suspendFields_calls env fields .empty store⟩
  | builtin op args =>
    have grown := context.suspendAll_extends env args store
    have noted := context.suspendAll_calls env args store
    dsimp only
    split
    · exact ⟨rfl, rfl, .refl store, rfl⟩
    · exact ⟨rfl, rfl, .refl store, rfl⟩
    · split
      · exact ⟨rfl, rfl, .refl store, rfl⟩
      · split <;> exact ⟨rfl, rfl, grown, noted⟩
  | ascribe value type =>
    dsimp only
    split <;> exact ⟨rfl, rfl, .refl store, rfl⟩
  | _ => exact ⟨rfl, rfl, .refl store, rfl⟩

/-- Applying a value. -/
theorem applyStep_uniform (func : Value) (arg : ThunkId) :
    Uniform store store.calls meter stack (applyStep store meter func arg stack)
      (applyStep store other func arg []) := by
  unfold applyStep
  split
  · exact ⟨rfl, rfl, .refl store, rfl⟩
  · dsimp only
    split <;> exact ⟨rfl, rfl, .refl store, rfl⟩
  · exact ⟨rfl, rfl, .refl store, rfl⟩
  · exact ⟨rfl, rfl, .refl store, rfl⟩

/-- Running a primitive. -/
theorem runStep_uniform (op : Builtin) (args : List ThunkId) :
    Uniform store store.calls meter stack (runStep store meter op args stack)
      (runStep store other op args []) := by
  unfold runStep
  split <;> exact ⟨rfl, rfl, .refl store, rfl⟩

/-- Applying a strict operator. -/
theorem operateStep_uniform (op : BinaryOp) (left right : Value) :
    Uniform store store.calls meter stack (operateStep store meter op left right stack)
      (operateStep store other op left right []) := by
  -- Only a join of lists adds a computation, for its right part.
  cases op with
  | concat =>
    cases left with
    | list items => exact ⟨rfl, rfl, store.ready_extends right, rfl⟩
    | _ => exact ⟨rfl, rfl, .refl store, rfl⟩
  | append | and | or => simp only [operateStep]; split <;> exact ⟨rfl, rfl, .refl store, rfl⟩
  | _ => exact ⟨rfl, rfl, .refl store, rfl⟩

/-- Handing an element, or the end of a list, to a consumer. -/
theorem consumeStep_uniform (consumer : Consumer) (item : Option ThunkId) (rest : Cursor) :
    Uniform store store.calls meter stack (consumeStep graph store meter consumer item rest stack)
      (consumeStep graph store other consumer item rest []) := by
  -- Only a checked list adds computations, for its next part.
  cases consumer with
  | checkCell elem path index =>
    cases item with
    | none => exact ⟨rfl, rfl, .refl store, rfl⟩
    | some head =>
      exact ⟨rfl, rfl, store.checkCell_extends graph head rest.rest elem path index,
        store.checkCell_calls graph head rest.rest elem path index⟩
  | count passed =>
    cases item with
    | none => simp only [consumeStep]; split <;> exact ⟨rfl, rfl, .refl store, rfl⟩
    | some id => exact ⟨rfl, rfl, .refl store, rfl⟩
  | elemAt list index ahead => cases item <;> cases ahead <;> exact ⟨rfl, rfl, .refl store, rfl⟩
  | compareRight left lefts work => cases item <;> cases left <;> exact ⟨rfl, rfl, .refl store, rfl⟩
  | _ => cases item <;> exact ⟨rfl, rfl, .refl store, rfl⟩

/-- Going on with a right part that waits. -/
theorem crossStep_uniform (pending : List ThunkId) (consumer : Consumer) :
    Uniform store store.calls meter stack (crossStep graph store meter pending consumer stack)
      (crossStep graph store other pending consumer []) := by
  cases pending with
  | nil => exact consumeStep_uniform graph store meter other stack consumer none _
  | cons right rest => exact ⟨rfl, rfl, .refl store, rfl⟩

/-- Taking a step along a list. -/
theorem advanceStep_uniform (cursor : Cursor) (consumer : Consumer) :
    Uniform store store.calls meter stack (advanceStep graph store meter cursor consumer stack)
      (advanceStep graph store other cursor consumer []) := by
  obtain ⟨front, pending⟩ := cursor
  cases front with
  | elems items start =>
    simp only [advanceStep]
    split
    · exact consumeStep_uniform graph store meter other stack consumer _ _
    · exact crossStep_uniform graph store meter other stack pending consumer
  | range next stop =>
    simp only [advanceStep]
    split
    · -- An integer of a range gets a place when it is passed.
      exact .of_extends (store.ready_extends (.int next))
        (consumeStep_uniform graph (store.ready (.int next)).2 meter other stack consumer _ _)
    · exact crossStep_uniform graph store meter other stack pending consumer
  | concat left right => exact ⟨rfl, rfl, .refl store, rfl⟩

/-- Taking up a value to evaluate all its parts. -/
theorem deepenStep_uniform (work : List Value) (whole : Value) :
    Uniform store store.calls meter stack (deepenStep store meter work whole stack)
      (deepenStep store other work whole []) := by
  unfold deepenStep
  split <;> exact ⟨rfl, rfl, .refl store, rfl⟩

/-- Comparing two values. -/
theorem compareStep_uniform (work : List (Value × Value)) :
    Uniform store store.calls meter stack (compareStep store meter work stack)
      (compareStep store other work []) := by
  unfold compareStep
  dsimp only
  split
  -- Records differ at once where their names do.
  case h_6 => split <;> exact ⟨rfl, rfl, .refl store, rfl⟩
  -- What is left are numbers, functions and values of different kinds.
  case h_7 =>
    split
    · exact ⟨rfl, rfl, .refl store, rfl⟩
    · split <;> exact ⟨rfl, rfl, .refl store, rfl⟩
  all_goals exact ⟨rfl, rfl, .refl store, rfl⟩

/-- A function of the host notes its call, whatever it answers. -/
theorem answerStep_uniform (function : HostFunction) (value : Value) (shown : String) :
    Uniform store (store.calls.push ⟨function.name, shown⟩) meter stack
      (answerStep store meter function value shown stack) (answerStep store other function value shown []) := by
  have grown := store.record_extends ⟨function.name, shown⟩
  unfold answerStep
  cases function.response with
  | singleton => exact ⟨rfl, rfl, grown.trans (Store.ready_extends _ value), rfl⟩
  | _ => exact ⟨rfl, rfl, grown, rfl⟩

/-- Giving a value to a frame that only waits. A call is noted where the frame is one of a function of the host. -/
theorem giveStep_uniform (value : Value) {frame : Frame} (plain : frame.isPlain = true) (rest : List Frame) :
    Uniform store (store.calls ++ State.heard ⟨store, other, .give value, frame :: rest⟩) meter stack
      (context.giveStep store meter value frame stack) (context.giveStep store other value frame []) := by
  have quiet {after : Store} (same : after.calls = store.calls) : after.calls = store.calls ++ #[] := by
    rw [same, Array.append_empty]
  cases frame with
  | leave => cases plain
  | update id => cases plain
  | hostArgument function => exact answerStep_uniform store meter other stack function value _
  -- These five add to the store.
  | operand arg env =>
    have grown := context.suspend_extends store arg env
    have noted := quiet (context.suspend_calls store arg env)
    cases value <;> exact ⟨rfl, rfl, grown, noted⟩
  | concatLeft right env =>
    cases value with
    | list items =>
      exact ⟨rfl, rfl, context.suspend_extends store right env, quiet (context.suspend_calls store right env)⟩
    | _ => exact ⟨rfl, rfl, .refl store, quiet rfl⟩
  | mapOver func =>
    cases value with
    | record fields =>
      exact ⟨rfl, rfl, store.mapFields_extends func fields, quiet (store.mapFields_calls func fields)⟩
    | _ => exact ⟨rfl, rfl, .refl store, quiet rfl⟩
  | fieldNames =>
    cases value with
    | record fields => exact ⟨rfl, rfl, store.fieldsOf_extends fields, quiet (store.fieldsOf_calls fields)⟩
    | _ => exact ⟨rfl, rfl, .refl store, quiet rfl⟩
  | ascribe type path =>
    exact ⟨rfl, rfl, store.check_extends _ _ value type path, quiet (store.check_calls _ _ value type path)⟩
  -- All others leave it as it is.
  | args others => cases others <;> exact ⟨rfl, rfl, .refl store, quiet rfl⟩
  | logicLeft op right env =>
    cases value with
    | bool left => simp only [giveStep]; split <;> exact ⟨rfl, rfl, .refl store, quiet rfl⟩
    | _ => exact ⟨rfl, rfl, .refl store, quiet rfl⟩
  | select name =>
    cases value with
    | record fields => simp only [giveStep]; split <;> exact ⟨rfl, rfl, .refl store, quiet rfl⟩
    | _ => exact ⟨rfl, rfl, .refl store, quiet rfl⟩
  | index list =>
    simp only [giveStep]
    split
    · split <;> exact ⟨rfl, rfl, .refl store, quiet rfl⟩
    · exact ⟨rfl, rfl, .refl store, quiet rfl⟩
  | bound => simp only [giveStep]; split <;> exact ⟨rfl, rfl, .refl store, quiet rfl⟩
  | _ =>
    first
    | exact ⟨rfl, rfl, .refl store, quiet rfl⟩
    | (cases value <;> exact ⟨rfl, rfl, .refl store, quiet rfl⟩)

/-- Passing a failure up past a frame that only waits. -/
theorem raiseStep_uniform (upset : Upset) {frame : Frame} (plain : frame.isPlain = true) :
    Uniform store store.calls meter stack (context.raiseStep store meter upset frame stack)
      (context.raiseStep store other upset frame []) := by
  cases frame with
  | leave => cases plain
  | update id => cases plain
  -- Only a walk for a report ends the evaluation, and it does so above any frames.
  | spine pending consumer => cases consumer <;> exact ⟨rfl, rfl, .refl store, rfl⟩
  | _ => exact ⟨rfl, rfl, .refl store, rfl⟩

end Context

end LazyConfig
