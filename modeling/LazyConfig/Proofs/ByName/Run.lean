import LazyConfig.Proofs.ByName.Step
import LazyConfig.Value.Data

/-!
What evaluation without a store comes to: a value, a failure, or nothing at all. What a promise
gives does not depend on what waits for it, so that a value has its data once and for all.
-/

namespace LazyConfig.ByName

variable {context : Context}

/-- Steps add up. -/
theorem run_add (first second : Nat) (state : State) :
    run context (first + second) state = run context second (run context first state) := by
  rw [run, Nat.add_comm, Function.iterate_add_apply, run, run]

/-- A run whose first step is known. -/
theorem run_succ (steps : Nat) (state : State) :
    run context (steps + 1) state = run context steps (step context state) :=
  Function.iterate_succ_apply (step context) steps state

/-- A value or a failure that nothing waits for. -/
inductive State.Final : State → Prop
  | value (value : Value) : Final ⟨.give value, []⟩
  | failure (variant : Variant) : Final ⟨.raise variant, []⟩

/-- An evaluation that has ended stays as it is. -/
theorem State.Final.run {state : State} (ended : state.Final) (steps : Nat) :
    run context steps state = state := by
  induction steps with
  | zero => rfl
  | succ steps ih =>
    rw [run_succ]
    cases ended <;> exact ih

/-- An evaluation that ends goes on to the same end from any of its states. -/
theorem run_sub {state : State} {steps : Nat} (ended : (run context steps state).Final)
    (first : Nat) : run context (steps - first) (run context first state) = run context steps state := by
  rw [← run_add]
  by_cases within : first ≤ steps
  · rw [Nat.add_sub_cancel' within]
  · -- The end was there before.
    obtain ⟨more, split⟩ := Nat.exists_eq_add_of_le (Nat.le_of_not_le within)
    rw [split, Nat.sub_eq_zero_of_le (Nat.le_add_right _ _), Nat.add_zero, run_add, ended.run]

/-- An evaluation that never ends. -/
def Diverges (context : Context) (state : State) : Prop :=
  ∀ steps, ¬ (run context steps state).Final

/-- Evaluation goes from one state to another. -/
def Reaches (context : Context) (before after : State) : Prop :=
  ∃ steps, run context steps before = after

namespace Reaches

/-- No step is needed to stay. -/
theorem refl (state : State) : Reaches context state state :=
  ⟨0, rfl⟩

/-- Evaluation goes on from where it has come. -/
theorem trans {first middle last : State} (left : Reaches context first middle)
    (right : Reaches context middle last) : Reaches context first last := by
  obtain ⟨before, rfl⟩ := left
  obtain ⟨after, rfl⟩ := right
  exact ⟨before + after, run_add before after first⟩

/-- An evaluation ends in one way only. -/
theorem unique {start first second : State} (left : Reaches context start first)
    (right : Reaches context start second) (leftEnds : first.Final) (rightEnds : second.Final) :
    first = second := by
  -- The end that comes first is still there when the other comes.
  obtain ⟨before, rfl⟩ := left
  obtain ⟨after, rfl⟩ := right
  have later : run context (before + after) start = run context before start := by
    rw [run_add, leftEnds.run]
  rw [← later, Nat.add_comm, run_add, rightEnds.run]

/-- An evaluation that ends does not go on for ever. -/
theorem not_diverges {start last : State} (reached : Reaches context start last)
    (ended : last.Final) : ¬ Diverges context start := by
  obtain ⟨steps, rfl⟩ := reached
  exact fun endless => endless steps ended

end Reaches

/-- What goes on for ever after some steps goes on for ever. -/
theorem Diverges.of_reaches {first later : State} (endless : Diverges context later)
    (reached : Reaches context first later) : Diverges context first := by
  obtain ⟨before, rfl⟩ := reached
  intro steps ended
  -- Had the run ended, then it would still be at its end some steps later.
  have stays : run context steps (run context before first) = run context steps first := by
    rw [← run_add, Nat.add_comm, run_add, ended.run]
  exact endless steps (stays ▸ ended)

/-! Evaluation above a stack that it does not look at. -/

/--
Work that is done above any stack goes on to other work above that stack, after at least one step.
-/
def Leads (context : Context) (control : Control) (frames : List Frame) (later : Control)
    (laterFrames : List Frame) : Prop :=
  ∃ steps, ∀ stack, run context (steps + 1) ⟨control, frames ++ stack⟩ = ⟨later, laterFrames ++ stack⟩

/-- A promise gives a value to whatever waits for it. -/
def Gives (context : Context) (promise : Promise) (value : Value) : Prop :=
  Leads context (.force promise) [] (.give value) []

/-- Work above a stack, as an evaluation. -/
theorem Leads.reaches {control later : Control} {frames laterFrames : List Frame}
    (leads : Leads context control frames later laterFrames) (stack : List Frame) :
    Reaches context ⟨control, frames ++ stack⟩ ⟨later, laterFrames ++ stack⟩ := by
  obtain ⟨steps, run⟩ := leads
  exact ⟨steps + 1, run stack⟩

/-- Work above a stack goes on to what comes after it. -/
theorem Leads.trans {first middle last : Control} {frames middleFrames lastFrames : List Frame}
    (left : Leads context first frames middle middleFrames)
    (right : Leads context middle middleFrames last lastFrames) :
    Leads context first frames last lastFrames := by
  obtain ⟨before, before_run⟩ := left
  obtain ⟨after, after_run⟩ := right
  refine ⟨before + 1 + after, fun stack => ?_⟩
  rw [Nat.add_assoc, run_add, before_run stack, after_run stack]

/-- Work above a stack, with more frames below it. -/
theorem Leads.above {control later : Control} {frames laterFrames : List Frame}
    (leads : Leads context control frames later laterFrames) (below : List Frame) :
    Leads context control (frames ++ below) later (laterFrames ++ below) := by
  obtain ⟨steps, run⟩ := leads
  refine ⟨steps, fun stack => ?_⟩
  rw [List.append_assoc, List.append_assoc, run]

/-- One step is enough to show where work goes on. -/
theorem Leads.of_step {control : Control} {frames : List Frame} (turn : Turn)
    (moved : ∀ stack, step context ⟨control, frames ++ stack⟩ = turn.onto stack) :
    Leads context control frames turn.control turn.frames :=
  ⟨0, moved⟩

/-- Work that comes back to itself goes on for ever. -/
theorem Leads.diverges {control : Control} {frames : List Frame}
    (leads : Leads context control [] control frames) (stack : List Frame) (unfinished :
      ∀ stack : List Frame, ¬ State.Final ⟨control, stack⟩) :
    Diverges context ⟨control, stack⟩ := by
  -- After each round the same work stands above a stack that has grown.
  obtain ⟨steps, run_round⟩ := leads
  have rounds : ∀ count, ∃ grown, run context (count * (steps + 1)) ⟨control, stack⟩ =
      ⟨control, grown⟩ := by
    intro count
    induction count with
    | zero => exact ⟨stack, by simp [run]⟩
    | succ count ih =>
      obtain ⟨grown, reached⟩ := ih
      exact ⟨frames ++ grown, by rw [Nat.succ_mul, run_add, reached]; exact run_round grown⟩
  intro count ended
  obtain ⟨grown, reached⟩ := rounds (count + 1)
  -- So many rounds take at least as many steps, and an end would not go on to a further round.
  have enough : count ≤ (count + 1) * (steps + 1) :=
    Nat.le_trans (Nat.le_succ count) (Nat.le_mul_of_pos_right _ (Nat.succ_pos steps))
  obtain ⟨more, split⟩ := Nat.exists_eq_add_of_le enough
  rw [split, run_add, ended.run] at reached
  exact unfinished grown (reached ▸ ended)

/-- A promise gives one value only. -/
theorem Gives.unique {promise : Promise} {first second : Value}
    (left : Gives context promise first) (right : Gives context promise second) :
    first = second := by
  -- Above the empty stack, both values are ends of the same run.
  have same := (left.reaches []).unique (right.reaches []) (.value first) (.value second)
  simpa using same

/-! The data of values. -/

mutual

/-- A value, with the values of all its parts. -/
inductive Value.Holds (context : Context) : Value → Data → Prop
  | int (value : Int64) : Value.Holds context (.int value) (.int value)
  | float (value : Float) : Value.Holds context (.float value) (.float value)
  | bool (value : Bool) : Value.Holds context (.bool value) (.bool value)
  | str (text : String) : Value.Holds context (.str text) (.str text)
  | list {items : List Segment} {parts : List Data} (yields : Yields context items parts) :
    Value.Holds context (.list items) (.list parts)
  | record {fields : Fields} {parts : List (String × Data)}
    (hold : FieldsHold context fields parts) : Value.Holds context (.record fields) (.record parts)
  | closure (param : Name) (body : ExprId) (env : Env) :
    Value.Holds context (.closure param body env) .closure
  | builtin (op : Builtin) (held : List Promise) :
    Value.Holds context (.builtin op held) (.builtin op held.length (op.arity - held.length))

/-- The elements of a list. -/
inductive Yields (context : Context) : List Segment → List Data → Prop
  | nil : Yields context [] []
  | item {promise : Promise} {value : Value} {part : Data} {rest : List Segment}
    {parts : List Data} (gives : Gives context promise value) (holds : Value.Holds context value part)
    (others : Yields context rest parts) :
    Yields context (.item promise :: rest) (part :: parts)
  | range {next stop : Int64} {rest : List Segment} {parts : List Data}
    (others : Yields context (Segment.span (next + 1) stop ++ rest) parts) :
    Yields context (.range next stop :: rest) (.int next :: parts)
  | joint {right : Promise} {items rest : List Segment} {parts : List Data}
    (gives : Gives context right (.list items)) (others : Yields context (items ++ rest) parts) :
    Yields context (.joint right :: rest) parts

/-- The fields of a record. -/
inductive FieldsHold (context : Context) : Fields → List (String × Data) → Prop
  | nil : FieldsHold context [] []
  | cons {name : String} {promise : Promise} {value : Value} {part : Data} {rest : Fields}
    {parts : List (String × Data)} (gives : Gives context promise value)
    (holds : Value.Holds context value part) (others : FieldsHold context rest parts) :
    FieldsHold context ((name, promise) :: rest) ((name, part) :: parts)

end

mutual

/-- A value has one tree of data only. -/
theorem Value.Holds.unique {value : Value} {first second : Data} :
    value.Holds context first → value.Holds context second → first = second
  | .int _, .int _ => rfl
  | .float _, .float _ => rfl
  | .bool _, .bool _ => rfl
  | .str _, .str _ => rfl
  | .list left, .list right => congrArg Data.list (left.unique right)
  | .record left, .record right => congrArg Data.record (left.unique right)
  | .closure _ _ _, .closure _ _ _ => rfl
  | .builtin _ _, .builtin _ _ => rfl

/-- A list has one sequence of elements only. -/
theorem Yields.unique {items : List Segment} {first second : List Data} :
    Yields context items first → Yields context items second → first = second
  | .nil, .nil => rfl
  | .item gives holds others, .item gives' holds' others' => by
    obtain rfl := gives.unique gives'
    rw [holds.unique holds', others.unique others']
  | .range others, .range others' => by rw [others.unique others']
  | .joint gives others, .joint gives' others' => by
    obtain rfl : _ = _ := by simpa using gives.unique gives'
    exact others.unique others'

/-- A record has one value for each field only. -/
theorem FieldsHold.unique {fields : Fields} {first second : List (String × Data)} :
    FieldsHold context fields first → FieldsHold context fields second → first = second
  | .nil, .nil => rfl
  | .cons gives holds others, .cons gives' holds' others' => by
    obtain rfl := gives.unique gives'
    rw [holds.unique holds', others.unique others']

end

end LazyConfig.ByName
