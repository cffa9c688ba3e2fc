import LazyConfig.Proofs.ByName.Adequacy
import LazyConfig.Proofs.Machine.Limit

/-!
Evaluators that put off expressions in another way. All their rules are those of the evaluator, except that
arguments, elements, fields and right parts of joins are put off as a policy says.
-/

namespace LazyConfig

/-- A way to put off the evaluation of an expression. -/
abbrev Policy :=
  Store → ExprId → Env → ThunkId × Store

namespace Policy

/-- Every expression is put off, whatever it is. -/
def plain : Policy :=
  fun store id env => store.suspend (.expr id env)

/-- Puts off several expressions, from left to right. -/
def putAll (policy : Policy) (env : Env) : List ExprId → Store → List ThunkId × Store
  | [], store => ([], store)
  | id :: rest, store =>
    let (first, store) := policy store id env
    let (others, store) := policy.putAll env rest store
    (first :: others, store)

end Policy

namespace Context

/-- Puts off the fields of a record literal, each with the check that its annotation asks for. -/
def putFields (context : Context) (policy : Policy) (env : Env) :
    List Field → Record → Store → Except Fault Record × Store
  | [], record, store => (.ok record, store)
  | field :: rest, record, store =>
    let name := context.names.lookup field.name
    let (value, store) := policy store field.value env
    let checked : Option (ThunkId × Store) :=
      match field.type with
      | none => some (value, store)
      | some type =>
        (context.annotations.get? type).map fun type =>
          store.suspend (.check value type (Path.root.field name))
    match checked with
    | none => (.error .unresolvedType, store)
    | some (value, store) =>
      if record.contains name then (.error (.duplicateField name), store)
      else context.putFields policy env rest (record.insert name value) store

/-- A primitive holds the arguments that it is written with, and runs once it has all of them. -/
def heldBy (policy : Policy) (store : Store) (meter : DepthMeter) (op : Builtin) (args : List ExprId)
    (env : Env) (stack : List Frame) : State :=
  if op.arity < args.length then ⟨store, meter, .fail (.tooManyArguments op args.length), stack⟩
  else
    let (held, store) := policy.putAll env args store
    if held.length < op.arity then ⟨store, meter, .give (.builtin op held), stack⟩
    else ⟨store, meter, .run op held, stack⟩

/-- Evaluates an expression; its parts are put off as the policy says. -/
def evalStepBy (context : Context) (policy : Policy) (store : Store) (meter : DepthMeter) (id : ExprId)
    (env : Env) (stack : List Frame) : State :=
  match context.code.expr id with
  | .list items =>
    let (ids, store) := policy.putAll env items store
    ⟨store, meter, .give (.list (.ofThunks ids)), stack⟩
  | .record fields =>
    let (record, store) := context.putFields policy env fields .empty store
    ⟨store, meter, .ofResult (record.map .record), stack⟩
  | .builtin op args =>
    match op, args with
    -- Nothing is put off where both operands of a sequence are at hand.
    | .seq, [_, _] | .deepSeq, [_, _] => context.evalStep store meter id env stack
    | op, args => heldBy policy store meter op args env stack
  | _ => context.evalStep store meter id env stack

/-- Gives a value to the frame that waits for it; what is put off then is put off as the policy says. -/
def giveStepBy (context : Context) (policy : Policy) (store : Store) (meter : DepthMeter) (value : Value)
    (frame : Frame) (stack : List Frame) : State :=
  match frame with
  | .operand arg env =>
    let (id, store) := policy store arg env
    match value with
    | .closure function =>
      ⟨store, meter, .eval function.body (function.env.bind function.param id), stack⟩
    | other => ⟨store, meter, .apply other id, stack⟩
  | .concatLeft right env =>
    match value with
    | .list items =>
      let (id, store) := policy store right env
      ⟨store, meter, .give (.list (.concat items id)), stack⟩
    | other => ⟨store, meter, .fail (.notAList .concatLeft other.kind), stack⟩
  | frame => context.giveStep store meter value frame stack

end Context

/-- One step of the evaluator that puts off expressions as a policy says. -/
def State.stepBy (policy : Policy) (context : Context) (state : State) : State :=
  match state.control, state.stack with
  | .eval body env, stack => context.evalStepBy policy state.store state.meter body env stack
  | .give value, frame :: rest => context.giveStepBy policy state.store state.meter value frame rest
  | _, _ => state.step context

/-- At most a given number of steps of the evaluator that puts off expressions as a policy says. -/
def State.runBy (policy : Policy) (context : Context) : Nat → State → State
  | 0, state => state
  | steps + 1, state =>
    match state.control with
    | .done _ => state
    | _ => runBy policy context steps (state.stepBy policy context)

/-! The evaluator itself puts off expressions in its own way. -/

namespace Context

variable (context : Context) (store : Store) (meter : DepthMeter) (stack : List Frame)

theorem putAll_suspend (env : Env) (ids : List ExprId) (store : Store) :
    Policy.putAll context.suspend env ids store = context.suspendAll env ids store := by
  induction ids generalizing store with
  | nil => rfl
  | cons id rest ih => simp only [Policy.putAll, suspendAll, ih]

theorem putFields_suspend (env : Env) (fields : List Field) (record : Record) (store : Store) :
    context.putFields context.suspend env fields record store =
      -- Both definitions go through the fields in the same order, each with the same check around a
      -- field.
      context.suspendFields env fields record store := by
  induction fields generalizing record store with
  | nil => rfl
  | cons field rest ih =>
    simp only [putFields, suspendFields, ih]
    all_goals rfl

theorem evalStepBy_suspend (id : ExprId) (env : Env) :
    context.evalStepBy context.suspend store meter id env stack =
      context.evalStep store meter id env stack := by
  -- Only the rules for lists, records and primitives put off parts themselves.
  unfold evalStepBy
  split
  · rename_i items node
    simp only [evalStep, node, putAll_suspend]
  · rename_i fields node
    simp only [evalStep, node, putFields_suspend]
  · rename_i op args node
    split
    · rfl
    · rfl
    · simp only [evalStep, node, heldBy, putAll_suspend]
  · rfl

theorem giveStepBy_suspend (value : Value) (frame : Frame) :
    context.giveStepBy context.suspend store meter value frame stack =
      context.giveStep store meter value frame stack := by
  unfold giveStepBy
  split <;> rfl

end Context

/-- With its own way to put off expressions, the evaluator is itself. -/
theorem State.stepBy_suspend (context : Context) (state : State) :
    state.stepBy context.suspend context = state.step context := by
  obtain ⟨store, meter, control, stack⟩ := state
  -- Only evaluating an expression and giving a value to a frame ask the policy.
  cases control with
  | eval body env => exact context.evalStepBy_suspend store meter stack body env
  | give value =>
    cases stack with
    | nil => rfl
    | cons frame rest => exact context.giveStepBy_suspend store meter rest value frame
  | _ => rfl

/-- A run that has not ended takes its first step. -/
theorem State.runBy_succ (policy : Policy) {context : Context} {state : State} (unfinished : ¬ state.Ended)
    (steps : Nat) :
    state.runBy policy context (steps + 1) = (state.stepBy policy context).runBy policy context steps := by
  simp only [runBy]
  split
  · rename_i ending done
    exact absurd ⟨ending, done⟩ unfinished
  · rfl

theorem State.runBy_suspend (context : Context) (steps : Nat) (state : State) :
    state.runBy context.suspend context steps = state.run context steps := by
  -- Each step is the same, so the runs stay together until both have ended or are out of steps.
  induction steps generalizing state with
  | zero => rfl
  | succ steps ih =>
    simp only [runBy, run, stepBy_suspend, ih]
    all_goals rfl

/-- Carries out a request for a value, putting off expressions as a policy says. -/
def Evaluator.performBy (policy : Policy) (evaluator : Evaluator) (fuel : Nat) (request : Request)
    (store : Store) : Option (Reply Value) :=
  ((evaluator.start request store).runBy policy evaluator.context fuel).reply?

theorem Evaluator.performBy_suspend (evaluator : Evaluator) (fuel : Nat) (request : Request) (store : Store) :
    evaluator.performBy evaluator.context.suspend fuel request store =
      evaluator.perform fuel request store :=
  congrArg State.reply? (State.runBy_suspend evaluator.context fuel (evaluator.start request store))

/-- Evaluates a program without functions of the host, putting off every expression as it is. -/
def Program.evaluatePlainly (program : Program) (settings : Settings) (annotations : Annotations)
    (fuel : Nat) : Option (Reply Value) :=
  Evaluator.performBy .plain ⟨program.context annotations, settings⟩ fuel (.evaluate program.root {}) {}

end LazyConfig
