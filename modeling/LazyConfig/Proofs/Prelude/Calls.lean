import LazyConfig.Proofs.Prelude.Members

/-!
Calls of a function that a variable stands for. The function is asked for and then applied to one argument
after another, each of which is put off; where that happens in the code does not matter.
-/

namespace LazyConfig

/-- An argument of a call: a computation that is there, or work that is put off for the call. -/
inductive Operand
  | shared (id : ThunkId)
  | putOff (work : Suspension)

/-- The computation for an argument. -/
def Operand.place (store : Store) : Operand → ThunkId × Store
  | shared id => (id, store)
  | putOff work => store.suspend work

/-- A function is asked for and applied to arguments from left to right, until something goes wrong. -/
inductive Applies (context : Context) (meter : DepthMeter) (func : ThunkId) :
    Store → List Operand → Outcome → Store → Prop
  | func {store after : Store} {outcome : Outcome}
    (brings : Brings context meter store (.force func) outcome after) :
    Applies context meter func store [] outcome after
  | fails {store after : Store} {args : List Operand} {upset : Upset}
    (applies : Applies context meter func store args (.error upset) after) (arg : Operand) :
    Applies context meter func store (args ++ [arg]) (.error upset) after
  | next {store middle after : Store} {args : List Operand} {arg : Operand} {value : Value}
    {outcome : Outcome} (applies : Applies context meter func store args (.ok value) middle)
    (brings : Brings context meter (arg.place middle).2 (.apply value (arg.place middle).1) outcome after) :
    Applies context meter func store (args ++ [arg]) outcome after

/-- An expression that calls a function with arguments. -/
inductive Context.Calls (context : Context) (env : Env) (func : ThunkId) : ExprId → List Operand → Prop
  | func {id : ExprId} {text : String} (reads : context.Reads (.var text) id)
    (binds : context.Binds env text func) : Calls context env func id []
  | apply {id left right : ExprId} {args : List Operand} {arg : Operand}
    (node : context.code.expr id = .apply left right) (calls : Calls context env func left args)
    (put : ∀ store, context.suspend store right env = arg.place store) :
    Calls context env func id (args ++ [arg])

variable {context : Context} {meter : DepthMeter} {room : Nat} {store after : Store} {env : Env}
  {func held : ThunkId} {id : ExprId} {args : List Operand} {arg : Operand} {value : Value}
  {outcome : Outcome}

namespace Applies

/-- Without arguments the function is only asked for. -/
theorem of_nil (applies : Applies context meter func store [] outcome after) :
    Brings context meter store (.force func) outcome after := by
  generalize none : [] = args at applies
  cases applies with
  | func brings => exact brings
  | fails | next => simp at none

/-- With one more argument, what the others give is applied to it. -/
theorem of_append (applies : Applies context meter func store (args ++ [arg]) outcome after) :
    (∃ upset, outcome = .error upset ∧ Applies context meter func store args (.error upset) after) ∨
      ∃ value middle, Applies context meter func store args (.ok value) middle ∧
        Brings context meter (arg.place middle).2 (.apply value (arg.place middle).1) outcome after := by
  generalize all : args ++ [arg] = others at applies
  cases applies with
  | func brings => simp at all
  | fails applies last =>
    obtain ⟨rfl, -⟩ := List.append_inj' all rfl
    exact .inl ⟨_, rfl, applies⟩
  | next applies brings =>
    obtain ⟨rfl, same⟩ := List.append_inj' all rfl
    obtain rfl := List.singleton_inj.mp same
    exact .inr ⟨_, _, applies, brings⟩

end Applies

/-- Any other value than a function of the language is applied by a step of its own. -/
theorem step_operand (other : ∀ function, value ≠ .closure function) {middle : Store} {right : ExprId}
    (put : context.suspend middle right env = (held, store)) (stack : List Frame) :
    State.step context ⟨middle, meter, .give value, .operand right env :: stack⟩ =
      ⟨store, meter, .apply value held, stack⟩ := by
  cases value with
  | closure function => exact absurd rfl (other function)
  | _ => simp [State.step, Context.giveStep, put]

/-- What a value applied to an argument comes to, the application in a call comes to as well. -/
theorem Brings.operand (brings : Brings context ⟨room, 0⟩ store (.apply value held) outcome after)
    (fits : outcome.Fits room) (enough : meter.current + room ≤ meter.limit) {middle : Store}
    {right : ExprId} (put : context.suspend middle right env = (held, store)) :
    State.GoesTo context ⟨middle, meter, .give value, [.operand right env]⟩
      ⟨after, meter, .passing outcome, []⟩ := by
  by_cases closure : ∃ function, value = .closure function
  · obtain ⟨function, rfl⟩ := closure
    -- The body is evaluated on the level of the call, with one level less than where it is entered.
    have entered : Brings context ⟨room, 0⟩ store
        (.enter function.body (function.env.bind function.param held)) outcome after :=
      brings.of_step (Control.busy rfl)
    obtain ⟨inside, body⟩ := entered.of_enter fits
    refine .step ?_ (body.shift fits (by simp only [DepthMeter.below]; omega))
    simp [State.step, Context.giveStep, put]
  · have levels : room + meter.current ≤ meter.limit + 0 := by omega
    exact .step (step_operand (not_exists.mp closure) put []) (brings.shift fits levels)

namespace Context.Calls

/-- A call comes to what the function applied to the arguments comes to, where there are levels enough. -/
theorem brings (calls : context.Calls env func id args)
    (applies : Applies context ⟨room, 0⟩ func store args outcome after) (fits : outcome.Fits room)
    (enough : meter.current + args.length + room ≤ meter.limit) :
    Brings context meter store (.eval id env) outcome after := by
  -- By induction on the call: its last argument is put off after the operator has come to a
  -- function.
  induction calls generalizing meter store outcome after with
  | func reads binds =>
    refine .step (reads.step_var binds []) (applies.of_nil.shift fits ?_)
    simpa [Nat.add_comm] using enough
  | @apply id left right args arg node calls put ih =>
    simp only [List.length_append, List.length_singleton] at enough
    have asked : State.step context ⟨store, meter, .eval id env, []⟩ =
        ⟨store, meter, .enter left env, [.operand right env]⟩ := by
      simp [State.step, Context.evalStep, node]
    have deeper : (meter.below 1).current + args.length + room ≤ (meter.below 1).limit := by
      simp only [DepthMeter.below]
      omega
    refine .step asked ?_
    rcases applies.of_append with ⟨upset, rfl, others⟩ | ⟨value, middle, others, brings⟩
    · have fails := ih others fits deeper
      exact ((Brings.enter (by omega) fails).above _).trans (.step rfl (.refl _))
    · have gives := ih others (Outcome.fits_ok value room) deeper
      exact ((Brings.enter (by omega) gives).above _).trans (brings.operand fits (by omega) (put middle))

/-- What a call comes to, the function applied to the arguments comes to. -/
theorem applies (calls : context.Calls env func id args)
    (brings : Brings context meter store (.eval id env) outcome after) (fits : outcome.Fits meter.limit)
    (enough : meter.limit < room) :
    Applies context ⟨room, 0⟩ func store args outcome after := by
  -- The same induction, from the end of a run back to the outcomes of its parts.
  induction calls generalizing meter store outcome after with
  | func reads binds =>
    have forces := brings.of_step (Control.busy rfl)
    rw [reads.step_var binds] at forces
    have forces : Brings context meter store (.force func) outcome after := forces
    exact .func (forces.shift fits (by simp only; omega))
  | @apply id left right args arg node calls put ih =>
    obtain ⟨steps, reached⟩ := brings.of_step (Control.busy rfl)
    have asked : State.step context ⟨store, meter, .eval id env, []⟩ =
        ⟨store, meter, .enter left env, [.operand right env]⟩ := by
      simp [State.step, Context.evalStep, node]
    rw [asked] at reached
    -- The operator comes to an outcome first.
    obtain ⟨found, middle, operator, more, -, rest⟩ := brings_then (reached.symm ▸ State.hands_passing)
    rw [reached] at rest
    cases found with
    | error upset =>
      have raised : Brings context meter middle (.raise upset) outcome after := ⟨more, rest⟩
      have own : Brings context meter middle (.raise upset) (.error upset) middle := .refl _
      obtain ⟨rfl, rfl⟩ := raised.unique own
      exact .fails (ih (operator.of_enter fits).2 fits enough) arg
    | ok value =>
      have gives := ih (operator.of_enter (Outcome.fits_ok value _)).2 (Outcome.fits_ok value _) enough
      refine .next gives ?_
      -- A closure is entered with its argument bound; any other value is applied.
      by_cases closure : ∃ function, value = .closure function
      · obtain ⟨function, rfl⟩ := closure
        have applied : Brings context meter (arg.place middle).2
            (.eval function.body (function.env.bind function.param (arg.place middle).1)) outcome after := by
          refine ⟨more, Eq.trans (congrArg _ ?_) rest⟩
          simp [State.step, Control.passing, Context.giveStep, put]
        have body := @Brings.shift _ _ _ _ _ _ ((⟨room, 0⟩ : DepthMeter).below 1) applied fits
          (by simp only [DepthMeter.below]; omega)
        exact .step rfl (body.enter (by simp only; omega))
      · have applied : Brings context meter (arg.place middle).2 (.apply value (arg.place middle).1) outcome
            after :=
          ⟨more, (congrArg _ (step_operand (not_exists.mp closure) (put middle) []).symm).trans rest⟩
        exact applied.shift fits (by simp only; omega)

/-- A call that is put off comes to what the function applied to the arguments comes to. -/
theorem forces (calls : context.Calls env func id args) (waits : store.cell held = .suspended (.expr id env))
    (applies : Applies context ⟨room, 0⟩ func (store.set held .inProgress) args outcome after)
    (fits : outcome.Fits room) (enough : meter.current + 1 + args.length + room ≤ meter.limit) :
    Brings context meter store (.force held) outcome (after.set held (.ended outcome)) :=
  .of_work waits (Brings.enter (by omega) (calls.brings applies fits enough))

/-- A call that was put off and comes to an outcome has applied the function to the arguments. -/
theorem of_forces (calls : context.Calls env func id args)
    (waits : store.cell held = .suspended (.expr id env))
    (brings : Brings context meter store (.force held) outcome after) (fits : outcome.Fits meter.limit)
    (enough : meter.limit < room) :
    ∃ between, Applies context ⟨room, 0⟩ func (store.set held .inProgress) args outcome between ∧
      after = between.set held (.ended outcome) := by
  obtain ⟨between, goes, rfl⟩ := brings.to_work waits
  have entered : Brings context meter (store.set held .inProgress) (.enter id env) outcome between := goes
  exact ⟨between, calls.applies (entered.of_enter fits).2 fits enough, rfl⟩

end Context.Calls

end LazyConfig
