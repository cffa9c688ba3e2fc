import LazyConfig.Proofs.Applying.PutOff

/-!
The ways in which a primitive gets its arguments: a host calls it with all of them, a program writes it with all
of them, or it is written with some and applied to the others one by one. All of them put off the same
expressions in the same order.
-/

namespace LazyConfig

/-- An expression that applies another one to arguments, one after another. -/
inductive Code.Applies (code : Code) (head : ExprId) : List ExprId → ExprId → Prop
  | none : Applies code head [] head
  | more {args : List ExprId} {func arg id : ExprId} (rest : Applies code head args func)
    (node : code.expr id = .apply func arg) : Applies code head (args ++ [arg]) id

namespace Context

variable (context : Context) (env : Env)

/-- Putting off more expressions comes after putting off the first ones. -/
theorem suspendAll_append (first second : List ExprId) (store : Store) :
    context.suspendAll env (first ++ second) store =
      ((context.suspendAll env first store).1 ++
        (context.suspendAll env second (context.suspendAll env first store).2).1,
        (context.suspendAll env second (context.suspendAll env first store).2).2) := by
  induction first generalizing store with
  | nil => rfl
  | cons id rest ih => simp only [List.cons_append, suspendAll, ih]

theorem suspendAll_length (ids : List ExprId) (store : Store) :
    (context.suspendAll env ids store).1.length = ids.length := by
  induction ids generalizing store with
  | nil => rfl
  | cons id rest ih => simp only [suspendAll, List.length_cons, ih]

end Context

variable {context : Context} {meter : DepthMeter} {store after : Store} {env : Env} {outcome : Outcome}
  {op : Builtin}

/-! Arguments one by one. -/

/-- A primitive that gets its last argument runs. -/
theorem applyStep_last {held : List ThunkId} {arg : ThunkId} (full : held.length + 1 = op.arity)
    (stack : List Frame) :
    Context.applyStep store meter (.builtin op held) arg stack =
      ⟨store, meter, .run op (held ++ [arg]), stack⟩ := by
  have none : op.missing (held ++ [arg]) = 0 := by
    rw [Builtin.missing, List.length_append, List.length_singleton, full, Nat.sub_self]
  simp only [Context.applyStep, if_pos none]

/-- A primitive that gets another argument holds it. -/
theorem applyStep_holds {held : List ThunkId} {arg : ThunkId} (few : held.length + 1 < op.arity)
    (stack : List Frame) :
    Context.applyStep store meter (.builtin op held) arg stack =
      ⟨store, meter, .give (.builtin op (held ++ [arg])), stack⟩ := by
  have some : op.missing (held ++ [arg]) ≠ 0 := by
    rw [Builtin.missing, List.length_append, List.length_singleton]
    omega
  simp only [Context.applyStep, if_neg some]

/-- A primitive that is called with all the arguments that are missing runs on all of them. -/
theorem args_goes {held ids : List ThunkId} (some : ids ≠ []) (full : held.length + ids.length = op.arity) :
    State.GoesTo context ⟨store, meter, .give (.builtin op held), [.args ids]⟩
      ⟨store, meter, .run op (held ++ ids), [.args []]⟩ := by
  -- By induction on the arguments: all but the last are held, and with the last the primitive runs.
  induction ids generalizing held with
  | nil => exact absurd rfl some
  | cons arg rest ih =>
    have passed : State.step context ⟨store, meter, .give (.builtin op held), [.args (arg :: rest)]⟩ =
        ⟨store, meter, .apply (.builtin op held) arg, [.args rest]⟩ := rfl
    refine .step passed ?_
    cases rest with
    | nil => exact .step (applyStep_last full _) (.refl _)
    | cons next others =>
      rw [List.length_cons] at full
      have few : held.length + 1 < op.arity := by
        rw [← full, List.length_cons]
        omega
      refine .step (applyStep_holds few _) ?_
      have enough : (held ++ [arg]).length + (next :: others).length = op.arity := by
        simpa [Nat.add_assoc, Nat.add_comm 1] using full
      rw [List.append_cons held arg (next :: others)]
      exact ih (by simp) enough

/-- Once no arguments are left to be passed, work comes to what it comes to by itself. -/
theorem comes_args_nil {work : Control} :
    State.Comes context meter ⟨store, meter, work, [.args []]⟩ = Brings context meter store work := by
  -- The frame has nothing to pass, so that what it takes it gives.
  rw [comes_above .give .nil (fun _ _ => rfl) (fun _ _ => rfl)]
  funext outcome after
  have ended (value : Value) (last : Store) :
      State.Comes context meter ⟨last, meter, .give value, []⟩ (.ok value) last := .refl _
  refine propext ⟨?_, fun brings => ?_⟩
  · rintro (⟨upset, rfl, brings⟩ | ⟨value, between, brings, comes⟩)
    · exact brings
    · obtain ⟨rfl, rfl⟩ := comes.unique (ended value between)
      exact brings
  · cases outcome with
    | ok value => exact .inr ⟨value, after, brings, ended value after⟩
    | error upset => exact .inl ⟨upset, rfl, brings⟩

/-- What a host gets that calls a primitive with arguments is what the primitive comes to on all of them. -/
theorem comes_call {held ids : List ThunkId} (some : ids ≠ []) (full : held.length + ids.length = op.arity) :
    State.Comes context meter ⟨store, meter, .give (.builtin op held), [.args ids]⟩ =
      Brings context meter store (.run op (held ++ ids)) :=
  ((args_goes some full).comes (State.not_ended rfl)).trans comes_args_nil

/-! Arguments as they are written. -/

/-- A primitive that is written with too few arguments holds them. -/
theorem evalStep_holds {id : ExprId} {first : List ExprId} (node : context.code.expr id = .builtin op first)
    (few : first.length < op.arity) (stack : List Frame) :
    context.evalStep store meter id env stack =
      ⟨(context.suspendAll env first store).2, meter,
        .give (.builtin op (context.suspendAll env first store).1), stack⟩ := by
  have held : (context.suspendAll env first store).1.length < op.arity := by
    rwa [context.suspendAll_length]
  simp only [Context.evalStep, node]
  -- The two primitives that go on with their last argument have all their arguments then.
  split
  · exact absurd few (by simp [Builtin.arity])
  · exact absurd few (by simp [Builtin.arity])
  · simp only [if_neg (Nat.not_lt.mpr (Nat.le_of_lt few)), if_pos held]

/-- An expression that applies an expression to an argument goes on with the value of the expression, or runs out. -/
theorem apply_goes {id func arg : ExprId} {held : List ThunkId} {middle : Store}
    (node : context.code.expr id = .apply func arg)
    (evaluates : Brings context (meter.below 1) store (.eval func env) (.ok (.builtin op held)) middle ∨
      Outcomes.RunsOut meter.limit (Brings context (meter.below 1) store (.eval func env)))
    (stack : List Frame) :
    State.GoesTo context ⟨store, meter, .eval id env, stack⟩
        ⟨(context.suspend middle arg env).2, meter,
          .apply (.builtin op held) (context.suspend middle arg env).1, stack⟩ ∨
      ∃ upset after, State.GoesTo context ⟨store, meter, .eval id env, stack⟩
        ⟨after, meter, .raise upset, stack⟩ ∧ upset.Overflows meter.limit := by
  have first : State.step context ⟨store, meter, .eval id env, stack⟩ =
      ⟨store, meter, .enter func env, .operand arg env :: stack⟩ := by
    simp only [State.step, Context.evalStep, node]
  by_cases inside : meter.current < meter.limit
  · rcases evaluates with gives | ⟨upset, after, fails, overflows⟩
    · exact .inl (.step first (((gives.enter inside).above _).trans (.step rfl (.refl _))))
    · exact .inr ⟨upset, after, .step first (((fails.enter inside).above _).trans (.step rfl (.refl _))), overflows⟩
  · have refused : Brings context meter store (.enter func env) _ store := .refused inside
    exact .inr ⟨_, store, .step first ((refused.above _).trans (.step rfl (.refl _))), rfl⟩

/-- A primitive that is written with some arguments and applied to others, still too few, holds all of them. -/
theorem applied_holds {head id : ExprId} {first rest : List ExprId}
    (node : context.code.expr head = .builtin op first) (applies : context.code.Applies head rest id)
    (few : (first ++ rest).length < op.arity) (meter : DepthMeter) :
    Brings context meter store (.eval id env) (.ok (.builtin op (context.suspendAll env (first ++ rest) store).1))
        (context.suspendAll env (first ++ rest) store).2 ∨
      Outcomes.RunsOut meter.limit (Brings context meter store (.eval id env)) := by
  -- By induction on the arguments behind those that are written; each application takes a level.
  induction applies generalizing meter with
  | none =>
    rw [List.append_nil] at few ⊢
    exact .inl (.step (evalStep_holds node few _) (.refl _))
  | @more args func arg id rest applied ih =>
    rw [← List.append_assoc] at few ⊢
    have fewer : (first ++ args).length < op.arity := Nat.lt_of_le_of_lt (by simp) few
    rcases apply_goes applied (ih fewer (meter.below 1)) [] with goes | ⟨upset, after, goes, overflows⟩
    · refine .inl (goes.trans (.step (applyStep_holds ?_ _) ?_))
      · rw [context.suspendAll_length]
        simpa [Nat.add_assoc] using few
      · rw [context.suspendAll_append env (first ++ args) [arg]]
        exact .refl _
    · exact .inr ⟨upset, after, goes, overflows⟩

/-- A primitive that is written with some arguments and applied to the others runs on all of them. -/
theorem applied_cut {head id : ExprId} {first rest : List ExprId}
    (node : context.code.expr head = .builtin op first) (applies : context.code.Applies head rest id)
    (some : rest ≠ []) (full : (first ++ rest).length = op.arity) (meter : DepthMeter) :
    Outcomes.Cut meter.limit
      (Brings context meter (context.suspendAll env (first ++ rest) store).2
        (.run op (context.suspendAll env (first ++ rest) store).1))
      (Brings context meter store (.eval id env)) := by
  -- With the last argument the primitive has as many as it needs; before it, the others are only
  -- held.
  cases applies with
  | none => exact absurd rfl some
  | @more args func arg id applies applied =>
    rw [← List.append_assoc] at full ⊢
    have few : (first ++ args).length < op.arity := by
      rw [← full]
      simp
    rcases apply_goes applied (applied_holds node applies few (meter.below 1)) [] with
      goes | ⟨upset, after, fails, overflows⟩
    · have known : (context.suspendAll env (first ++ args) store).1.length + 1 = op.arity := by
        rw [context.suspendAll_length]
        simpa [Nat.add_assoc] using full
      have runs := goes.trans (.step (applyStep_last known _) (.refl _))
      have same : Brings context meter store (.eval id env) = Brings context meter _ (.run op _) :=
        runs.comes (State.not_ended rfl)
      rw [same, context.suspendAll_append env (first ++ args) [arg]]
      exact .same
    · have fails : Brings context meter store (.eval id env) (.error upset) after := fails
      rw [fails.only]
      exact .out overflows

/-- A primitive that is written with all its arguments runs on them, unless it goes on with its last argument. -/
theorem brings_full {id : ExprId} {args : List ExprId} (node : context.code.expr id = .builtin op args)
    (full : args.length = op.arity) (seq : op ≠ .seq) (deepSeq : op ≠ .deepSeq) :
    Brings context meter store (.eval id env) =
      Brings context meter (context.suspendAll env args store).2
        (.run op (context.suspendAll env args store).1) := by
  have held : ¬ (context.suspendAll env args store).1.length < op.arity := by
    rw [context.suspendAll_length, full]
    exact Nat.lt_irrefl _
  have stepped : State.step context ⟨store, meter, .eval id env, []⟩ =
      ⟨(context.suspendAll env args store).2, meter, .run op (context.suspendAll env args store).1, []⟩ := by
    simp only [State.step, Context.evalStep, node]
    split
    · exact absurd rfl seq
    · exact absurd rfl deepSeq
    · simp only [if_neg (Nat.not_lt.mpr (Nat.le_of_eq full)), if_neg held]
  exact Brings.of_stepped stepped (State.not_ended rfl)

/-- What is evaluated one level deeper comes to what it comes to there. -/
theorem enter_cut (id : ExprId) :
    Outcomes.Cut meter.limit (Brings context (meter.below 1) store (.eval id env))
      (Brings context meter store (.enter id env)) := by
  by_cases inside : meter.current < meter.limit
  · have same : Brings context meter store (.enter id env) = Brings context (meter.below 1) store (.eval id env) :=
      funext₂ fun _ _ => propext ⟨fun brings => brings.entered inside, fun brings => brings.enter inside⟩
    rw [same]
    exact .same
  · have refused : Brings context meter store (.enter id env) (.error (.fault (.depthExceeded meter.limit))) store :=
      .refused inside
    rw [refused.only]
    exact .out rfl

end LazyConfig
