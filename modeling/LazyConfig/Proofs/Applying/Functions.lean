import LazyConfig.Proofs.Applying.Currying

/-!
A function of several parameters that is applied to fewer arguments, to as many and to more. Up to the last parameter
nothing is compared: the application goes on with the body itself, in the store in which the arguments are put off.
-/

namespace LazyConfig

variable {context : Context} {settings : Settings} {meter : DepthMeter} {store : Store} {env : Env}
  {params : List Name} {body func whole : ExprId} {args : List ExprId}

/-! As many arguments as parameters, or fewer. -/

/-- A failure is what a request fails with. -/
theorem Outcomes.finished_fails (upset : Upset) (after : Store) :
    (Outcomes.only (.error upset) after).finished context settings meter = .only (.error upset) after := by
  unfold Outcomes.finished
  split
  · exact Outcomes.fails_bind upset after _
  · rfl

/-- Where there are too few levels for the function inside all applications, there is no other outcome. -/
theorem evaluate_runs_out (applies : context.code.Applies func args whole) (full : ¬ meter.Room (args.length + 1)) :
    (Request.evaluate whole env).comes context settings meter store =
      .only (.error (.fault (.depthExceeded meter.limit))) store := by
  have fails : Brings context meter store (.enter whole env) (.error (.fault (.depthExceeded meter.limit))) store := by
    by_cases inside : meter.current < meter.limit
    · exact .enter inside (applied_runs_out applies fun room => full (DepthMeter.room_succ_iff.mpr ⟨inside, room⟩))
    · exact .refused inside
  rw [evaluate_comes, fails.only, Outcomes.finished_fails]

/-- A function of as many parameters as there are arguments comes to exactly what its body comes to. -/
theorem evaluate_applied (curries : context.code.Curries body params func)
    (applies : context.code.Applies func args whole) (full : params.length = args.length)
    (room : meter.Room (args.length + 1)) :
    (Request.evaluate whole env).comes context settings meter store =
      (Request.evaluate body (env.bindAll params (context.pass env args store).1)).comes context settings meter
        (context.pass env args store).2 := by
  obtain ⟨inside, further⟩ := DepthMeter.room_succ_iff.mp room
  let passed := context.pass env args store
  let bindings := env.bindAll params passed.1
  let stack := Request.frames settings (.evaluate whole env)
  have outer : State.GoesTo context ⟨store, meter, .enter whole env, stack⟩
      ⟨passed.2, meter.below 1, .eval body bindings, .leave :: stack⟩ :=
    (goes_into inside stack).trans (curried_goes curries applies full further _)
  have inner : State.GoesTo context ⟨passed.2, meter, .enter body bindings, stack⟩
      ⟨passed.2, meter.below 1, .eval body bindings, .leave :: stack⟩ :=
    goes_into inside stack
  exact (outer.comes (State.not_ended rfl)).trans (inner.comes (State.not_ended rfl)).symm

/-- All parts of a closure are there. -/
theorem Outcomes.finished_closure (function : Closure) (after : Store) :
    (Outcomes.only (.ok (.closure function)) after).finished context settings meter =
      .only (.ok (.closure function)) after := by
  have whole : (Request.deepen (.closure function)).comes context settings meter after (.ok (.closure function))
      after := .step rfl (.step rfl (.refl _))
  unfold Outcomes.finished
  split
  · exact (Outcomes.only_bind _ after _).trans whole.only
  · rfl

/-- A function comes to a closure. -/
theorem evaluate_function {param : Name} (node : context.code.expr func = .lambda param body)
    (inside : meter.current < meter.limit) :
    (Request.evaluate func env).comes context settings meter store =
      .only (.ok (.closure ⟨store.closures, param, body, env⟩)) (store.counting (store.closures + 1)) := by
  let function : Closure := ⟨store.closures, param, body, env⟩
  have gives : State.step context ⟨store, meter.below 1, .eval func env, []⟩ =
      ⟨store.counting (store.closures + 1), meter.below 1, .give (.closure function), []⟩ := by
    simp only [State.step, Context.evalStep, node]
    rfl
  have brings : Brings context meter store (.enter func env) (.ok (.closure function))
      (store.counting (store.closures + 1)) :=
    .enter inside (.step gives (.refl _))
  rw [evaluate_comes, brings.only, Outcomes.finished_closure]

/-! Arguments put off before. -/

section

variable {limit : Nat} {high : DepthMeter} {head : ExprId} {first rest : List ExprId} (closed : store.Closed)
  (bound : env.Within store.cells.size)
include closed bound

/-- An expression agrees with itself in a store in which arguments are put off. -/
theorem head_agrees (low : DepthMeter) (least : low.limit = limit) (most : high.limit = limit) :
    let put := context.suspendAll env args store
    Agrees limit (store.New put.2) (.below store.cells.size) store put.2
      (Brings context low store (.eval head env)) (Brings context high put.2 (.eval head env)) := by
  intro put
  obtain ⟨grows, known, -⟩ := @suspendAll_known context store env closed bound args
  have twins : Twins (.below store.cells.size) store put.2 :=
    Store.Within.twins closed (context.suspendAll_extends env args store)
  refine .of_twins twins ?_ (.eval head bound.twin) rfl known ⟨trivial, bound.grow grows.size⟩ least most
  exact fun image spared => ⟨spared.2, fun id pair => absurd (pair.2 ▸ pair.1) (Nat.not_lt.mpr spared.1)⟩

/-- A function of as many parameters as there are arguments agrees with its body where more arguments are put off. -/
theorem body_agrees (curries : context.code.Curries body params func)
    (applies : context.code.Applies func first head) (full : params.length = first.length) (low : DepthMeter)
    (least : low.limit = limit) (most : high.limit = limit) :
    let put := context.suspendAll env first store
    let final := (context.suspendAll env rest put.2).2
    Agrees limit (put.2.New final) (.below store.cells.size) store final
      (Brings context low store (.eval head env))
      (Brings context high final (.eval body (env.bindAll params put.1))) := by
  -- Every argument is put off in both ways, and its twin is among those that are put off for the
  -- rest.
  intro put final
  obtain ⟨grows, known, inside⟩ := @suspendAll_known context store env closed bound first
  have grown : put.2.Extends final := context.suspendAll_extends env rest put.2
  have final_known : final.Closed := (suspendAll_known known (bound.grow grows.size) rest).2.1
  have start : Twins (.below store.cells.size) store store := Store.Within.twins closed (.refl store)
  obtain ⟨more, grows_more, twins, paired⟩ := start.pass context bound.twin first
  have alone : Spares more final (put.2.New final) :=
    fun image spared => ⟨spared.2, fun id pair => absurd (twins.inside id image pair).2 (Nat.not_lt.mpr spared.1)⟩
  have binds : EnvTwin more (env.bindAll params (context.pass env first store).1) (env.bindAll params put.1) :=
    EnvTwin.bindAll (agree_mono grows_more.keeps bound.twin) paired params
  have within : Env.Within final.cells.size (env.bindAll params put.1) :=
    Env.Within.bindAll (bound.grow (Nat.le_trans grows.size grown.1)) fun id member =>
      Nat.lt_of_lt_of_le (inside .seq id member) grown.1
  have agree : Agrees limit _ more _ final (Brings context low _ (.eval body _))
      (Brings context high final (.eval body _)) :=
    .of_twins (twins.extend grown) alone (.eval body binds) rfl final_known ⟨trivial, within⟩ least most
  refine (agree.earlier grows_more.keeps (context.pass_calls env first store).symm).cut ?_ .same
  exact least ▸ curried_cut curries applies full low

omit closed in
/--
An application comes to what a call comes to with the same arguments put off before, if what is applied agrees with what
is called.
-/
theorem evaluate_as_called {start : Store} {called : Outcomes} (applies : context.code.Applies head args whole)
    (start_closed : start.Closed) (start_bound : env.Within start.cells.size) (calls : start.calls = store.calls)
    (known : called.Known meter (context.suspendAll env args start).2.cells.size)
    (agrees : ∀ low : DepthMeter, low.limit = meter.limit →
      Agrees meter.limit (start.New (context.suspendAll env args start).2) (.below store.cells.size) store
        (context.suspendAll env args start).2 (Brings context low store (.eval head env)) called) :
    SameWay meter.limit settings.deepForce store ((Request.evaluate whole env).comes context settings meter store)
      ((called.bind (context.calls meter (context.suspendAll env args start).1)).finished context settings meter) := by
  obtain ⟨-, -, inside⟩ := @suspendAll_known context start env start_closed start_bound args
  have reaches : (context.suspendAll env (args ++ []) start).2 = (context.suspendAll env args start).2 := by
    rw [List.append_nil]
  have deeper := applied_agrees applies reaches bound.twin agrees known start_closed start_bound rfl (meter.below 1)
    meter.below_limit
  -- Nothing is put off after the last argument.
  have agree := (deeper.weaken fun image (none : False) => none.elim).cut (enter_cut whole) .same
  rw [evaluate_comes]
  refine (agree.finished fun outcome later comes => ?_).sameWay ((context.suspendAll_calls env args start).trans calls)
  exact (known.bind_calls (inside .seq) outcome later comes).1

/--
More arguments than there are parameters: the body comes to what is called with the arguments that are left, unless
there are too few levels.
-/
theorem evaluate_more (curries : context.code.Curries body params func)
    (applies : context.code.Applies func (first ++ rest) whole) (full : params.length = first.length) :
    let put := context.suspendAll env first store
    let left := context.suspendAll env rest put.2
    SameWay meter.limit settings.deepForce store ((Request.evaluate whole env).comes context settings meter store)
      ((Outcomes.bind (Brings context meter left.2 (.enter body (env.bindAll params put.1)))
        (context.calls meter left.1)).finished context settings meter) := by
  intro put left
  obtain ⟨head, outer, inner⟩ := applies.split
  obtain ⟨grows, known, inside⟩ := @suspendAll_known context store env closed bound first
  have bound_put : env.Within put.2.cells.size := bound.grow grows.size
  obtain ⟨more, left_known, -⟩ := @suspendAll_known context put.2 env known bound_put rest
  have within : Env.Within left.2.cells.size (env.bindAll params put.1) :=
    Env.Within.bindAll (bound_put.grow more.size) fun id member =>
      Nat.lt_of_lt_of_le (inside .seq id member) more.size
  refine evaluate_as_called bound inner known bound_put (context.suspendAll_calls env first store)
    (Brings.known left_known ⟨trivial, within⟩) fun low least => ?_
  exact (body_agrees closed bound curries outer full low least meter.below_limit).cut .same (enter_cut body)

/-- An application comes to what a call of its function comes to, unless there are too few levels. -/
theorem evaluate_called (applies : context.code.Applies func args whole) :
    let put := context.suspendAll env args store
    SameWay meter.limit settings.deepForce store ((Request.evaluate whole env).comes context settings meter store)
      ((Outcomes.bind (Brings context meter put.2 (.enter func env)) (context.calls meter put.1)).finished context
        settings meter) := by
  intro put
  obtain ⟨grows, known, -⟩ := @suspendAll_known context store env closed bound args
  refine evaluate_as_called bound applies closed bound rfl
    (Brings.known known ⟨trivial, bound.grow grows.size⟩) fun low least => ?_
  exact (head_agrees closed bound low least meter.below_limit).cut .same (enter_cut func)

end

/--
What an application of a function of several parameters comes to. Only its own applications need levels; what is said of
the calls of a host leaves out that there may be too few levels.
-/
structure Context.Curried (context : Context) (settings : Settings) (meter : DepthMeter) (store : Store) (env : Env)
    (params : List Name) (body func : ExprId) (args : List ExprId) (whole : ExprId) : Prop where
  runs_out : ¬ meter.Room (args.length + 1) →
    (Request.evaluate whole env).comes context settings meter store =
      .only (.error (.fault (.depthExceeded meter.limit))) store
  /-- Arguments are put off in the environment of the application, and stay so until the body is reached. -/
  held : List.Forall₂ (context.Held env store (context.pass env args store).2) args (context.pass env args store).1
  /-- The last parameter of a name hides the others and what is around. -/
  binds : ∀ ids name, (env.bindAll params ids).lookup name =
    ((params.zip ids).reverse.lookup name).or (env.lookup name)
  /-- With as many arguments as there are parameters, the body is evaluated with all of them. -/
  all : args.length = params.length → meter.Room (args.length + 1) →
    let passed := context.pass env args store
    (Request.evaluate whole env).comes context settings meter store =
      (Request.evaluate body (env.bindAll params passed.1)).comes context settings meter passed.2
  /-- With fewer arguments, there is a closure that waits for the next parameter. -/
  fewer : args.length < params.length → meter.Room (args.length + 1) →
    let passed := context.pass env args store
    ∃ param inner, params[args.length]? = some param ∧
      context.code.Curries body (params.drop (args.length + 1)) inner ∧
      (Request.evaluate whole env).comes context settings meter store =
        .only (.ok (.closure ⟨passed.2.closures, param, inner, env.bindAll params passed.1⟩))
          (passed.2.counting (passed.2.closures + 1))
  /-- With more arguments, what the body comes to is called with those that are left. -/
  more : params.length ≤ args.length →
    let put := context.suspendAll env args store
    SameWay meter.limit settings.deepForce store ((Request.evaluate whole env).comes context settings meter store)
      ((Outcomes.bind (Brings context meter put.2 (.enter body (env.bindAll params put.1)))
        (context.calls meter (put.1.drop params.length))).finished context settings meter)
  /-- A host may call the function with the same arguments. -/
  called :
    let put := context.suspendAll env args store
    SameWay meter.limit settings.deepForce store ((Request.evaluate whole env).comes context settings meter store)
      ((Outcomes.bind (Brings context meter put.2 (.enter func env)) (context.calls meter put.1)).finished context
        settings meter)

/-- The first of the parameters are bound to the arguments that there are. -/
theorem evaluate_fewer (curries : context.code.Curries body params func)
    (applies : context.code.Applies func args whole) (few : args.length < params.length)
    (room : meter.Room (args.length + 1)) :
    let passed := context.pass env args store
    ∃ param inner, params[args.length]? = some param ∧
      context.code.Curries body (params.drop (args.length + 1)) inner ∧
      (Request.evaluate whole env).comes context settings meter store =
        .only (.ok (.closure ⟨passed.2.closures, param, inner, env.bindAll params passed.1⟩))
          (passed.2.counting (passed.2.closures + 1)) := by
  intro passed
  -- The first parameter without an argument is that of the function that is left.
  obtain ⟨first, param, rest, rfl, same⟩ : ∃ first param rest,
      params = first ++ param :: rest ∧ first.length = args.length :=
    ⟨params.take args.length, params[args.length], params.drop (args.length + 1), by simp,
      by simp [Nat.le_of_lt few]⟩
  obtain ⟨middle, outer, others⟩ := curries.split
  cases others with
  | @more _ _ inner _ node others =>
    refine ⟨param, inner, by simp [← same], by simpa [← same] using others, ?_⟩
    have bindings : env.bindAll (first ++ param :: rest) passed.1 = env.bindAll first passed.1 :=
      Env.bindAll_fewer (same.trans (context.pass_length env args store).symm) _
    rw [evaluate_applied outer applies same room, evaluate_function node (room 0 (Nat.succ_pos _)), bindings]

/-- The code of `1`, of `2` and of a variable. -/
def oneAndTwo : Draft where
  names := ⟨#["x"]⟩
  code := { exprs := #[.int 1, .int 2, .ident 0] }

/-- The code of `(fun x x => x) 1 2`. -/
def repeatedParameter : Context where
  names := ⟨#["x"]⟩
  code := { exprs := #[.int 1, .int 2, .ident 0, .lambda 0 2, .lambda 0 3, .apply 4 0, .apply 5 1] }
  annotations := {}

end LazyConfig
