import LazyConfig.Proofs.Applying.Calls
import LazyConfig.Proofs.Prelude.Built

/-!
Functions of several parameters, applied to as many arguments. Nothing is evaluated but the functions inside one
another, each of which is made and applied at once; so the body is what is evaluated next, with all arguments bound.
-/

namespace LazyConfig

/-- The environment inside the parameters of a function, each of which is bound to an argument. -/
def Env.bindAll (env : Env) (params : List Name) (args : List ThunkId) : Env :=
  (params.zip args).foldl (fun env pair => env.bind pair.1 pair.2) env

/-- A function of one parameter after another around a body. -/
inductive Code.Curries (code : Code) (body : ExprId) : List Name → ExprId → Prop
  | none : Curries code body [] body
  | more {param : Name} {params : List Name} {inner id : ExprId} (node : code.expr id = .lambda param inner)
    (rest : Curries code body params inner) : Curries code body (param :: params) id

namespace Env

variable {env : Env} {params : List Name} {args : List ThunkId}

/-- The last parameter is bound innermost. -/
theorem bindAll_last (same : params.length = args.length) (param : Name) (arg : ThunkId) :
    env.bindAll (params ++ [param]) (args ++ [arg]) = (env.bindAll params args).bind param arg := by
  rw [bindAll, List.zip_append same, List.foldl_append]
  rfl

/-- Arguments without a parameter are not bound. -/
theorem bindAll_append (same : params.length = args.length) (more : List ThunkId) :
    env.bindAll params (args ++ more) = env.bindAll params args := by
  have cut := @List.zip_append _ _ params [] args more same
  simp only [List.append_nil, List.zip_nil_left] at cut
  rw [bindAll, cut]
  rfl

/-- Parameters without an argument are not bound. -/
theorem bindAll_fewer (same : params.length = args.length) (more : List Name) :
    env.bindAll (params ++ more) args = env.bindAll params args := by
  have cut := @List.zip_append _ _ params more args [] same
  simp only [List.append_nil, List.zip_nil_right] at cut
  rw [bindAll, cut]
  rfl

/-- Of parameters of one name the last one counts, and all of them hide what is around. -/
theorem lookup_bindAll (name : Name) :
    (env.bindAll params args).lookup name = ((params.zip args).reverse.lookup name).or (env.lookup name) := by
  rw [bindAll]
  generalize params.zip args = pairs
  induction pairs generalizing env with
  | nil => rfl
  | cons pair rest ih =>
    obtain ⟨param, arg⟩ := pair
    have found : (env.bind param arg).lookup name = ([(param, arg)].lookup name).or (env.lookup name) := by
      simp only [Env.lookup, Env.bind, List.lookup_cons]
      cases name == param <;> rfl
    rw [List.foldl_cons, ih, found, List.reverse_cons, List.lookup_append, Option.or_assoc]

theorem Within.bindAll {count : Nat} (bound : env.Within count) (inside : Inside count args) :
    (env.bindAll params args).Within count := by
  induction params generalizing env args with
  | nil => exact bound
  | cons param params ih =>
    cases args with
    | nil => exact bound
    | cons arg args =>
      exact ih (bound.bind (inside arg List.mem_cons_self)) fun id member => inside id (List.mem_cons_of_mem _ member)

end Env

/-- The parameters are bound to paired arguments. -/
theorem EnvTwin.bindAll {pairs : Pairing} {env bound : Env} (binds : EnvTwin pairs env bound)
    {args others : List ThunkId}
    (paired : List.Forall₂ pairs args others) (params : List Name) :
    EnvTwin pairs (env.bindAll params args) (bound.bindAll params others) := by
  induction params generalizing env bound args others with
  | nil => exact binds
  | cons param params ih =>
    cases paired with
    | nil => exact binds
    | cons here rest => exact ih (EnvTwin.bind binds here param) rest

namespace Code.Curries

variable {code : Code} {body head : ExprId}

/-- The body of a function of the first parameters is a function of the others. -/
theorem split {first rest : List Name} (curries : code.Curries body (first ++ rest) head) :
    ∃ middle, code.Curries middle first head ∧ code.Curries body rest middle := by
  induction first generalizing head with
  | nil => exact ⟨head, .none, curries⟩
  | cons param first ih =>
    cases curries with
    | more node inner =>
      obtain ⟨middle, outer, rest⟩ := ih inner
      exact ⟨middle, .more node outer, rest⟩

/-- The last parameter is that of the innermost function. -/
theorem last {params : List Name} {param : Name} (curries : code.Curries body (params ++ [param]) head) :
    ∃ inner, code.Curries inner params head ∧ code.expr inner = .lambda param body := by
  obtain ⟨inner, outer, rest⟩ := curries.split
  cases rest with
  | more node rest =>
    cases rest
    exact ⟨inner, outer, node⟩

end Code.Curries

/-- An application to the first arguments is applied to the others. -/
theorem Code.Applies.split {code : Code} {head id : ExprId} {first rest : List ExprId}
    (applies : code.Applies head (first ++ rest) id) :
    ∃ middle, code.Applies head first middle ∧ code.Applies middle rest id := by
  generalize whole : first ++ rest = args at applies
  -- An application is built from its first argument on, so that the last one is split off first.
  induction applies generalizing rest with
  | none =>
    obtain ⟨rfl, rfl⟩ := List.append_eq_nil_iff.mp whole
    exact ⟨head, .none, .none⟩
  | @more args func arg id applies node ih =>
    rcases rest.eq_nil_or_concat' with rfl | ⟨init, last, rfl⟩
    · rw [List.append_nil] at whole
      exact ⟨id, whole ▸ .more applies node, .none⟩
    · rw [← List.append_assoc] at whole
      obtain ⟨same, here⟩ := List.append_inj' whole rfl
      obtain rfl : last = arg := List.singleton_inj.mp here
      obtain ⟨middle, outer, inner⟩ := ih same
      exact ⟨middle, outer, .more inner node⟩

/-! What is built. -/

namespace Makes

variable {context : Context} {given : Prop} {body func : ExprId}

/-- A curried function is built as functions inside one another, under the names of its parameters. -/
theorem lambdas (params : List String) : Makes context given (Build.lambdas params body) fun id =>
    ∃ names, List.Forall₂ context.Named params names ∧ context.code.Curries body names id := by
  induction params generalizing given with
  | nil => exact .pure fun _ => ⟨[], .nil, .none⟩
  | cons param params ih =>
    refine bind ih fun inner => bind (name param) fun bound => (expr _).imp fun id facts node => ?_
    obtain ⟨⟨-, names, named, curries⟩, first⟩ := facts
    exact ⟨bound :: names, .cons first named, .more node curries⟩

/-- An application to several arguments is built as applications to one after another. -/
theorem applies {earlier : List ExprId} {head : ExprId} (args : List ExprId)
    (first : given → context.code.Applies head earlier func) :
    Makes context given (Build.call func args) (context.code.Applies head (earlier ++ args)) := by
  induction args generalizing given earlier func with
  | nil =>
    rw [List.append_nil]
    exact .pure first
  | cons arg args ih =>
    rw [List.append_cons]
    refine bind (expr (.apply func arg)) fun applied => ih fun facts => ?_
    exact .more (first facts.1) facts.2

end Makes

/-! Passing the arguments. -/

namespace Context

/-- Puts off arguments, from left to right, each after another function has been made. -/
def pass (context : Context) (env : Env) : List ExprId → Store → List ThunkId × Store
  | [], store => ([], store)
  | id :: rest, store =>
    let first := context.suspend (store.counting (store.closures + 1)) id env
    let others := pass context env rest first.2
    (first.1 :: others.1, others.2)

variable (context : Context) (env : Env)

/-- More arguments are passed after the first ones. -/
theorem pass_append (first second : List ExprId) (store : Store) :
    context.pass env (first ++ second) store =
      ((context.pass env first store).1 ++ (context.pass env second (context.pass env first store).2).1,
        (context.pass env second (context.pass env first store).2).2) := by
  induction first generalizing store with
  | nil => rfl
  | cons id rest ih => simp only [List.cons_append, pass, ih]

theorem pass_length (ids : List ExprId) (store : Store) : (context.pass env ids store).1.length = ids.length := by
  induction ids generalizing store with
  | nil => rfl
  | cons id rest ih => simp only [pass, List.length_cons, ih]

theorem pass_extends (ids : List ExprId) (store : Store) : store.Extends (context.pass env ids store).2 := by
  induction ids generalizing store with
  | nil => exact .refl store
  | cons id rest ih =>
    have counted : store.Extends (store.counting (store.closures + 1)) := ⟨Nat.le_refl _, fun _ _ => rfl⟩
    exact (counted.trans (context.suspend_extends _ id env)).trans (ih _)

/-- Nothing has happened to what an argument is put off as. -/
def Held (context : Context) (env : Env) (before after : Store) (arg : ExprId) (id : ThunkId) : Prop :=
  ∃ store, before.Extends store ∧ (context.suspend store arg env).1 = id ∧
    (context.suspend store arg env).2.Extends after

/-- Arguments that are passed are only put off. -/
theorem pass_held (args : List ExprId) (store : Store) :
    List.Forall₂ (context.Held env store (context.pass env args store).2) args (context.pass env args store).1 := by
  induction args generalizing store with
  | nil => exact .nil
  | cons arg rest ih =>
    have counted : store.Extends (store.counting (store.closures + 1)) := ⟨Nat.le_refl _, fun _ _ => rfl⟩
    have put := counted.trans (context.suspend_extends _ arg env)
    refine .cons ⟨_, counted, rfl, context.pass_extends env rest _⟩ ((ih _).imp ?_)
    rintro _ _ ⟨between, order, same, further⟩
    exact ⟨between, put.trans order, same, further⟩

@[simp] theorem pass_calls (ids : List ExprId) (store : Store) : (context.pass env ids store).2.calls = store.calls := by
  induction ids generalizing store with
  | nil => rfl
  | cons id rest ih => exact (ih _).trans (context.suspend_calls _ id env)

end Context

/-- Arguments that are passed are what they are put off as. -/
theorem Twins.pass {pairs : Pairing} {left right : Store} (twins : Twins pairs left right) (context : Context)
    {env bound : Env} (binds : EnvTwin pairs env bound) (args : List ExprId) :
    TwinsAfter pairs right (context.pass env args left).2 (context.suspendAll bound args right).2 fun more =>
      List.Forall₂ more (context.pass env args left).1 (context.suspendAll bound args right).1 := by
  induction args generalizing pairs left right with
  | nil => exact .same twins .nil
  | cons id rest ih =>
    have counted : pairs.Grows right pairs right ∧ Twins pairs (left.counting (left.closures + 1)) right :=
      twins.of_cells rfl rfl
    refine (counted.2.suspendExpr context binds id).bind fun middle grown between first => ?_
    refine (ih between (agree_mono grown.keeps binds)).imp fun more further others => ?_
    exact .cons (further.keeps _ _ first) others

section

variable {context : Context} {env : Env} {meter : DepthMeter} {store : Store} {head id : ExprId} {args : List ExprId}

/-- There is a level for each of some expressions inside one another. -/
def DepthMeter.Room (meter : DepthMeter) (count : Nat) : Prop :=
  ∀ used < count, meter.current + used < meter.limit

/-- The first of the expressions takes one level, and the others are inside. -/
theorem DepthMeter.room_succ_iff {count : Nat} :
    meter.Room (count + 1) ↔ meter.current < meter.limit ∧ (meter.below 1).Room count := by
  have deeper (used : Nat) : meter.current + 1 + used = meter.current + (used + 1) := by omega
  constructor
  · intro room
    refine ⟨room 0 (Nat.succ_pos _), fun used less => ?_⟩
    exact (deeper used).symm ▸ room (used + 1) (Nat.succ_lt_succ less)
  · rintro ⟨inside, room⟩ (_ | used) less
    · exact inside
    · exact deeper used ▸ room used (Nat.lt_of_succ_lt_succ less)

/-- Where there is one more level, an expression is evaluated one level deeper. -/
theorem goes_into (inside : meter.current < meter.limit) (stack : List Frame) :
    State.GoesTo context ⟨store, meter, .enter id env, stack⟩ ⟨store, meter.below 1, .eval id env, .leave :: stack⟩ := by
  refine .step ?_ (.refl _)
  simp [State.step, Context.enterStep, DepthMeter.enter?, inside, DepthMeter.below]

/-- An application evaluates its function one level deeper, where there is one more level. -/
theorem goes_to_function {func arg : ExprId} (node : context.code.expr id = .apply func arg)
    (inside : meter.current < meter.limit) (stack : List Frame) :
    State.GoesTo context ⟨store, meter, .eval id env, stack⟩
      ⟨store, meter.below 1, .eval func env, .leave :: .operand arg env :: stack⟩ := by
  have first : State.step context ⟨store, meter, .eval id env, stack⟩ =
      ⟨store, meter, .enter func env, .operand arg env :: stack⟩ := by
    simp only [State.step, Context.evalStep, node]
  exact .step first (goes_into inside _)

/-- A function of as many parameters as there are arguments goes on with its body. -/
theorem curried_goes {params : List Name} {body : ExprId} (curries : context.code.Curries body params head)
    (applies : context.code.Applies head args id) (full : params.length = args.length)
    (room : meter.Room args.length) (stack : List Frame) :
    let passed := context.pass env args store
    State.GoesTo context ⟨store, meter, .eval id env, stack⟩
      ⟨passed.2, meter, .eval body (env.bindAll params passed.1), stack⟩ := by
  -- By induction on the arguments; the last one belongs to the innermost function.
  induction applies generalizing params body meter stack with
  | none =>
    obtain rfl := List.length_eq_zero_iff.mp full
    cases curries
    exact .refl _
  | @more args func arg id applies node ih =>
    rw [List.length_append, List.length_singleton] at full room
    obtain ⟨init, param, rfl⟩ : ∃ init param, params = init ++ [param] :=
      ⟨_, _, (List.dropLast_append_getLast (List.ne_nil_of_length_pos (full ▸ Nat.succ_pos _))).symm⟩
    rw [List.length_append, List.length_singleton, Nat.add_right_cancel_iff] at full
    obtain ⟨inner, outer, made⟩ := curries.last
    obtain ⟨inside, further⟩ := DepthMeter.room_succ_iff.mp room
    -- The inner function is made at its own level, and applied at this one.
    refine ((goes_to_function node inside stack).trans (ih outer full further _)).trans ?_
    have same : init.length = (context.pass env args store).1.length :=
      full.trans (context.pass_length env args store).symm
    simp only [context.pass_append env args [arg], Context.pass, Env.bindAll_last same]
    generalize (context.pass env args store).2 = between
    generalize env.bindAll init (context.pass env args store).1 = within
    have gives (stack : List Frame) : State.step context ⟨between, meter.below 1, .eval inner within, stack⟩ =
        ⟨between.counting (between.closures + 1), meter.below 1,
          .give (.closure ⟨between.closures, param, body, within⟩), stack⟩ := by
      simp only [State.step, Context.evalStep, made]
      rfl
    exact .step (gives _) (.step rfl (.step rfl (.refl _)))

/-- Where there are too few levels for its arguments, an application runs out of them. -/
theorem applied_runs_out (applies : context.code.Applies head args id) (full : ¬ meter.Room args.length) :
    Brings context meter store (.eval id env) (.error (.fault (.depthExceeded meter.limit))) store := by
  -- Each argument takes a level below the others, and the first level that is missing ends it all.
  induction applies generalizing meter with
  | none => exact absurd nofun full
  | @more args func arg id applies node ih =>
    rw [List.length_append, List.length_singleton, DepthMeter.room_succ_iff] at full
    by_cases inside : meter.current < meter.limit
    · have deeper : ¬ (meter.below 1).Room args.length := fun room => full ⟨inside, room⟩
      have fails := (ih deeper).above [.leave, .operand arg env]
      exact (goes_to_function node inside []).trans (fails.trans (.step rfl (.step rfl (.refl _))))
    · have first : State.step context ⟨store, meter, .eval id env, []⟩ =
          ⟨store, meter, .enter func env, [.operand arg env]⟩ := by
        simp only [State.step, Context.evalStep, node]
      have refused : Brings context meter store (.enter func env) _ store := .refused inside
      exact .step first ((refused.above _).trans (.step rfl (.refl _)))

/--
A function of as many parameters as there are arguments comes to what its body comes to, unless there are too few levels.
-/
theorem curried_cut {params : List Name} {body : ExprId} (curries : context.code.Curries body params head)
    (applies : context.code.Applies head args id) (full : params.length = args.length) (meter : DepthMeter) :
    Outcomes.Cut meter.limit
      (Brings context meter (context.pass env args store).2
        (.eval body (env.bindAll params (context.pass env args store).1)))
      (Brings context meter store (.eval id env)) := by
  by_cases room : meter.Room args.length
  · have same : Brings context meter store (.eval id env) = Brings context meter _ (.eval body _) :=
      (curried_goes curries applies full room []).comes (State.not_ended rfl)
    rw [same]
    exact .same
  · have fails : Brings context meter store (.eval id env) (.error (.fault (.depthExceeded meter.limit))) store :=
      applied_runs_out applies room
    rw [fails.only]
    exact .out rfl

end

end LazyConfig
