import LazyConfig.Proofs.Twins.Asides
import LazyConfig.Proofs.Twins.Outcomes

/-!
What the evaluator puts off for an expression, next to the expression put off as it is. A variable shares
what it is bound to, and what needs no evaluation is made at once; asking for either comes to the same.
-/

namespace LazyConfig

namespace Store

variable (store : Store)

/-- The same store, in which so many functions have been made. -/
def counting (closures : Nat) : Store :=
  { store with closures }

@[simp] theorem counting_size (closures : Nat) : (store.counting closures).cells.size = store.cells.size :=
  rfl

/-- A new computation that is settled at once is one that was settled from the start. -/
theorem set_alloc (closures : Nat) (first second : Cell) :
    ((store.alloc first).2.counting closures).set store.cells.size second =
      ((store.counting closures).alloc second).2 := by
  obtain ⟨cells, before, calls⟩ := store
  have replaced : (cells.push first).setIfInBounds cells.size second = cells.push second := by
    apply Array.ext'
    simp
  simp only [alloc, set, counting, replaced]

end Store

namespace Context

/--
An expression that is evaluated in one step, whatever is in the store. It may be a new function, and its
value then says which one.
-/
structure AtOnce (context : Context) (id : ExprId) (env : Env) (value : Nat → Value) (next : Nat → Nat) :
    Prop where
  evaluates : ∀ (store : Store) (meter : DepthMeter) (stack : List Frame),
    context.evalStep store meter id env stack =
      ⟨store.counting (next store.closures), meter, .give (value store.closures), stack⟩
  alike : ∀ {pairs : Pairing}, EnvTwin pairs env env → ∀ first second,
    ValueTwin pairs (value first) (value second)

/-- What putting off an expression makes. -/
inductive Suspends (context : Context) (store : Store) (id : ExprId) (env : Env) : ThunkId × Store → Prop
  /-- A variable shares the computation that it is bound to. -/
  | shared {name : Name} {bound : ThunkId} (node : context.code.expr id = .ident name)
    (known : env.lookup name = some bound) : Suspends context store id env (bound, store)
  | made {value : Nat → Value} {next : Nat → Nat} (atOnce : context.AtOnce id env value next) :
    Suspends context store id env
      ((store.counting (next store.closures)).ready (value store.closures))
  | deferred : Suspends context store id env (store.suspend (.expr id env))

variable {context : Context}

/-- A literal is evaluated in one step. -/
theorem AtOnce.of_literal {id : ExprId} {env : Env} {value : Value} (scalar : value.isScalar = true)
    (evaluates : ∀ (store : Store) (meter : DepthMeter) (stack : List Frame),
      context.evalStep store meter id env stack = ⟨store, meter, .give value, stack⟩) :
    context.AtOnce id env (fun _ => value) (fun count => count) :=
  ⟨evaluates, fun _ _ _ => .of_isScalar scalar⟩

/-- An expression is put off in one of these ways. -/
theorem suspends (context : Context) (store : Store) (id : ExprId) (env : Env) :
    context.Suspends store id env (context.suspend store id env) := by
  -- A literal is there at once, and so is its computation.
  have literal {value : Value} (scalar : value.isScalar = true)
      (evaluates : ∀ (store : Store) (meter : DepthMeter) (stack : List Frame),
        context.evalStep store meter id env stack = ⟨store, meter, .give value, stack⟩) :
      context.Suspends store id env (store.ready value) :=
    .made (.of_literal scalar evaluates)
  unfold suspend
  cases node : context.code.expr id with
  | ident name =>
    dsimp only
    cases known : env.lookup name with
    | some bound => exact .shared node known
    | none => exact .deferred
  | int value => exact literal rfl fun _ _ _ => by simp only [evalStep, node]
  | float value => exact literal rfl fun _ _ _ => by simp only [evalStep, node]
  | bool value => exact literal rfl fun _ _ _ => by simp only [evalStep, node]
  | str text => exact literal rfl fun _ _ _ => by simp only [evalStep, node]
  | lambda param body =>
    have atOnce : context.AtOnce id env (fun tag => .closure ⟨tag, param, body, env⟩) (· + 1) :=
      ⟨fun store _ _ => by simp only [evalStep, node]; rfl, fun binds _ _ => .closure binds⟩
    exact .made atOnce
  | _ => exact .deferred

end Context

variable {context : Context} {meter : DepthMeter} {store after later : Store} {id : ExprId} {env : Env}
  {outcome own : Outcome}

/-- What work comes to is within the store that it leaves. -/
theorem Brings.within {work : Control} (brings : Brings context meter store work outcome after)
    (within : State.Within .all ⟨store, meter, work, []⟩) :
    State.Within .all ⟨after, meter, .passing outcome, []⟩ := by
  obtain ⟨steps, reached⟩ := brings
  exact reached ▸ @State.Within.run context _ within steps

/-- Without a level left, an expression is not evaluated one level deeper. -/
theorem Brings.refused {body : ExprId} (full : ¬ meter.current < meter.limit) :
    Brings context meter store (.enter body env) (.error (.fault (.depthExceeded meter.limit))) store := by
  refine .step ?_ (.refl _)
  simp [State.step, Context.enterStep, DepthMeter.enter?, full]
  rfl

/-- What is evaluated in one step is given. -/
theorem Brings.of_atOnce {value : Nat → Value} {next : Nat → Nat}
    (atOnce : context.AtOnce id env value next) (store : Store) :
    Brings context meter store (.eval id env) (.ok (value store.closures))
      (store.counting (next store.closures)) :=
  .step (atOnce.evaluates store meter []) (.refl _)

/-- A variable is evaluated by asking for what it is bound to. -/
theorem Brings.eval_ident {name : Name} {bound : ThunkId} (node : context.code.expr id = .ident name)
    (known : env.lookup name = some bound) :
    Brings context meter store (.eval id env) outcome after ↔
      Brings context meter store (.force bound) outcome after := by
  have stepped : State.step context ⟨store, meter, .eval id env, []⟩ = ⟨store, meter, .force bound, []⟩ := by
    simp only [State.step, Context.evalStep, node, known]
  -- Evaluating the variable is one step, after which both are the same work.
  constructor
  · intro brings
    have rest := brings.of_step (Control.busy rfl)
    rwa [stepped] at rest
  · exact fun brings => .step stepped brings

/-! Asking for an expression that has been put off as it is. -/

section

/-- A store with an expression that has been put off as it is, while it is evaluated. -/
def Store.evaluating (store : Store) (id : ExprId) (env : Env) : Store :=
  (store.suspend (.expr id env)).2.set store.cells.size .inProgress

/-- No computation that was there is disturbed. -/
theorem Store.evaluating_extends (store : Store) (id : ExprId) (env : Env) :
    store.Extends (store.evaluating id env) := by
  refine ⟨?_, fun other inside => ?_⟩
  · rw [Store.evaluating, Store.set_size]
    exact (store.suspend_extends _).1
  · rw [Store.evaluating, Store.cell_set_of_ne (Nat.ne_of_lt inside)]
    exact (store.suspend_extends _).2 other inside

/-- The expression has a computation of its own, behind all that were there. -/
theorem Store.lt_evaluating_size (store : Store) (id : ExprId) (env : Env) :
    store.cells.size < (store.evaluating id env).cells.size := by
  rw [Store.evaluating, Store.set_size, Store.suspend, Store.alloc_size]
  exact Nat.lt_succ_self _

/-- Putting the expression off and beginning with it calls no function of the host. -/
theorem Store.evaluating_calls (store : Store) (id : ExprId) (env : Env) :
    (store.evaluating id env).calls = store.calls :=
  rfl

/-- One level deeper there is a level less. -/
theorem DepthMeter.below_one_room (meter : DepthMeter) :
    (meter.below 1).limit + meter.current ≤ meter.limit + (meter.below 1).current := by
  simp [DepthMeter.below]

/-- Where there is a level left, the expression is evaluated, and its outcome is kept. -/
theorem brings_plain_iff (inside : meter.current < meter.limit) :
    Brings context meter (store.suspend (.expr id env)).2 (.force store.cells.size) outcome after ↔
      ∃ between, Brings context (meter.below 1) (store.evaluating id env) (.eval id env) outcome between ∧
        after = between.set store.cells.size (.ended outcome) := by
  -- The cell of the new computation waits, so asking for it goes one level deeper and keeps what
  -- comes of it.
  have waits := store.suspend_cell (.expr id env)
  constructor
  · exact fun brings => brings.to_entered waits inside
  · rintro ⟨between, brings, rfl⟩
    exact (brings.of_entered waits inside).2

/-- An expression that needs no evaluation ends as the computation that is made for it at once. -/
theorem brings_plain_of_atOnce {value : Nat → Value} {next : Nat → Nat}
    (atOnce : context.AtOnce id env value next) (inside : meter.current < meter.limit) :
    Brings context meter (store.suspend (.expr id env)).2 (.force store.cells.size)
      (.ok (value store.closures)) ((store.counting (next store.closures)).ready (value store.closures)).2 := by
  refine (brings_plain_iff inside).mpr ⟨_, Brings.of_atOnce atOnce (store.evaluating id env), ?_⟩
  have settled : ((store.evaluating id env).counting (next store.closures)).set store.cells.size
      (.forced (value store.closures)) =
        (((store.suspend (.expr id env)).2.counting (next store.closures)).set store.cells.size
          .inProgress).set store.cells.size (.forced (value store.closures)) := rfl
  exact (settled.trans ((Store.set_set _ _ _ _).trans (store.set_alloc _ _ _))).symm

/-- Without a level left, asking for the expression fails for that reason. -/
theorem plain_refused (full : ¬ meter.current < meter.limit) :
    ∃ upset after, Brings context meter (store.suspend (.expr id env)).2 (.force store.cells.size)
      (.error upset) after ∧ upset.Overflows meter.limit :=
  ⟨_, _, .of_work (store.suspend_cell _) (Brings.refused full), rfl⟩

end

/-- Outcomes of the same form, and stores that have what was in an earlier store in the same state. -/
def SameEffect (before : Store) (outcome result : Outcome) (after later : Store) : Prop :=
  ∃ pairs : Pairing, (∀ id < before.cells.size, pairs id id) ∧ Twins pairs after later ∧
    OutcomeTwin pairs outcome result ∧ after.calls = later.calls

/-- What work comes to has the same effect as itself. -/
theorem SameEffect.refl (before : Store) (within : State.Within .all ⟨after, meter, .passing outcome, []⟩)
    (order : before.cells.size ≤ after.cells.size) : SameEffect before outcome outcome after after := by
  refine ⟨.below after.cells.size, fun id inside => ⟨Nat.lt_of_lt_of_le inside order, rfl⟩,
    Store.Within.twins within.store (.refl _), ?_, rfl⟩
  cases outcome with
  | ok value =>
    have known : value.Within .all after.cells.size := within.control
    exact .ok known.twin
  | error upset => exact .error upset

/-- What is asked for through a computation of its own comes to the same, with one computation more. -/
theorem SameEffect.of_twins {before right between : Store} {more : Pairing} (kept : right.calls = before.calls)
    (alone : before.cells.size < right.cells.size)
    (twins : OutcomesTwin (.below before.cells.size) before right own outcome later between more) :
    SameEffect before own outcome later (between.set before.cells.size (.ended outcome)) := by
  obtain ⟨grows, between_twins, outcomes, calls⟩ := twins
  refine ⟨more, fun id inside => grows.keeps id id ⟨inside, rfl⟩, ?_, outcomes, ?_⟩
  · -- The computation that was added is in no pair.
    exact between_twins.set_single (grows.single alone fun id pair => absurd (pair.2 ▸ pair.1) (Nat.lt_irrefl _)) _
  · -- Both have heard the same calls of the host, and the computation that was added calls nothing.
    obtain ⟨heard, left, right⟩ := calls
    rw [Store.set_calls, left, right, kept]

/-! A variable, which shares the computation that it is bound to. -/

section

variable (closed : store.Closed) (bound : env.Within store.cells.size) {name : Name} {target : ThunkId}
  (node : context.code.expr id = .ident name) (known : env.lookup name = some target)
  (inside : meter.current < meter.limit)

include closed bound node known inside

/-- The plain expression asks for the same computation, one level deeper and with one cell more. -/
theorem forced_of_plain
    (brings : Brings context meter (store.suspend (.expr id env)).2 (.force store.cells.size) outcome after)
    (fits : outcome.Fits meter.limit) :
    ∃ own later, Brings context meter store (.force target) own later ∧ SameEffect store own outcome later after := by
  obtain ⟨between, evaluated, rfl⟩ := (brings_plain_iff inside).mp brings
  obtain ⟨more, own, last, forced, same⟩ :=
    (Store.Within.twins closed (store.evaluating_extends id env)).brings_back (.force ⟨bound.lookup known, rfl⟩)
      ((Brings.eval_ident node known).mp evaluated)
  exact ⟨own, last, forced.shift (same.outcomes.fits_iff.mpr fits) meter.below_one_room,
    .of_twins (store.evaluating_calls id env) (store.lt_evaluating_size id env) same⟩

/-- What the variable is bound to has the same outcome one level deeper, or there it needs more levels. -/
theorem plain_of_forced {own : Outcome} {later : Store}
    (brings : Brings context meter store (.force target) own later) :
    (∃ outcome after,
      Brings context meter (store.suspend (.expr id env)).2 (.force store.cells.size) outcome after ∧
        SameEffect store own outcome later after) ∨
      ∃ upset after,
        Brings context meter (store.suspend (.expr id env)).2 (.force store.cells.size) (.error upset) after ∧
          upset.Overflows meter.limit := by
  have asked : State.Within .all ⟨store, meter.below 1, .force target, []⟩ :=
    ⟨closed, bound.lookup known, List.forall_mem_nil _⟩
  have deeper {outcome : Outcome} {last : Store}
      (forced : Brings context (meter.below 1) store (.force target) outcome last) :
      ∃ result after,
        Brings context meter (store.suspend (.expr id env)).2 (.force store.cells.size) result after ∧
          SameEffect store outcome result last after := by
    obtain ⟨more, result, between, evaluated, same⟩ :=
      (Store.Within.twins closed (store.evaluating_extends id env)).brings (.force ⟨bound.lookup known, rfl⟩) forced
    exact ⟨result, _,
      (brings_plain_iff inside).mpr ⟨between, (Brings.eval_ident node known).mpr evaluated, rfl⟩,
      .of_twins (store.evaluating_calls id env) (store.lt_evaluating_size id env) same⟩
  rcases brings.lower asked rfl meter.below_one_room with forced | ⟨upset, other, forced, overflows⟩
  · exact .inl (deeper forced)
  · obtain ⟨result, after, plainly, _, _, _, same, _⟩ := deeper forced
    cases same
    exact .inr ⟨upset, after, plainly, overflows⟩

end

/--
Asking for what the evaluator puts off comes to what asking for the plain expression comes to, and has the
same effect on everything that was there. Only that a level may be missing for the plain expression is left
out.
-/
theorem force_suspend_as_plain (context : Context) {store : Store} (closed : store.Closed) (id : ExprId)
    {env : Env} (bound : env.Within store.cells.size) (meter : DepthMeter) :
    let made := context.suspend store id env
    let plain := store.suspend (.expr id env)
    (∀ outcome after, Brings context meter plain.2 (.force plain.1) outcome after →
      outcome.Fits meter.limit →
      ∃ own later, Brings context meter made.2 (.force made.1) own later ∧
        SameEffect store own outcome later after) ∧
    (∀ own later, Brings context meter made.2 (.force made.1) own later →
      (∃ outcome after, Brings context meter plain.2 (.force plain.1) outcome after ∧
        SameEffect store own outcome later after) ∨
      ∃ upset after, Brings context meter plain.2 (.force plain.1) (.error upset) after ∧
        upset.Overflows meter.limit) := by
  have how := context.suspends store id env
  generalize context.suspend store id env = result at how ⊢
  intro made plain
  -- What the plain expression comes to is within the store after it.
  have plain_within : State.Within .all ⟨plain.2, meter, .force plain.1, []⟩ := by
    have waits : Suspension.Within .all store.cells.size (.expr id env) := ⟨trivial, bound⟩
    have grows := Store.suspend_grows waits
    exact ⟨grows.1.within closed, grows.2, List.forall_mem_nil _⟩
  have reflexive {outcome : Outcome} {after : Store}
      (brings : Brings context meter plain.2 (.force plain.1) outcome after) :
      SameEffect store outcome outcome after after := by
    have within := brings.within plain_within
    exact .refl store within (Nat.le_trans (store.suspend_extends _).1 brings.precedes.1)
  by_cases inside : meter.current < meter.limit
  swap
  · -- Without a level left, the plain expression is not evaluated.
    have fails : ∃ upset after, Brings context meter plain.2 (.force plain.1) (.error upset) after ∧
        upset.Overflows meter.limit := plain_refused inside
    obtain ⟨upset, last, fails, overflows⟩ := fails
    refine ⟨fun outcome after brings fits => ?_, fun _ _ _ => .inr ⟨upset, last, fails, overflows⟩⟩
    obtain ⟨rfl, -⟩ := brings.unique fails
    exact absurd overflows (fits _ rfl)
  cases how with
  | deferred =>
    -- Both are the same computation.
    exact ⟨fun outcome after brings _ => ⟨outcome, after, brings, reflexive brings⟩,
      fun outcome after brings => .inl ⟨outcome, after, brings, reflexive brings⟩⟩
  | @made value next atOnce =>
    -- Once the plain expression has been evaluated, its computation is the one that was made at once.
    have own : Brings context meter made.2 (.force made.1) (.ok (value store.closures)) made.2 :=
      ForcesTo.of_forced ((Store.cell_alloc ..).trans (if_pos rfl))
    have same : Brings context meter plain.2 (.force plain.1) (.ok (value store.closures)) made.2 :=
      brings_plain_of_atOnce atOnce inside
    refine ⟨fun outcome after brings _ => ?_, fun outcome after brings => .inl ?_⟩
    · obtain ⟨rfl, rfl⟩ := brings.unique same
      exact ⟨_, _, own, reflexive same⟩
    · obtain ⟨rfl, rfl⟩ := brings.unique own
      exact ⟨_, _, same, reflexive same⟩
  | shared node known =>
    exact ⟨fun outcome after => forced_of_plain closed bound node known inside,
      fun own later => plain_of_forced closed bound node known inside⟩

end LazyConfig
