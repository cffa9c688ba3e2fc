import LazyConfig.Proofs.Applying.Calls
import LazyConfig.Proofs.Deepening.Again
import LazyConfig.Proofs.Suspending.Plainly

/-!
A primitive that is written with all its arguments, one that is applied to some of them and one that a host calls
come to the same. Sequences are evaluated in two ways for that: where they are written with both operands the
last one is not put off.
-/

namespace LazyConfig

variable {context : Context} {low high meter : DepthMeter} {store : Store} {env : Env} {op : Builtin} {limit : Nat}

/-! A sequence of two expressions, and of what they are put off as. -/

/--
An expression of the first store has been put off in the second store, and nothing there asks for it but the
work to come.
-/
structure Waiting (context : Context) (spared : ThunkId → Prop) (pairs : Pairing) (left right : Store)
    (id : ExprId) (env : Env) (thunk : ThunkId) : Prop where
  put_off : PutOff context pairs right id env thunk
  twins : Twins pairs left right
  alone : Spares pairs right spared
  kept : (∀ first, ¬ pairs first thunk) → spared thunk
  binds : EnvTwin pairs env env
  closed : right.Closed
  bound : env.Within right.cells.size

namespace Waiting

variable {spared : ThunkId → Prop} {pairs more : Pairing} {left right between last : Store} {id : ExprId}
  {thunk : ThunkId} {value other : Value}

/-- What waits still waits after other work. -/
theorem later (waiting : Waiting context spared pairs left right id env thunk)
    (meets : Meets spared pairs left right (.ok value) (.ok other) between last more) {work : Control}
    (known : work.Within .all right.cells.size) (brings : Brings context meter right work (.ok other) last) :
    Waiting context spared more between last id env thunk := by
  have within := brings.within ⟨waiting.closed, known, List.forall_mem_nil _⟩
  refine ⟨waiting.put_off.stays meets.keeps fun single => ?_, meets.twins, meets.alone, fun single => ?_,
    agree_mono meets.keeps waiting.binds, within.store, waiting.bound.grow brings.precedes.1⟩
  · have kept := waiting.kept single
    exact ⟨meets.same thunk kept, (meets.alone thunk kept).2⟩
  · exact waiting.kept fun first paired => single first (meets.keeps _ _ paired)

/-- Evaluating what waits agrees with asking for it. -/
theorem agrees (waiting : Waiting context spared pairs left right id env thunk) (first : low.limit = limit)
    (second : high.limit = limit) :
    Agrees limit (fun _ => False) pairs left right (Brings context low left (.eval id env))
      (Brings context high right (.force thunk)) :=
  waiting.put_off.agrees waiting.twins waiting.binds nofun (fun none => none) waiting.closed waiting.bound first second

end Waiting

/-- Work that goes on with an expression, and work that goes on with what it was put off as. -/
theorem then_agrees {pairs : Pairing} {left right : Store} {spared : ThunkId → Prop} {second : ExprId}
    {thunk : ThunkId} {work other : Control} (waiting : Waiting context spared pairs left right second env thunk)
    (works : Agrees limit spared pairs left right (Brings context low left work) (Brings context high right other))
    (known : other.Within .all right.cells.size) (first : low.limit = limit) (last : high.limit = limit) :
    Agrees limit (fun _ => False) pairs left right
      (State.Comes context low ⟨left, low, work, [.thenEval second env]⟩)
      (State.Comes context high ⟨right, high, other, [.thenForce thunk]⟩) := by
  rw [comes_above (fun _ => .eval second env) .nil (fun _ _ => rfl) (fun _ _ => rfl),
    comes_above (fun _ => .force thunk) .nil (fun _ _ => rfl) (fun _ _ => rfl)]
  refine works.bind (fun _ none => none.elim) fun more value image between later meets same gives brings => ?_
  exact (waiting.later meets known brings).agrees first last

/-- What is put off and shared with nothing is new. -/
theorem le_suspend {id : ExprId} {count : Nat} (bound : env.Within count)
    (single : ∀ first, ¬ Pairing.below count first (context.suspend store id env).1) :
    store.cells.size ≤ (context.suspend store id env).1 := by
  have how := context.suspends store id env
  generalize context.suspend store id env = result at how single ⊢
  cases how with
  | shared node known => exact absurd ⟨bound.lookup known, rfl⟩ (single _)
  | deferred => exact Nat.le_refl _
  | made atOnce => exact Nat.le_refl _

section

variable {first second : ExprId} (closed : store.Closed) (bound : env.Within store.cells.size)
  (least : low.limit = limit) (most : high.limit = limit)
include closed bound least most

/-- The operands of a sequence, of which the first is evaluated and the second waits. -/
theorem operands_agree :
    let made := context.suspend store first env
    let last := context.suspend made.2 second env
    ∃ spared, Waiting context spared (.below store.cells.size) store last.2 second env last.1 ∧
      Control.Within .all last.2.cells.size (.force made.1) ∧
      Agrees limit spared (.below store.cells.size) store last.2 (Brings context low store (.enter first env))
        (Brings context high last.2 (.force made.1)) := by
  intro made last
  have put {start : Store} (id : ExprId) (bound : env.Within start.cells.size) :
      start.Grows .all (context.suspend start id env).2 ∧
        (context.suspend start id env).1 < (context.suspend start id env).2.cells.size :=
    Context.suspend_grows Bounds.all_fits trivial bound
  obtain ⟨grows, here⟩ := put first bound
  have between := bound.grow grows.size
  obtain ⟨more, there⟩ := put second between
  have all := grows.trans more
  have twins : Twins (.below store.cells.size) store last.2 := Store.Within.twins closed all.extended
  have binds : EnvTwin (.below store.cells.size) env env := bound.twin
  -- The second operand is left alone while the first is worked out, unless it is a variable and shared.
  let spared : ThunkId → Prop := fun id => id = last.1 ∧ ∀ one, ¬ Pairing.below store.cells.size one id
  have alone : Spares (.below store.cells.size) last.2 spared := by
    rintro _ ⟨rfl, single⟩
    exact ⟨there, single⟩
  have apart : ¬ spared made.1 := by
    rintro ⟨same, single⟩
    have later := le_suspend bound (same ▸ single)
    exact absurd (same ▸ here) (Nat.not_lt.mpr later)
  have waits : PutOff context (.below store.cells.size) last.2 second env last.1 :=
    .of_suspend context grows.size bound
  have put_off : PutOff context (.below store.cells.size) last.2 first env made.1 :=
    (PutOff.of_suspend context (Nat.le_refl _) bound).stays (fun _ _ paired => paired)
      fun single => ⟨more.extended.2 _ here, single⟩
  have evaluates : Agrees limit spared (.below store.cells.size) store last.2
      (Brings context (low.below 1) store (.eval first env)) (Brings context high last.2 (.force made.1)) :=
    put_off.agrees twins binds alone apart (all.within closed) (bound.grow all.size) least most
  exact ⟨spared, ⟨waits, twins, alone, fun single => ⟨rfl, single⟩, binds, all.within closed, bound.grow all.size⟩,
    Nat.lt_of_lt_of_le here more.size, evaluates.cut (least ▸ enter_cut first) .same⟩

/-- A sequence that is evaluated where it is written, and one that runs on what its operands were put off as. -/
theorem seq_agrees {whole : ExprId} (node : context.code.expr whole = .builtin .seq [first, second]) :
    let made := context.suspendAll env [first, second] store
    Agrees limit (fun _ => False) (.below store.cells.size) store made.2
      (Brings context low store (.eval whole env)) (Brings context high made.2 (.run .seq made.1)) := by
  intro made
  -- Both evaluate the first operand; they differ in how the second one is come to.
  obtain ⟨spared, waiting, known, works⟩ :=
    @operands_agree context low high store env limit first second closed bound least most
  have stepped : State.step context ⟨store, low, .eval whole env, []⟩ =
      ⟨store, low, .enter first env, [.thenEval second env]⟩ := by
    simp only [State.step, Context.evalStep, node]
  have ran : State.step context ⟨made.2, high, .run .seq made.1, []⟩ =
      ⟨made.2, high, .force (context.suspend store first env).1,
        [.thenForce (context.suspend (context.suspend store first env).2 second env).1]⟩ := rfl
  rw [Brings.of_stepped stepped (State.not_ended rfl),
    Brings.of_stepped ran (State.not_ended rfl)]
  exact then_agrees waiting works known least most

/-- The same for a sequence whose first operand is evaluated in all its parts. -/
theorem deepSeq_agrees {whole : ExprId} (node : context.code.expr whole = .builtin .deepSeq [first, second]) :
    let made := context.suspendAll env [first, second] store
    Agrees limit (fun _ => False) (.below store.cells.size) store made.2
      (Brings context low store (.eval whole env)) (Brings context high made.2 (.run .deepSeq made.1)) := by
  intro made
  obtain ⟨spared, waiting, known, works⟩ :=
    @operands_agree context low high store env limit first second closed bound least most
  have stepped : State.step context ⟨store, low, .eval whole env, []⟩ =
      ⟨store, low, .enter first env, [.deepen, .thenEval second env]⟩ := by
    simp only [State.step, Context.evalStep, node]
  have ran : State.step context ⟨made.2, high, .run .deepSeq made.1, []⟩ =
      ⟨made.2, high, .force (context.suspend store first env).1,
        [.deepen, .thenForce (context.suspend (context.suspend store first env).2 second env).1]⟩ := rfl
  rw [Brings.of_stepped stepped (State.not_ended rfl),
    Brings.of_stepped ran (State.not_ended rfl),
    comes_above (fun value => .deepen [value] value) (.cons .nil fun _ _ => rfl) (fun _ _ => rfl) (fun _ _ => rfl),
    comes_above (fun value => .deepen [value] value) (.cons .nil fun _ _ => rfl) (fun _ _ => rfl) (fun _ _ => rfl)]
  refine works.bind (fun _ none => none.elim) fun more value other between later meets same gives brings => ?_
  -- In both stores the value of the first operand is evaluated in all its parts before the second operand.
  have waits := waiting.later meets known brings
  have reached : State.Within .all ⟨later, high, .give other, []⟩ :=
    brings.within ⟨waiting.closed, known, List.forall_mem_nil _⟩
  have value_known : other.Within .all later.cells.size := reached.control
  have deep_known : Control.Within .all later.cells.size (.deepen [other] other) :=
    ⟨List.forall_mem_singleton.mpr value_known, value_known⟩
  have deepens : Agrees limit spared more between later (Brings context low between (.deepen [value] value))
      (Brings context high later (.deepen [other] other)) :=
    .of_twins waits.twins waits.alone (.deepen (.cons same .nil) same) rfl waits.closed deep_known least most
  exact then_agrees waits deepens deep_known least most

end

/-! All primitives, on all ways. -/

section

variable {args : List ExprId} (closed : store.Closed) (bound : env.Within store.cells.size)
include closed bound

/-- What is put off leaves a store that refers to itself only. -/
theorem suspendAll_known (args : List ExprId) :
    store.Grows .all (context.suspendAll env args store).2 ∧ (context.suspendAll env args store).2.Closed ∧
      ∀ op, Control.Within .all (context.suspendAll env args store).2.cells.size
        (.run op (context.suspendAll env args store).1) := by
  obtain ⟨grows, inside⟩ := @Context.suspendAll_grows .all context store env Bounds.all_fits args
    (fun _ _ => trivial) bound
  exact ⟨grows, grows.within closed, fun _ => inside⟩

variable (least : low.limit = limit) (most : high.limit = limit)
include least most

/-- A primitive that runs on its arguments agrees with itself on another level. -/
theorem run_agrees (op : Builtin) (args : List ExprId) :
    let made := context.suspendAll env args store
    Agrees limit (fun _ => False) (.below store.cells.size) store made.2 (Brings context low made.2 (.run op made.1))
      (Brings context high made.2 (.run op made.1)) := by
  intro made
  obtain ⟨grows, known, inside⟩ := @suspendAll_known context store env closed bound args
  have twins : Twins (.below made.2.cells.size) made.2 made.2 := Store.Within.twins known (.refl _)
  have agree : Agrees limit (fun _ => False) (.below made.2.cells.size) made.2 made.2
      (Brings context low made.2 (.run op made.1)) (Brings context high made.2 (.run op made.1)) :=
    .of_twins twins (fun _ none => none.elim) (.run op (inside op).twin) rfl known (inside op) least most
  refine agree.earlier (fun id other paired => ⟨Nat.lt_of_lt_of_le paired.1 grows.size, paired.2⟩) ?_
  exact (context.suspendAll_calls env args store).symm

/-- A primitive that is written with all its arguments agrees with one that runs on what they are put off as. -/
theorem full_agrees {whole : ExprId} (node : context.code.expr whole = .builtin op args)
    (full : args.length = op.arity) :
    let made := context.suspendAll env args store
    Agrees limit (fun _ => False) (.below store.cells.size) store made.2 (Brings context low store (.eval whole env))
      (Brings context high made.2 (.run op made.1)) := by
  intro made
  by_cases seq : op = .seq
  · subst seq
    obtain ⟨first, second, rfl⟩ := List.length_eq_two.mp full
    exact seq_agrees closed bound least most node
  by_cases deepSeq : op = .deepSeq
  · subst deepSeq
    obtain ⟨first, second, rfl⟩ := List.length_eq_two.mp full
    exact deepSeq_agrees closed bound least most node
  rw [brings_full node full seq deepSeq]
  exact run_agrees closed bound least most op args

end

/-! The three ways, two by two. -/

theorem DepthMeter.below_limit (meter : DepthMeter) : (meter.below 1).limit = meter.limit :=
  rfl

section

variable {args first rest : List ExprId} {whole head split : ExprId} (closed : store.Closed)
  (bound : env.Within store.cells.size)
include closed bound

theorem written_agrees_called (node : context.code.expr whole = .builtin op args) (full : args.length = op.arity) :
    let put := context.suspendAll env args store
    Agrees meter.limit (fun _ => False) (.below store.cells.size) store put.2
      (Brings context meter store (.enter whole env)) (Brings context meter put.2 (.run op put.1)) := by
  intro put
  have agree : Agrees meter.limit (fun _ => False) (.below store.cells.size) store put.2
      (Brings context (meter.below 1) store (.eval whole env)) (Brings context meter put.2 (.run op put.1)) :=
    full_agrees closed bound meter.below_limit (Eq.refl meter.limit) node full
  exact agree.cut (enter_cut whole) .same

variable (few : context.code.expr head = .builtin op first) (applies : context.code.Applies head rest split)
  (others : rest ≠ []) (full : (first ++ rest).length = op.arity)
include few applies others full

omit closed bound in
/-- A primitive that is applied to the arguments that it lacks runs one level deeper, or runs out of levels. -/
theorem applied_runs :
    let put := context.suspendAll env (first ++ rest) store
    Outcomes.Cut meter.limit (Brings context (meter.below 1) put.2 (.run op put.1))
      (Brings context meter store (.enter split env)) := by
  intro put
  have parts : Outcomes.Cut meter.limit (Brings context (meter.below 1) put.2 (.run op put.1))
      (Brings context (meter.below 1) store (.eval split env)) :=
    applied_cut few applies others full (meter.below 1)
  exact parts.trans (enter_cut split)

theorem applied_agrees_called :
    let put := context.suspendAll env (first ++ rest) store
    Agrees meter.limit (fun _ => False) (.below store.cells.size) store put.2
      (Brings context meter store (.enter split env)) (Brings context meter put.2 (.run op put.1)) := by
  intro put
  have agree : Agrees meter.limit (fun _ => False) (.below store.cells.size) store put.2
      (Brings context (meter.below 1) put.2 (.run op put.1)) (Brings context meter put.2 (.run op put.1)) :=
    run_agrees closed bound meter.below_limit (Eq.refl meter.limit) op (first ++ rest)
  exact agree.cut (applied_runs few applies others full) .same

theorem written_agrees_applied (node : context.code.expr whole = .builtin op (first ++ rest)) :
    Agrees meter.limit (fun _ => False) (.below store.cells.size) store
      (context.suspendAll env (first ++ rest) store).2 (Brings context meter store (.enter whole env))
      (Brings context meter store (.enter split env)) := by
  have agree : Agrees meter.limit (fun _ => False) (.below store.cells.size) store
      (context.suspendAll env (first ++ rest) store).2 (Brings context (meter.below 1) store (.eval whole env))
      (Brings context (meter.below 1) _ (.run op (context.suspendAll env (first ++ rest) store).1)) :=
    full_agrees closed bound meter.below_limit meter.below_limit node full
  exact agree.cut (enter_cut whole) (applied_runs few applies others full)

end

/-- What a request comes to that is made on a given level. -/
def Request.comes (context : Context) (settings : Settings) (meter : DepthMeter) (request : Request)
    (store : Store) : Outcomes :=
  State.Comes context meter ⟨store, meter, request.control, request.frames settings⟩

/-- What work comes to when all parts of its value are evaluated as well, if the settings say so. -/
def Outcomes.finished (context : Context) (settings : Settings) (meter : DepthMeter) (mine : Outcomes) : Outcomes :=
  if settings.deepForce then
    mine.bind fun value between => (Request.deepen value).comes context settings meter between
  else mine

variable {settings : Settings}

/-- The value of an expression, with all its parts if the settings say so. -/
theorem evaluate_comes (id : ExprId) :
    (Request.evaluate id env).comes context settings meter store =
      Outcomes.finished context settings meter (Brings context meter store (.enter id env)) := by
  unfold Outcomes.finished Request.comes
  simp only [Request.frames]
  split
  · exact comes_above (fun value => .deepen [value] value) .nil (fun _ _ => rfl) (fun _ _ => rfl)
  · rfl

/-- Two outcomes of work in one store: the same value or failure, the same data and the same effect. -/
structure SameAnswer (deep : Bool) (before : Store) (outcome result : Outcome) (after later : Store) : Prop where
  effect : SameEffect before outcome result after later
  data : ∀ value other, outcome = .ok value → result = .ok other → SameData deep after later value other

/-- Two ways to go on from a store come to the same answer, unless one of them runs out of levels. -/
structure SameWay (limit : Nat) (deep : Bool) (before : Store) (mine others : Outcomes) : Prop where
  forth : ∀ outcome after, mine outcome after → outcome.Fits limit →
    (∃ result later, others result later ∧ SameAnswer deep before outcome result after later) ∨
      others.RunsOut limit
  back : ∀ result later, others result later → result.Fits limit →
    (∃ outcome after, mine outcome after ∧ SameAnswer deep before outcome result after later) ∨
      mine.RunsOut limit

/-- Work that agrees agrees also when all parts of its value are evaluated. -/
theorem Agrees.finished {pairs : Pairing} {left right : Store} {mine others : Outcomes}
    (agrees : Agrees meter.limit (fun _ => False) pairs left right mine others)
    (known : ∀ outcome later, others outcome later → State.Within .all ⟨later, meter, .passing outcome, []⟩) :
    Agrees meter.limit (fun _ => False) pairs left right (mine.finished context settings meter)
      (others.finished context settings meter) := by
  unfold Outcomes.finished
  split
  · refine agrees.bind (fun _ none => none) fun more value other between later meets same gives brings => ?_
    have within := known _ _ brings
    have value_known : other.Within .all later.cells.size := within.control
    have deep_known : Control.Within .all later.cells.size (.deepen [other] other) :=
      ⟨List.forall_mem_singleton.mpr value_known, value_known⟩
    exact .of_twins meets.twins meets.alone (.deepen (.cons same .nil) same) rfl within.store deep_known rfl rfl
  · exact agrees

/-- All parts of the value are evaluated, if the settings ask for that. -/
theorem Outcomes.finished_whole {mine : Outcomes} {value : Value} {after : Store}
    (comes : mine.finished context settings meter (.ok value) after) (deep : settings.deepForce = true) :
    ∃ data, after.Holds value data := by
  rw [Outcomes.finished, if_pos deep] at comes
  rcases comes with ⟨upset, same, -⟩ | ⟨first, between, -, steps, ran⟩
  · exact nomatch same
  · have ended : State.run context (steps + 1) ⟨between, meter, .deepen [first] first, []⟩ =
        ⟨after, meter, .done (.value value), []⟩ := by
      rw [State.run_last]
      exact congrArg (State.step context) ran
    obtain ⟨rfl, whole⟩ := State.deepen_ends (.nil between) ended
    exact whole

/-- Work in stores that were the same for the host agrees in what can be told apart. -/
theorem Agrees.sameWay {right : Store} {mine others : Outcomes}
    (agrees : Agrees meter.limit (fun _ => False) (.below store.cells.size) store right
      (mine.finished context settings meter) (others.finished context settings meter))
    (calls : right.calls = store.calls) :
    SameWay meter.limit settings.deepForce store (mine.finished context settings meter)
      (others.finished context settings meter) := by
  -- The two answers are told apart only by what the host can ask of them.
  have answer {outcome result : Outcome} {after later : Store} {more : Pairing}
      (comes : mine.finished context settings meter outcome after)
      (meets : Meets (fun _ => False) (.below store.cells.size) store right outcome result after later more) :
      SameAnswer settings.deepForce store outcome result after later := by
    obtain ⟨noted, first, second⟩ := meets.calls
    refine ⟨⟨more, fun id inside => meets.keeps id id ⟨inside, rfl⟩, meets.twins, meets.outcomes,
      by rw [first, second, calls]⟩, ?_⟩
    rintro value other rfl rfl
    obtain ⟨same⟩ : OutcomeTwin more (.ok value) (.ok other) := meets.outcomes
    refine ⟨same.kind, fun data part holds also => (holds.twin meets.twins same).unique also, fun deep => ?_⟩
    obtain ⟨data, holds⟩ := Outcomes.finished_whole comes deep
    exact ⟨data, holds, holds.twin meets.twins same⟩
  constructor
  · intro outcome after comes fits
    exact (agrees.forth _ _ comes fits).imp_left
      fun ⟨more, result, later, others, meets⟩ => ⟨result, later, others, answer comes meets⟩
  · intro result later comes fits
    exact (agrees.back _ _ comes fits).imp_left
      fun ⟨more, outcome, after, mine, meets⟩ => ⟨outcome, after, mine, answer mine meets⟩

/-- Evaluating an expression leaves everything within bounds. -/
theorem enter_known (closed : store.Closed) (bound : env.Within store.cells.size) (id : ExprId) (outcome : Outcome)
    (later : Store) (brings : Brings context meter store (.enter id env) outcome later) :
    State.Within .all ⟨later, meter, .passing outcome, []⟩ :=
  brings.within ⟨closed, ⟨trivial, bound⟩, List.forall_mem_nil _⟩

/-- The code of `%seq% 1 2` and of `(%seq% 1) 2`. -/
def twoSequences : Code where
  exprs := #[.int 1, .int 2, .builtin .seq [0, 1], .builtin .seq [0], .apply 3 1]

end LazyConfig
