import LazyConfig.Proofs.Applying.Passing
import LazyConfig.Proofs.Applying.Ways
import LazyConfig.Proofs.Suspending.Adopted

/-!
Functions applied to any number of arguments. An application that is written comes to what a call comes to with the
same arguments put off before: each argument that is put off when the function before it is known stands for the one
that has been waiting.
-/

namespace LazyConfig

/-- A computation that one store has and an earlier one has not. -/
def Store.New (before after : Store) (id : ThunkId) : Prop :=
  before.cells.size ≤ id ∧ id < after.cells.size

namespace Outcomes

/-- Nothing comes after a failure. -/
theorem fails_bind (upset : Upset) (after : Store) (next : Value → Store → Outcomes) :
    (Outcomes.only (.error upset) after).bind next = .only (.error upset) after := by
  funext outcome last
  refine propext ⟨?_, ?_⟩
  · rintro (⟨other, rfl, same, rfl⟩ | ⟨value, between, ⟨none, -⟩, -⟩)
    · exact ⟨same, rfl⟩
    · exact nomatch none
  · rintro ⟨rfl, rfl⟩
    exact .inl ⟨upset, rfl, rfl, rfl⟩

/-- Work after work after work. -/
theorem bind_assoc (mine : Outcomes) (next last : Value → Store → Outcomes) :
    (mine.bind next).bind last = mine.bind fun value between => (next value between).bind last := by
  funext outcome after
  -- An upset of any part is one of the whole, and values are handed on in the same order on both
  -- sides.
  refine propext ⟨?_, ?_⟩
  · rintro (⟨upset, rfl, ⟨other, same, fails⟩ | ⟨value, between, gives, fails⟩⟩ |
      ⟨value, between, ⟨upset, none, -⟩ | ⟨other, early, gives, then_gives⟩, comes⟩)
    · cases same
      exact .inl ⟨upset, rfl, fails⟩
    · exact .inr ⟨value, between, gives, .inl ⟨upset, rfl, fails⟩⟩
    · exact nomatch none
    · exact .inr ⟨other, early, gives, .inr ⟨value, between, then_gives, comes⟩⟩
  · rintro (⟨upset, rfl, fails⟩ |
      ⟨value, between, gives, ⟨upset, rfl, fails⟩ | ⟨other, late, then_gives, comes⟩⟩)
    · exact .inl ⟨upset, rfl, .inl ⟨upset, rfl, fails⟩⟩
    · exact .inl ⟨upset, rfl, .inr ⟨value, between, gives, fails⟩⟩
    · exact .inr ⟨other, late, .inr ⟨value, between, gives, then_gives⟩, comes⟩

/-- Work after a value that is there. -/
theorem only_bind (value : Value) (store : Store) (next : Value → Store → Outcomes) :
    (Outcomes.only (.ok value) store).bind next = next value store := by
  funext outcome after
  refine propext ⟨?_, fun comes => .inr ⟨value, store, ⟨rfl, rfl⟩, comes⟩⟩
  rintro (⟨upset, rfl, none, -⟩ | ⟨other, between, ⟨same, rfl⟩, comes⟩)
  · exact nomatch none
  · cases same
    exact comes

/-- What work comes to is within the store that it leaves, which has at least some computations. -/
def Known (meter : DepthMeter) (count : Nat) (mine : Outcomes) : Prop :=
  ∀ outcome later, mine outcome later →
    State.Within .all ⟨later, meter, .passing outcome, []⟩ ∧ count ≤ later.cells.size

end Outcomes

variable {context : Context} {low high meter : DepthMeter} {store after : Store} {env : Env} {limit : Nat}
  {outcome : Outcome}

/-- What a state comes to is within the store that it leaves. -/
theorem State.Comes.known {state : State} (comes : state.Comes context meter outcome after) (within : state.Within .all)
    (nested : WellNested state.store state.stack) :
    State.Within .all ⟨after, meter, .passing outcome, []⟩ ∧ state.store.cells.size ≤ after.cells.size := by
  obtain ⟨steps, reached⟩ := comes
  have last := @State.Within.run context _ within steps
  have order := (WellNested.run context steps state nested).2
  rw [reached] at last order
  exact ⟨last, order.1⟩

/-- Work leaves everything within bounds. -/
theorem Brings.known {work : Control} (closed : store.Closed) (within : work.Within .all store.cells.size) :
    Outcomes.Known meter store.cells.size (Brings context meter store work) := by
  intro outcome later brings
  have start : State.Within .all ⟨store, meter, work, []⟩ := ⟨closed, within, List.forall_mem_nil _⟩
  exact State.Comes.known brings start ⟨.nil, nofun, nofun⟩

/-! Calls. -/

namespace Context

/-- What a host gets that calls a value with some arguments. -/
abbrev calls (context : Context) (meter : DepthMeter) (args : List ThunkId) (value : Value) (store : Store) :
    Outcomes :=
  (Request.call value args).comes context {} meter store

theorem calls_nil (value : Value) (store : Store) : context.calls meter [] value store = .only (.ok value) store := by
  have done : State.Comes context meter ⟨store, meter, .give value, [.args []]⟩ (.ok value) store :=
    .step rfl (.refl _)
  exact done.only

/-- The first argument is passed before the others. -/
theorem calls_cons (arg : ThunkId) (rest : List ThunkId) (value : Value) (store : Store) :
    context.calls meter (arg :: rest) value store =
      Outcomes.bind (Brings context meter store (.apply value arg)) (context.calls meter rest) := by
  have goes : State.GoesTo context ⟨store, meter, .give value, [.args (arg :: rest)]⟩
      ⟨store, meter, .apply value arg, [.args rest]⟩ := .step rfl (.refl _)
  exact (goes.comes (State.not_ended rfl)).trans (comes_split (.cons .nil fun _ _ => rfl))

/-- A call with no arguments gives back what it is made of. -/
theorem bind_calls_nil (mine : Outcomes) : mine.bind (context.calls meter []) = mine := by
  funext outcome after
  refine propext ⟨?_, fun comes => ?_⟩
  · rintro (⟨upset, rfl, fails⟩ | ⟨value, between, gives, comes⟩)
    · exact fails
    · rw [calls_nil] at comes
      obtain ⟨rfl, rfl⟩ := comes
      exact gives
  · cases outcome with
    | error upset => exact .inl ⟨upset, rfl, comes⟩
    | ok value => exact .inr ⟨value, after, comes, by rw [calls_nil]; exact ⟨rfl, rfl⟩⟩

/-- A call with more arguments is one of what the call with the first ones gives. -/
theorem calls_append (first last : List ThunkId) (value : Value) (store : Store) :
    context.calls meter (first ++ last) value store =
      (context.calls meter first value store).bind (context.calls meter last) := by
  induction first generalizing value store with
  | nil => rw [List.nil_append, calls_nil, Outcomes.only_bind]
  | cons arg rest ih =>
    rw [List.cons_append, calls_cons, calls_cons, Outcomes.bind_assoc]
    congr 1
    funext value between
    exact ih value between

/-- A call with one argument is an application. -/
theorem calls_single (arg : ThunkId) (value : Value) (store : Store) :
    context.calls meter [arg] value store = Brings context meter store (.apply value arg) := by
  rw [calls_cons, bind_calls_nil]

end Context

/-- Calls leave everything within bounds. -/
theorem Outcomes.Known.bind_calls {count : Nat} {mine : Outcomes} (known : mine.Known meter count) {args : List ThunkId}
    (inside : Inside count args) : (mine.bind (context.calls meter args)).Known meter count := by
  rintro outcome later (⟨upset, rfl, fails⟩ | ⟨value, between, gives, comes⟩)
  · exact known _ _ fails
  · obtain ⟨within, less⟩ := known _ _ gives
    have later_inside : Inside between.cells.size args := fun id member => Nat.lt_of_lt_of_le (inside id member) less
    have state : State.Within .all ⟨between, meter, .give value, [.args args]⟩ :=
      ⟨within.store, within.control, List.forall_mem_singleton.mpr later_inside⟩
    obtain ⟨last, more⟩ := State.Comes.known comes state ⟨.nil, nofun, nofun⟩
    exact ⟨last, Nat.le_trans less more⟩

/-! Applications as they are written. -/

/-- An argument that is put off when the function is known, and one that was put off before. -/
theorem operand_agrees {pairs : Pairing} {between later : Store} {value other : Value} {arg : ExprId} {thunk : ThunkId}
    {spared : ThunkId → Prop} (twins : Twins pairs (context.suspend between arg env).2 later)
    (alone : Spares pairs later spared) (same : ValueTwin pairs value other)
    (paired : pairs (context.suspend between arg env).1 thunk) (closed : later.Closed)
    (within : other.Within .all later.cells.size) (first : low.limit = limit) (second : high.limit = limit) :
    Agrees limit spared pairs (context.suspend between arg env).2 later
      (State.Comes context low ⟨between, low, .give value, [.operand arg env]⟩)
      (Brings context high later (.apply other thunk)) := by
  have inside := (twins.inside _ _ paired).2
  have applies (next : Control) (gives : context.giveStep between low value (.operand arg env) [] =
      ⟨(context.suspend between arg env).2, low, next, []⟩)
      (unfinished : ¬ State.Ended ⟨(context.suspend between arg env).2, low, next, []⟩) :
      State.Comes context low ⟨between, low, .give value, [.operand arg env]⟩ =
        Brings context low (context.suspend between arg env).2 next := by
    have stepped : State.step context ⟨between, low, .give value, [.operand arg env]⟩ =
        ⟨(context.suspend between arg env).2, low, next, []⟩ := gives
    exact (State.GoesTo.step stepped (.refl _)).comes unfinished
  -- A closure goes on with its body on both sides, while any other value is applied in the same
  -- way.
  by_cases closure : ∃ function, value = .closure function
  · obtain ⟨function, rfl⟩ := closure
    cases same with
    | @closure tag count param body function bound binds =>
      -- The body is evaluated at this level, and one level deeper by a host.
      have deeper : Brings context high later (.apply (.closure ⟨count, param, body, bound⟩) thunk) =
          Brings context high later (.enter body (bound.bind param thunk)) :=
        Brings.of_stepped rfl (State.not_ended rfl)
      rw [applies (.eval body (function.bind param (context.suspend between arg env).1)) rfl (State.not_ended rfl),
        deeper]
      have agree : Agrees limit spared pairs (context.suspend between arg env).2 later
          (Brings context low (context.suspend between arg env).2
            (.eval body (function.bind param (context.suspend between arg env).1)))
          (Brings context (high.below 1) later (.eval body (bound.bind param thunk))) :=
        .of_twins twins alone (.eval body (EnvTwin.bind binds paired param)) rfl closed
          ⟨trivial, Env.Within.bind within.2 inside⟩ first second
      exact agree.cut .same (second ▸ enter_cut body)
  · have gives : context.giveStep between low value (.operand arg env) [] =
        ⟨(context.suspend between arg env).2, low, .apply value (context.suspend between arg env).1, []⟩ := by
      cases value with
      | closure function => exact absurd ⟨function, rfl⟩ closure
      | _ => rfl
    rw [applies (.apply value (context.suspend between arg env).1) gives (State.not_ended rfl)]
    exact .of_twins twins alone (.apply same paired) rfl closed ⟨within, inside⟩ first second

section

variable {pairs : Pairing} {left start final : Store} {called : Outcomes} {base id : ExprId} {args rest : List ExprId}

/-- Failures of a function fall through its operand. -/
theorem FallsThrough.operand (arg : ExprId) (env : Env) : FallsThrough context meter [.operand arg env] :=
  .cons .nil fun _ _ => rfl

/-- An application evaluates its function one level deeper, and then applies it. -/
theorem brings_apply {func arg : ExprId} (node : context.code.expr id = .apply func arg) :
    Brings context meter store (.eval id env) =
      Outcomes.bind (Brings context meter store (.enter func env)) fun value between =>
        State.Comes context meter ⟨between, meter, .give value, [.operand arg env]⟩ := by
  have first : State.step context ⟨store, meter, .eval id env, []⟩ =
      ⟨store, meter, .enter func env, [.operand arg env]⟩ := by
    simp only [State.step, Context.evalStep, node]
  rw [Brings.of_stepped first (State.not_ended rfl), comes_split (.operand arg env)]

/-- A call with one more argument is an application of what the call without it gives. -/
theorem Outcomes.bind_calls_last (mine : Outcomes) (args : List ThunkId) (arg : ThunkId) :
    mine.bind (context.calls meter (args ++ [arg])) =
      (mine.bind (context.calls meter args)).bind fun value store => Brings context meter store (.apply value arg) := by
  rw [Outcomes.bind_assoc]
  congr 1
  funext value store
  rw [Context.calls_append]
  congr 1
  funext value store
  exact Context.calls_single arg value store

/-- What was put off last and is left alone, beginning with some of it. -/
theorem Meets.leaves {more : Pairing} {between later base made : Store} {outcome result : Outcome}
    (meets : Meets (base.New final) pairs left final outcome result between later more) (further : made.Extends final) :
    more.Leaves later base made := by
  intro image least most
  have kept : base.New final image := ⟨least, Nat.lt_of_lt_of_le most further.1⟩
  obtain ⟨inside, single⟩ := meets.alone image kept
  exact ⟨inside, (meets.same image kept).trans (further.2 image most), single⟩

/-- What was put off after what is adopted is left alone. -/
theorem Pairing.Adopts.spares {more : Pairing} {right base : Store} {made kept : ThunkId × Store}
    (adopts : pairs.Adopts right base made kept more) (alone : Spares pairs right (base.New final))
    (grown : base.Extends kept.2) : Spares more right (kept.2.New final) := by
  intro image spared
  obtain ⟨inside, single⟩ := alone image ⟨Nat.le_trans grown.1 spared.1, spared.2⟩
  refine ⟨inside, fun id paired => ?_⟩
  rcases adopts.fresh id image paired with before | ⟨-, less⟩
  · exact single id before
  · exact absurd less (Nat.not_lt.mpr spared.1)

/--
Applying an expression to one argument after another agrees with calls that get what the arguments have been put off
as, if evaluating the expression agrees with what is called.
-/
theorem applied_agrees (applies : context.code.Applies base args id)
    (reaches : (context.suspendAll env (args ++ rest) start).2 = final) (binds : EnvTwin pairs env env)
    (agrees : ∀ low : DepthMeter, low.limit = limit →
      Agrees limit (start.New final) pairs left final (Brings context low left (.eval base env)) called)
    (known : called.Known high final.cells.size) (closed : start.Closed) (bound : env.Within start.cells.size)
    (second : high.limit = limit) (low : DepthMeter) (first : low.limit = limit) :
    let put := context.suspendAll env args start
    Agrees limit (put.2.New final) pairs left final (Brings context low left (.eval id env))
      (called.bind (context.calls high put.1)) := by
  -- By induction on the arguments, the last of which is applied to what the others have come to.
  induction applies generalizing rest low with
  | none =>
    intro put
    rw [show put.1 = [] from rfl, Context.bind_calls_nil]
    exact agrees low first
  | @more args func arg id applies node ih =>
    rw [List.append_assoc] at reaches
    have inner := ih reaches (low.below 1) first
    have whole : context.suspendAll env (args ++ [arg]) start =
        ((context.suspendAll env args start).1 ++ [(context.suspend (context.suspendAll env args start).2 arg env).1],
          (context.suspend (context.suspendAll env args start).2 arg env).2) :=
      context.suspendAll_append env args [arg] start
    rw [← List.append_assoc, context.suspendAll_append, whole] at reaches
    obtain ⟨-, -, put_inside⟩ := @suspendAll_known context start env closed bound args
    rw [whole]
    generalize context.suspendAll env args start = put at inner put_inside reaches ⊢
    dsimp only at inner ⊢
    -- The argument is put off after the others, and before what is put off for the rest.
    have grown := context.suspend_extends put.2 arg env
    have further : (context.suspend put.2 arg env).2.Extends final :=
      reaches ▸ context.suspendAll_extends env rest (context.suspend put.2 arg env).2
    have put_known : (called.bind (context.calls high put.1)).Known high final.cells.size :=
      known.bind_calls fun id member => Nat.lt_of_lt_of_le (put_inside .seq id member) (grown.trans further).1
    rw [Outcomes.bind_calls_last, brings_apply node]
    have later_new (image : ThunkId) (kept : (context.suspend put.2 arg env).2.New final image) :
        put.2.New final image := ⟨Nat.le_trans grown.1 kept.1, kept.2⟩
    refine (inner.cut (first ▸ enter_cut func) .same).bind later_new ?_
    intro more value other between later meets values _ gives
    obtain ⟨within, -⟩ := put_known _ _ gives
    obtain ⟨most, adopts⟩ := meets.twins.adopts_suspend arg (agree_mono meets.keeps binds) (meets.leaves further)
    have agree := operand_agrees adopts.twins (adopts.spares meets.alone grown) (values.mono adopts.keeps) adopts.paired
      within.store within.control first second
    exact agree.earlier adopts.keeps (context.suspend_calls between arg env).symm

end

end LazyConfig
