import LazyConfig.Proofs.ByName.Sessions

/-!
The order in which computations are asked for does not matter. Whatever was evaluated before, a
computation comes to what its promise comes to by name, and a promise comes to one thing only.
-/

namespace LazyConfig

/-- A request of an evaluator of a program has an answer, whatever its settings and the time given. -/
def RepliesWith (context : Context) (store : Store) (request : Request) (reply : Reply Value) : Prop :=
  ∃ settings fuel, Evaluator.perform ⟨context, settings⟩ fuel request store = some reply

/-- The limit of levels was too low for a request. -/
def Overflows : Except Upset Value → Prop
  | .error (.error failure) => failure.fault.variant = .stackOverflow
  | _ => False

/-- Two values of one outermost form; values without parts are the same. -/
inductive SameForm : Value → Value → Prop
  | int (value : Int64) : SameForm (.int value) (.int value)
  | float (value : Float) : SameForm (.float value) (.float value)
  | bool (value : Bool) : SameForm (.bool value) (.bool value)
  | str (text : String) : SameForm (.str text) (.str text)
  | list (items others : LazyList) : SameForm (.list items) (.list others)
  | record {record other : Record} (names : record.names = other.names) :
    SameForm (.record record) (.record other)
  | closure {function other : Closure} (param : function.param = other.param)
    (body : function.body = other.body) : SameForm (.closure function) (.closure other)
  | builtin (op : Builtin) {held others : List ThunkId} (count : held.length = others.length) :
    SameForm (.builtin op held) (.builtin op others)

/-- Two requests both end with a value, or both fail for a reason of the same kind. -/
inductive SameOutcome (same : Value → Value → Prop) : Except Upset Value → Except Upset Value → Prop
  | ok {value other : Value} (alike : same value other) : SameOutcome same (.ok value) (.ok other)
  | error {failure other : EvalError} (kind : failure.fault.variant = other.fault.variant) :
    SameOutcome same (.error (.error failure)) (.error (.error other))

/--
Two values, each in a store of its own, that cannot be told apart: they have one outermost form, and when
all their parts are evaluated, both have the same data or both fail for a reason of the same kind.
-/
structure Alike (context : Context) (left right : Store) (value other : Value) : Prop where
  form : SameForm value other
  deep : ∀ first second, RepliesWith context left (.deepen value) first →
    RepliesWith context right (.deepen other) second → ¬ Overflows first.result →
    ¬ Overflows second.result → SameOutcome
      (fun whole whole' => ∃ data, first.store.Holds whole data ∧ second.store.Holds whole' data)
      first.result second.result

/-- Outcomes that agree in one way agree in another one. -/
theorem SameOutcome.imp {same other : Value → Value → Prop} {first second : Except Upset Value}
    (outcomes : SameOutcome same first second)
    (follows : ∀ value value', same value value' → other value value') :
    SameOutcome other first second := by
  cases outcomes with
  | ok alike => exact .ok (follows _ _ alike)
  | error kind => exact .error kind

namespace ByName

variable {context : Context} {meaning : Meaning} {store : Store}

/-- What a request comes to that starts with a state by name. -/
inductive Comes (context : Context) (meaning : Meaning) (named : State) :
    Except Upset LazyConfig.Value → Prop
  | value {value : LazyConfig.Value} {result : Value}
    (reaches : Reaches context named ⟨.give result, []⟩)
    (mirrors : ValueMirrors meaning value result) : Comes context meaning named (.ok value)
  | failure {failure : EvalError} (own : failure.fault.ordinary = true)
    (reaches : Reaches context named ⟨.raise failure.fault.variant, []⟩) :
    Comes context meaning named (.error (.error failure))
  | circle {failure : EvalError} (cause : failure.fault = .infiniteRecursion)
    (endless : Diverges context named) : Comes context meaning named (.error (.error failure))
  | overflow {failure : EvalError} (cause : failure.fault.variant = .stackOverflow) :
    Comes context meaning named (.error (.error failure))

/-- The answer of a tracked request leaves a store that stands for promises. -/
theorem Tracked.of_reply {state : LazyConfig.State} (tracked : Tracked context meaning state)
    {reply : Reply LazyConfig.Value} (answered : state.reply? = some reply) :
    Heap context ⟨[], True⟩ meaning reply.store := by
  obtain ⟨store, meter, ending, rfl, heap⟩ := tracked.of_ended (ended_of_reply answered)
  cases ending with
  | value value | upset upset left =>
    cases answered
    exact heap
  | stepped item rest => cases answered

/-- A request that stands for a state by name comes to what that state comes to. -/
theorem Mirrored.comes {state : LazyConfig.State} {named : State}
    (mirrored : Mirrored context True meaning state named) {steps : Nat}
    {reply : Reply LazyConfig.Value} (answered : (state.run context steps).reply? = some reply) :
    ∃ later, Grows meaning later ∧ Heap context ⟨[], True⟩ later reply.store ∧
      Comes context later named reply.result := by
  -- Also after a failure, the store stands for promises.
  have left (outcome : ∀ later, Comes context later named reply.result) :
      ∃ later, Grows meaning later ∧ Heap context ⟨[], True⟩ later reply.store ∧
        Comes context later named reply.result := by
    obtain ⟨later, grown, tracked⟩ := (Tracked.runs mirrored).run steps
    exact ⟨later, grown, tracked.of_reply answered, outcome later⟩
  cases mirrored.agrees (ended_of_reply answered) with
  -- With a value, the meanings come from the run itself, since the value is made of what it has added.
  | value store meter value result later grown ended reaches heap mirrors =>
    rw [ended] at answered
    cases answered
    exact ⟨later, grown, heap, .value reaches mirrors⟩
  | failure failure _ own ended reaches =>
    rw [reply_of_failure ended] at answered
    cases answered
    exact left fun _ => .failure own reaches
  | circle failure _ cause ended endless =>
    rw [reply_of_failure ended] at answered
    cases answered
    exact left fun _ => .circle cause endless
  | overflow failure _ cause ended =>
    rw [reply_of_failure ended] at answered
    cases answered
    exact left fun _ => .overflow cause

/-- What a request comes to stays when meanings are added. -/
theorem Comes.grow {later : Meaning} {named : State} {outcome : Except Upset LazyConfig.Value}
    (grown : Grows meaning later) (comes : Comes context meaning named outcome) :
    Comes context later named outcome := by
  cases comes with
  | value reaches mirrors => exact .value reaches (mirrors.grow grown)
  | failure own reaches => exact .failure own reaches
  | circle cause endless => exact .circle cause endless
  | overflow cause => exact .overflow cause

/-- A state by name comes to one thing only. -/
theorem Comes.same {other : Meaning} {named : State} {first second : Except Upset LazyConfig.Value}
    (left : Comes context meaning named first) (right : Comes context other named second)
    (leftEnough : ¬ Overflows first) (rightEnough : ¬ Overflows second) :
    SameOutcome (fun value value' => ∃ result, ValueMirrors meaning value result ∧
      ValueMirrors other value' result) first second := by
  -- A run by name has one end at most, and no end if it goes on for ever.
  cases left with
  | value reaches mirrors =>
    cases right with
    | value reaches' mirrors' =>
      cases reaches.unique reaches' (.value _) (.value _)
      exact .ok ⟨_, mirrors, mirrors'⟩
    | failure own reaches' => cases reaches.unique reaches' (.value _) (.failure _)
    | circle cause endless => exact absurd endless (reaches.not_diverges (.value _))
    | overflow cause => exact absurd cause rightEnough
  | failure own reaches =>
    cases right with
    | value reaches' mirrors' => cases reaches.unique reaches' (.failure _) (.value _)
    | failure own' reaches' =>
      exact .error (Control.raise.inj
        (congrArg State.control (reaches.unique reaches' (.failure _) (.failure _))))
    | circle cause endless => exact absurd endless (reaches.not_diverges (.failure _))
    | overflow cause => exact absurd cause rightEnough
  | circle cause endless =>
    cases right with
    | value reaches' mirrors' => exact absurd endless (reaches'.not_diverges (.value _))
    | failure own' reaches' => exact absurd endless (reaches'.not_diverges (.failure _))
    | circle cause' endless' => exact .error (by rw [cause, cause'])
    | overflow cause' => exact absurd cause' rightEnough
  | overflow cause => exact absurd cause leftEnough

/-- Values that stand for one value by name have one outermost form. -/
theorem ValueMirrors.sameForm {other : Meaning} {value value' : LazyConfig.Value} {result : Value}
    (left : ValueMirrors meaning value result) (right : ValueMirrors other value' result) :
    SameForm value value' := by
  -- The value by name fixes the form, and scalars are themselves by name.
  cases left with
  | int value => cases right; exact .int value
  | float value => cases right; exact .float value
  | bool value => cases right; exact .bool value
  | str text => cases right; exact .str text
  | list listed =>
    cases right with
    | list listed' => exact .list _ _
  | record entries =>
    cases right with
    | record entries' => exact .record (entries.keys.trans entries'.keys.symm)
  | closure bound =>
    cases right with
    | closure bound' => exact .closure rfl rfl
  | builtin stand =>
    cases right with
    | builtin stand' => exact .builtin _ (stand.length_eq.trans stand'.length_eq.symm)

namespace Heap

variable (heap : Heap context ⟨[], True⟩ meaning store)

include heap

/-- A computation that is asked for comes to what its promise comes to by name. -/
theorem force {id : ThunkId} {promise : Promise} (stands : Stands meaning id promise)
    {reply : Reply LazyConfig.Value} (replied : RepliesWith context store (.force id) reply) :
    ∃ later, Grows meaning later ∧ Heap context ⟨[], True⟩ later reply.store ∧
      Comes context later ⟨.force promise, []⟩ reply.result := by
  obtain ⟨settings, fuel, answered⟩ := replied
  exact (Mirrored.start heap (.force stands) .nil settings.maxDepth).comes answered

/-- A value all of whose parts are asked for comes to what it comes to by name, with all its parts. -/
theorem deepen {value : LazyConfig.Value} {named : Value} (mirrors : ValueMirrors meaning value named)
    {reply : Reply LazyConfig.Value} (replied : RepliesWith context store (.deepen value) reply) :
    ∃ later, Grows meaning later ∧ Heap context ⟨[], True⟩ later reply.store ∧
      Comes context later ⟨.deepen [named] named, []⟩ reply.result ∧
      ∀ whole, reply.result = .ok whole → ∃ data, reply.store.Holds whole data := by
  obtain ⟨settings, fuel, answered⟩ := replied
  -- The request starts in states that mirror each other, with nothing to wait for below.
  have start : Mirrored context True meaning
      (Evaluator.start ⟨context, settings⟩ (.deepen value) store) ⟨.deepen [named] named, []⟩ :=
    .start heap (.deepen (.cons mirrors .nil) mirrors) .nil settings.maxDepth
  obtain ⟨later, grown, after, comes⟩ := start.comes answered
  refine ⟨later, grown, after, comes, fun whole given => ?_⟩
  -- The request has ended with nothing left to wait for, and so with all parts evaluated.
  obtain ⟨_, -, tracked⟩ := (Tracked.runs start).run fuel
  obtain ⟨last, meter, ending, ended, -⟩ := tracked.of_ended (ended_of_reply answered)
  have found : State.reply? ⟨last, meter, .done ending, []⟩ = some ⟨.ok whole, reply.store⟩ := by
    rw [← ended, ← given]
    exact answered
  obtain ⟨done, same⟩ := control_of_reply found
  cases done
  obtain ⟨rfl, data, holds⟩ := State.deepen_ends (.nil store) ended
  exact ⟨data, same ▸ holds⟩

/-- Values that stand for one value by name cannot be told apart. -/
theorem alike {other : Meaning} {right : Store} (others : Heap context ⟨[], True⟩ other right)
    {value value' : LazyConfig.Value} {result : Value} (mirrors : ValueMirrors meaning value result)
    (mirrors' : ValueMirrors other value' result) : Alike context store right value value' := by
  refine ⟨mirrors.sameForm mirrors', fun first second replied replied' enough enough' => ?_⟩
  -- Both are asked for all their parts, which by name is one and the same request.
  obtain ⟨later, -, heap, comes, parts⟩ := heap.deepen mirrors replied
  obtain ⟨later', -, heap', comes', parts'⟩ := others.deepen mirrors' replied'
  have outcomes := comes.same comes' enough enough'
  obtain ⟨one, left⟩ := first
  obtain ⟨two, right⟩ := second
  cases outcomes with
  | error kind => exact .error kind
  | ok same =>
    -- The data that each of the two has is what the value by name has.
    obtain ⟨last, mirrors, mirrors'⟩ := same
    obtain ⟨data, holds⟩ := parts _ rfl
    obtain ⟨data', holds'⟩ := parts' _ rfl
    have byName := heap.holds holds mirrors
    obtain rfl := byName.unique (heap'.holds holds' mirrors')
    exact .ok ⟨data, holds, holds'⟩

/-- Requests that start with one state by name, and end in two stores, have the same outcome. -/
theorem outcomes {other : Meaning} {right : Store} (others : Heap context ⟨[], True⟩ other right)
    {named : State} {first second : Except Upset LazyConfig.Value}
    (comes : Comes context meaning named first) (comes' : Comes context other named second)
    (enough : ¬ Overflows first) (enough' : ¬ Overflows second) :
    SameOutcome (Alike context store right) first second := by
  refine (comes.same comes' enough enough').imp fun value value' same => ?_
  obtain ⟨result, mirrors, mirrors'⟩ := same
  exact heap.alike others mirrors mirrors'

end Heap

end ByName

open ByName

/--
The order in which two computations are asked for does not matter. At every moment of a session without
functions of the host at which no computation is under way, both orders give each of the two the same
outcome, unless the limit of levels is too low: two failures of one kind, which may be that a
computation needs itself, or two values of one outermost form, with the same data when all their parts
are evaluated.
-/
theorem force_order_irrelevant {moment : Moment} (reached : moment.HostFree)
    (idle : moment.store.Idle) {first second : ThunkId} (firstInside : first < moment.store.cells.size)
    (secondInside : second < moment.store.cells.size) {one two one' two' : Reply Value}
    (firstForced : RepliesWith moment.context moment.store (.force first) one)
    (thenSecond : RepliesWith moment.context one.store (.force second) two)
    (secondForced : RepliesWith moment.context moment.store (.force second) two')
    (thenFirst : RepliesWith moment.context two'.store (.force first) one')
    (enough : ∀ reply ∈ [one, two, one', two'], ¬ Overflows reply.result) :
    SameOutcome (Alike moment.context two.store one'.store) one.result one'.result ∧
      SameOutcome (Alike moment.context two.store one'.store) two.result two'.result := by
  obtain ⟨meaning, heap⟩ := heap_of_hostFree reached idle
  obtain ⟨promise, stands⟩ := Stands.exists (heap.size ▸ firstInside)
  obtain ⟨promise', stands'⟩ := Stands.exists (heap.size ▸ secondInside)
  -- In each order, the computation that comes second has the meaning that it had at the beginning.
  obtain ⟨middle, grown, left, ones⟩ := heap.force stands firstForced
  obtain ⟨last, more, left, twos⟩ := left.force (grown _ _ stands') thenSecond
  obtain ⟨middle', grown', right, twos'⟩ := heap.force stands' secondForced
  obtain ⟨last', more', right, ones'⟩ := right.force (grown' _ _ stands) thenFirst
  simp only [List.forall_mem_cons] at enough
  obtain ⟨enoughOne, enoughTwo, enoughOne', enoughTwo', -⟩ := enough
  exact ⟨left.outcomes right (ones.grow more) ones' enoughOne enoughOne',
    left.outcomes right twos (twos'.grow more') enoughTwo enoughTwo'⟩

/-- The code of `let l = [elemAt l 1, elemAt l 0] in l`. -/
def mutualElements : Code where
  exprs := #[.ident 1, .int 1, .int 0, .builtin .elemAt [0, 1], .builtin .elemAt [0, 2], .list [3, 4],
    .letIn 1 5 0]

/-- The moment at which `let l = [elemAt l 1, elemAt l 0] in l` has come to its list. -/
def mutualMoment : Moment :=
  let evaluator : Evaluator := ⟨⟨{}, mutualElements, {}⟩, { deepForce := false }⟩
  ⟨evaluator.context, evaluator.run 20 (.evaluate 6 {}) {}⟩

/-- What is left of the two elements and of the indices that they have asked for, in this order. -/
def mutualStore (firstIndex secondIndex : Int64) : Store where
  cells := #[.forced (.list (.ofThunks [1, 2])), .failed ⟨.infiniteRecursion, []⟩,
    .failed ⟨.infiniteRecursion, []⟩, .forced (.int firstIndex), .forced (.int secondIndex)]

/-- Two elements that need each other need themselves, at whichever the circle is entered. -/
theorem force_order_irrelevant_mutualElements :
    let circle : Except Upset Value := .error (.error ⟨.infiniteRecursion, []⟩)
    RepliesWith mutualMoment.context mutualMoment.store (.force 1) ⟨circle, mutualStore 1 0⟩ ∧
    RepliesWith mutualMoment.context mutualMoment.store (.force 2) ⟨circle, mutualStore 0 1⟩ ∧
    SameOutcome (Alike mutualMoment.context (mutualStore 1 0) (mutualStore 0 1)) circle circle := by
  intro circle
  have asked : Request.Within .all 0 (.evaluate 6 {}) := ⟨trivial, .empty⟩
  have started : Moment.HostFree ⟨mutualMoment.context,
      Evaluator.start ⟨mutualMoment.context, { deepForce := false }⟩ (.evaluate 6 {}) {}⟩ :=
    .first ⟨mutualMoment.context, { deepForce := false }⟩ asked trivial
  have idle : mutualMoment.store.Idle := by
    have three (id : Nat) (inside : id < 3) : id = 0 ∨ id = 1 ∨ id = 2 := by omega
    intro id inside
    rcases three id inside with rfl | rfl | rfl <;> exact nofun
  -- One order enters the circle at the first element, the other order at the second one.
  have firstForced : RepliesWith mutualMoment.context mutualMoment.store (.force 1)
      ⟨circle, mutualStore 1 0⟩ := ⟨{}, 25, rfl⟩
  have thenSecond : RepliesWith mutualMoment.context (mutualStore 1 0) (.force 2)
      ⟨circle, mutualStore 1 0⟩ := ⟨{}, 2, rfl⟩
  have secondForced : RepliesWith mutualMoment.context mutualMoment.store (.force 2)
      ⟨circle, mutualStore 0 1⟩ := ⟨{}, 25, rfl⟩
  have thenFirst : RepliesWith mutualMoment.context (mutualStore 0 1) (.force 1)
      ⟨circle, mutualStore 0 1⟩ := ⟨{}, 2, rfl⟩
  have enough : ¬ Overflows circle := by simp [circle, Overflows, Fault.variant]
  have outcomes := force_order_irrelevant (started.run 20) idle (show 1 < 3 by decide)
    (show 2 < 3 by decide) firstForced thenSecond secondForced thenFirst (by simp [enough])
  exact ⟨firstForced, secondForced, outcomes.1⟩

end LazyConfig
