import LazyConfig.Proofs.Conformance.Checked
import LazyConfig.Proofs.Machine.Exits
import LazyConfig.Proofs.Types.Annotations

/-!
Checks are sound and complete. Of a value whose parts can all be evaluated, a check and the evaluation of
all parts after it find out whether its data belong to the type, and leave the data as they are.
-/

namespace LazyConfig

/-- Checks a value against a type, and then evaluates all its parts. -/
def Evaluator.checkDeep (evaluator : Evaluator) (fuel : Nat) (value : Value) (type : TypeId)
    (store : Store) : Option (Reply Value) :=
  match evaluator.check value type store with
  | ⟨.ok checked, store⟩ => evaluator.perform fuel (.deepen checked) store
  | ⟨.error upset, store⟩ => some ⟨.error upset, store⟩

/-- An answer tells rightly whether data are what is asked, and if not, where they differ from it. -/
structure Reply.Tells (names : NameTable) (graph : TypeGraph) (demand : Demand) (data : Data)
    (reply : Reply Value) : Prop where
  passes : (∃ checked, reply.result = .ok checked) ↔ Conforms names graph demand.type data
  same : ∀ checked, reply.result = .ok checked → reply.store.Holds checked data
  blames : ∀ upset, reply.result = .error upset →
    ∃ failure, upset = .error failure ∧ demand.Blames names graph data failure.fault

namespace Reply.Tells

variable {names : NameTable} {graph : TypeGraph} {demand : Demand} {data : Data} {store : Store}

theorem of_ok {checked : Value} (conform : Conforms names graph demand.type data)
    (holds : store.Holds checked data) : Tells names graph demand data ⟨.ok checked, store⟩ := by
  refine ⟨⟨fun _ => conform, fun _ => ⟨checked, rfl⟩⟩, fun other same => ?_, by simp⟩
  cases same
  exact holds

theorem of_error {failure : EvalError} (blames : demand.Blames names graph data failure.fault) :
    Tells names graph demand data ⟨.error (.error failure), store⟩ := by
  refine ⟨⟨nofun, fun conform => absurd conform blames.refuses⟩, by simp, fun upset same => ?_⟩
  cases same
  exact ⟨failure, rfl, blames⟩

/-- A failure that blames the data is a mismatch. -/
theorem mismatch {reply : Reply Value} (tells : Tells names graph demand data reply) :
    ∀ upset, reply.result = .error upset →
      ∃ failure, upset = .error failure ∧ failure.fault.variant = .typeMismatch := by
  intro upset failed
  obtain ⟨failure, same, blames⟩ := tells.blames upset failed
  exact ⟨failure, same, blames.variant⟩

end Reply.Tells

variable {evaluator : Evaluator} {store after last : Store} {value checked : Value} {data : Data}

/-- What evaluating all parts of a checked value comes to is told by the answer. -/
theorem Resolves.tells {pairs : Pairing} (demand : Demand)
    (resolves : Resolves evaluator.context pairs last (evaluator.start (.deepen checked) after) checked
      (Conforms evaluator.context.names evaluator.context.annotations.graph demand.type data)
      (demand.Blames evaluator.context.names evaluator.context.annotations.graph data)
      fun final => final.Holds checked data) :
    ∃ fuel reply, evaluator.perform fuel (.deepen checked) after = some reply ∧
      reply.Tells evaluator.context.names evaluator.context.annotations.graph demand data := by
  cases resolves with
  | @passes _ final meter count conform reached _ _ holds =>
    refine ⟨count + 1, ⟨.ok checked, final⟩, ?_, .of_ok conform holds⟩
    rw [Evaluator.perform, Evaluator.run, State.run_last, reached]
    rfl
  | fails count failure blames raised =>
    -- The failure passes all frames and keeps its cause.
    obtain ⟨fault, notes⟩ := failure
    obtain ⟨more, later, left, cause, ended⟩ := @ends_with_cause evaluator.context _ _ _ raised
    rw [← State.run_add] at ended
    exact ⟨count + more, _, reply_of_failure ended, .of_error (cause ▸ blames)⟩

/-- A check and the evaluation of all parts tell whether the data of a value belong to the type. -/
theorem checkDeep_tells (sound : evaluator.context.annotations.graph.Sound) (closed : store.Closed)
    (within : value.Within .all store.cells.size) {fuel : Nat} {meter : DepthMeter} {result : Value}
    (ended : evaluator.run fuel (.deepen value) store = ⟨last, meter, .done (.value result), []⟩)
    (holds : last.Holds value data) (type : TypeId) :
    ∃ fuel reply, evaluator.checkDeep fuel value type store = some reply ∧
      (∀ fuel other, evaluator.checkDeep fuel value type store = some other → other = reply) ∧
      reply.Tells evaluator.context.names evaluator.context.annotations.graph ⟨.root, type⟩ data := by
  have verdict : Verdict evaluator.context.names evaluator.context.annotations.graph store ⟨.root, type⟩ value data
      (store.check evaluator.context.names evaluator.context.annotations.graph value type .root) :=
    .ofCheck sound holds.outlines ⟨.root, type⟩
  simp only [Evaluator.checkDeep, Evaluator.check]
  generalize store.check evaluator.context.names evaluator.context.annotations.graph value type .root =
    outcome at verdict
  cases verdict with
  -- The check itself has failed, which is the answer.
  | fails blames =>
    refine ⟨0, _, rfl, fun fuel other same => ?_, .of_error blames⟩
    exact (Option.some.inj same).symm
  -- The check has added computations, and all parts are evaluated next to those of the value.
  | @passes checked cells after grown guards nodup fresh =>
    have twins := closed.twins grown
    have guarded : Guarded evaluator.context.names evaluator.context.annotations.graph
        (.below store.cells.size) after [value] [checked] [⟨.root, type⟩] (cells ++ []) :=
      .cons within.twin guards .nil
    have apart : Apart (.below store.cells.size) after (cells ++ []) := by
      rw [List.append_nil]
      -- The computations that guard the parts are new, so that none of them stands for one of the
      -- value.
      refine ⟨nodup, guards.inside, fun cell member id paired => ?_⟩
      obtain ⟨inside, rfl⟩ := paired
      exact Nat.not_lt.mpr (fresh cell member) inside
    have resolves : Resolves evaluator.context (.below store.cells.size) last
        (evaluator.start (.deepen checked) after) checked
        (Conforms evaluator.context.names evaluator.context.annotations.graph type data)
        (Demand.Blames evaluator.context.names evaluator.context.annotations.graph ⟨.root, type⟩ data)
        fun final => final.Holds checked data := by
      -- There is one value only, so that whatever is told is told of it.
      refine ((checks sound fuel).work twins guarded apart ended (.cons holds .nil)).of_run 0 (.nil after) rfl
        (fun _ _ => id) (fun all => (List.forall₂_cons.mp all).1) (fun fault blamed => ?_)
        fun more final _ _ _ hold => ?_
      · rcases Demand.blamesOne_cons.mp blamed with blames | ⟨pair, member, -⟩
        · exact blames
        · cases member
      · cases hold with
        | cons holds _ => exact holds
    obtain ⟨fuel, reply, answered, tells⟩ := Resolves.tells ⟨.root, type⟩ resolves
    exact ⟨fuel, reply, answered, fun _ other given => reply_unique given answered, tells⟩

/--
Checks are sound and complete. When the annotations of a program are resolved and all parts of a value can
be evaluated, checking the value against any type and then evaluating all parts of the result comes to an
answer, and to one only. It is a value if and only if the data of the value belong to the type, and that
value has the same data. Otherwise it is a mismatch.
-/
theorem check_iff_conforms (evaluator : Evaluator) (root : ExprId)
    (resolved : Annotations.ofRoot evaluator.context.names evaluator.context.code root =
      .ok evaluator.context.annotations) {store last : Store} {value result : Value} {fuel : Nat}
    (closed : store.Closed) (within : value.Within .all store.cells.size)
    (deepened : evaluator.perform fuel (.deepen value) store = some ⟨.ok result, last⟩) :
    ∃ data, last.Holds value data ∧ ∀ type,
      ∃ fuel reply, evaluator.checkDeep fuel value type store = some reply ∧
        (∀ fuel other, evaluator.checkDeep fuel value type store = some other → other = reply) ∧
        ((∃ checked, reply.result = .ok checked) ↔
          Conforms evaluator.context.names evaluator.context.annotations.graph type data) ∧
        (∀ checked, reply.result = .ok checked → reply.store.Holds checked data) ∧
        ∀ upset, reply.result = .error upset →
          ∃ failure, upset = .error failure ∧ failure.fault.variant = .typeMismatch := by
  -- What the resolver gives has no loose ends, and the run has nothing in progress.
  have sound := (Annotations.ofRoot_ok resolved).1
  have asked : Request.Within .all store.cells.size (.deepen value) := within
  obtain ⟨meter, ended⟩ := run_of_perform closed asked deepened
  obtain ⟨rfl, data, holds⟩ := State.deepen_ends (.nil store) ended
  refine ⟨data, holds, fun type => ?_⟩
  obtain ⟨fuel, reply, answered, only, tells⟩ := checkDeep_tells sound closed within ended holds type
  exact ⟨fuel, reply, answered, only, tells.passes, tells.same, tells.mismatch⟩

/-- The program `typealias Tree = List Tree in [[], []] : Tree : List Num`. -/
def trees : Code where
  exprs := #[.list [], .list [0, 0], .ascribe 1 0, .ascribe 2 3, .aliases [⟨1, 1⟩] 3]
  types := #[.aliasRef 1, .list 0, .num, .list 2]

/-- What resolving its annotations gives: the alias is a list of itself. -/
def treesTypes : Annotations :=
  ⟨⟨#[.aliasSlot 1 (some 1), .list 0, .num, .list 2]⟩, #[some 0, none, none, some 3]⟩

/-- Two empty lists, of which one is still put off. -/
def treesStore : Store where
  cells := #[.suspended (.expr 0 {}), .forced (.list (.elems #[] 0))]

/-- Of the two computations one is put off, in no scope, and the other one is there. -/
theorem treesStore_closed : treesStore.Closed := by
  intro id inside
  obtain rfl | rfl : id = 0 ∨ id = 1 := by
    have small : id < 2 := inside
    omega
  · exact ⟨trivial, nofun⟩
  · exact nofun

/-- A list of two empty lists is a tree, and passes as one; it is no list of numbers. -/
theorem check_iff_conforms_trees :
    let evaluator : Evaluator := ⟨⟨{}, trees, treesTypes⟩, {}⟩
    let value := Value.list (.ofThunks [0, 1])
    (∃ fuel checked after, evaluator.checkDeep fuel value 0 treesStore = some ⟨.ok checked, after⟩ ∧
      after.Holds checked (.list [.list [], .list []])) ∧
    ∃ fuel failure after,
      evaluator.checkDeep fuel value 3 treesStore = some ⟨.error (.error failure), after⟩ ∧
        failure.fault.variant = .typeMismatch := by
  intro evaluator value
  have resolved : Annotations.ofRoot {} trees 4 = .ok treesTypes := rfl
  have within : value.Within .all 2 := by
    show ∀ id ∈ [0, 1], id < 2
    decide
  have deepened : evaluator.perform 40 (.deepen value) treesStore = some ⟨.ok value, _⟩ := rfl
  obtain ⟨data, holds, answers⟩ := check_iff_conforms evaluator 4 resolved treesStore_closed within deepened
  -- The data of the value are known, since a value holds one tree of data only.
  obtain rfl := holds.unique (.list (.elems (.cons rfl (.list (.elems .nil))
    (.cons rfl (.list (.elems .nil)) .nil))))
  constructor
  · -- Each element is a list of no trees.
    have empty : Conforms {} treesTypes.graph 0 (.list []) := .link rfl (.list rfl nofun)
    have tree : Conforms {} treesTypes.graph 0 (.list [.list [], .list []]) := by
      refine .link rfl (.list rfl fun part member => ?_)
      obtain rfl : part = .list [] := by simpa using member
      exact empty
    obtain ⟨fuel, ⟨answer, after⟩, answered, -, passes, same, -⟩ := answers 0
    obtain ⟨checked, given⟩ := passes.mpr tree
    obtain rfl : answer = .ok checked := given
    exact ⟨fuel, checked, after, answered, same checked rfl⟩
  · -- An element is a list and no number.
    have other : ¬ Conforms {} treesTypes.graph 3 (.list [.list [], .list []]) := by
      intro conforms
      cases conforms with
      | link linked => cases linked
      | dyn found | var found => cases found
      | list found elems =>
        cases found
        cases elems _ List.mem_cons_self with
        | link linked => cases linked
        | dyn found | var found | list found => cases found
    obtain ⟨fuel, ⟨answer, after⟩, answered, -, passes, -, mismatch⟩ := answers 3
    cases answer with
    | ok checked => exact absurd (passes.mp ⟨checked, rfl⟩) other
    | error upset =>
      obtain ⟨failure, rfl, kind⟩ := mismatch upset rfl
      exact ⟨fuel, failure, after, answered, kind⟩

end LazyConfig
