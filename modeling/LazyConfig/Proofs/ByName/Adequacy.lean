import LazyConfig.Program
import LazyConfig.Proofs.ByName.Agreement

/-!
Remembering values is not observable: a program has the same data, or a failure of the same kind,
whether its values are remembered or evaluated anew at every use.
-/

namespace LazyConfig.ByName

variable {context : Context} {busy : Busy} {meaning : Meaning} {store : Store}

/-- A computation that has a value gives by name what the value stands for. -/
theorem Heap.gives (heap : Heap context busy meaning store) {id : ThunkId} {promise : Promise}
    (stands : Stands meaning id promise) {value : LazyConfig.Value}
    (found : store.cell id = .forced value) :
    ∃ named, Gives context promise named ∧ ValueMirrors meaning value named := by
  have cell := heap.cells stands
  rwa [found] at cell

mutual

/-- A value has by name the data that it holds. -/
theorem Heap.holds (heap : Heap context busy meaning store) {value : LazyConfig.Value} {data : Data}
    {named : Value} (hold : store.Holds value data) (mirrors : ValueMirrors meaning value named) :
    named.Holds context data := by
  match hold, mirrors with
  | .int _, .int _ => exact .int _
  | .float _, .float _ => exact .float _
  | .bool _, .bool _ => exact .bool _
  | .str _, .str _ => exact .str _
  | .list hold, .list listed =>
    have yields := heap.listHolds hold listed .nil
    rw [List.append_nil, List.append_nil] at yields
    exact .list yields
  | .record hold, .record entries => exact .record (heap.fieldsHold hold entries)
  -- What a function waits for is no part of its data.
  | .closure _, .closure bound => exact .closure _ _ _
  | .builtin op held, .builtin stand =>
    rw [Builtin.missing, stand.length_eq]
    exact .builtin op _
termination_by structural hold

/-- A list yields by name the data that it holds, and then what comes after it. -/
theorem Heap.listHolds (heap : Heap context busy meaning store) {items : LazyList}
    {parts : List Data} {segments rest : List Segment} {others : List Data}
    (hold : store.ListHolds items parts) (listed : ListMirrors meaning items segments)
    (after : Yields context rest others) : Yields context (segments ++ rest) (parts ++ others) := by
  match hold with
  | .elems hold =>
    obtain ⟨promises, stand, rfl⟩ := listed
    exact heap.partsHold hold stand after
  | .rangeEnd passed =>
    obtain rfl : segments = _ := listed
    rw [Segment.span, if_neg passed]
    exact after
  | .rangeNext more hold =>
    obtain rfl : segments = _ := listed
    rw [Segment.span, if_pos more]
    exact .range (heap.listHolds hold rfl after)
  -- The second list is remembered, so its promise gives a list; what comes after moves behind it.
  | .concat front found back =>
    obtain ⟨stretches, promise, leftListed, stands, rfl⟩ := listed
    obtain ⟨named, gives, mirrors⟩ := heap.gives stands found
    cases mirrors with
    | list backListed =>
      have yields := heap.listHolds front leftListed
        (.joint gives (heap.listHolds back backListed after))
      simpa using yields
termination_by structural hold

/-- Elements yield by name the data that they hold. -/
theorem Heap.partsHold (heap : Heap context busy meaning store) {ids : List ThunkId}
    {parts : List Data} {promises : List Promise} {rest : List Segment} {others : List Data}
    (hold : store.PartsHold ids parts) (stand : AllStand meaning ids promises)
    (after : Yields context rest others) :
    Yields context (promises.map .item ++ rest) (parts ++ others) := by
  match hold, stand with
  | .nil, .nil => exact after
  | .cons found holds hold, .cons stands stand =>
    obtain ⟨named, gives, mirrors⟩ := heap.gives stands found
    exact .item gives (heap.holds holds mirrors) (heap.partsHold hold stand after)
termination_by structural hold

/-- Fields have by name the data that they hold. -/
theorem Heap.fieldsHold (heap : Heap context busy meaning store) {entries : List Entry}
    {parts : List (String × Data)} {fields : Fields} (hold : store.FieldsHold entries parts)
    (stand : EntriesStand meaning entries fields) : FieldsHold context fields parts := by
  match hold, stand with
  | .nil, .nil => exact .nil
  | .cons found holds hold, @List.Forall₂.cons _ _ _ _ field _ _ same stand =>
    obtain ⟨name, promise⟩ := field
    obtain ⟨rfl, stands⟩ := same
    obtain ⟨named, gives, mirrors⟩ := heap.gives stands found
    exact .cons gives (heap.holds holds mirrors) (heap.fieldsHold hold stand)
termination_by structural hold

end

/-- A value in a store comes to the same as a value by name. -/
structure SameResult (context : Context) (deep : Bool) (store : Store)
    (value : LazyConfig.Value) (result : Value) : Prop where
  kind : value.kind = result.kind
  /-- What is evaluated is the same. -/
  data : ∀ data, store.Holds value data → result.Holds context data
  /-- Everything is evaluated, if all parts were asked for. -/
  whole : deep = true → ∃ data, store.Holds value data ∧ result.Holds context data

/-- The evaluation of an expression by name, and of all its parts if the settings say so. -/
def start (settings : Settings) (root : ExprId) : State :=
  ⟨.eval root [], if settings.deepForce then [.deepen] else []⟩

/-- Nothing has a meaning in a store without computations. -/
theorem Heap.empty (context : Context) (busy : Busy) : Heap context busy #[] {} :=
  ⟨rfl, fun stands => by simp [Stands] at stands⟩

/-- An evaluation starts in a state that stands for its start by name. -/
theorem mirrored_start (evaluator : Evaluator) (root : ExprId) :
    Mirrored evaluator.context False #[] (evaluator.start (.evaluate root {}) {})
      (start evaluator.settings root) := by
  obtain ⟨context, maxDepth, deepForce⟩ := evaluator
  cases deepForce
  · exact ⟨.empty context _, .enter .nil, .nil _, rfl⟩
  · exact ⟨.empty context _, .enter .nil, .frame .deepen (.nil _), rfl⟩

/-- An evaluation that ends with a value has evaluated all its parts, if the settings say so. -/
theorem SameResult.of_ended {evaluator : Evaluator} {root : ExprId} {steps : Nat}
    {meter : DepthMeter} {value : LazyConfig.Value} {result : Value} {meaning : Meaning}
    {store : Store} {busy : Busy} (heap : Heap evaluator.context busy meaning store)
    (mirrors : ValueMirrors meaning value result)
    (ended : evaluator.run steps (.evaluate root {}) {} = ⟨store, meter, .done (.value value), []⟩) :
    SameResult evaluator.context evaluator.settings.deepForce store value result := by
  -- Only the last field needs the run: a walk through all parts is below the evaluation then.
  refine ⟨mirrors.kind, fun data holds => heap.holds holds mirrors, fun deep => ?_⟩
  have nested := Moment.start_wellNested evaluator (.evaluate root {}) {}
  have begun : evaluator.start (.evaluate root {}) {} =
      ⟨{}, ⟨evaluator.settings.maxDepth, 0⟩, .enter root {}, [.deepen]⟩ := by
    simp [Evaluator.start, Request.control, Request.frames, deep]
  rw [begun] at nested
  rw [Evaluator.run, begun] at ended
  have unfinished : ∀ ending, LazyConfig.Control.enter root {} ≠ .done ending :=
    fun _ same => by cases same
  obtain ⟨data, holds⟩ := LazyConfig.State.evaluate_ends unfinished nested ended
  exact ⟨data, holds, heap.holds holds mirrors⟩

/-- A fault that lies in the program is not that a computation needs itself. -/
theorem ordinary_ne_circle {fault : Fault} (own : fault.ordinary = true) :
    fault.variant ≠ .infiniteRecursion := by
  intro circle
  cases fault with
  | infiniteRecursion => exact Bool.false_ne_true own
  | _ => cases circle

end LazyConfig.ByName

namespace LazyConfig

/-- What the evaluation of a program reads. -/
def Program.context (program : Program) (annotations : Annotations) : Context :=
  ⟨program.names, program.code, annotations⟩

/-- The evaluation of a program fails for a reason of the given kind. -/
def Program.Fails (program : Program) (settings : Settings) (annotations : Annotations)
    (variant : Variant) : Prop :=
  ∃ fuel failure store,
    program.evaluate settings annotations [] fuel = some ⟨.error (.error failure), store⟩ ∧
      failure.fault.variant = variant

open ByName

section Evaluate

variable {program : Program} {settings : Settings} {annotations : Annotations}

/-- An evaluation whose answer is there agrees with the one by name. -/
theorem agrees_of_evaluate {fuel : Nat} {reply : Reply Value}
    (answered : program.evaluate settings annotations [] fuel = some reply) :
    Agrees (program.context annotations) False True #[] (ByName.start settings program.root)
      (Evaluator.run ⟨program.context annotations, settings⟩ fuel (.evaluate program.root {}) {}) :=
  (mirrored_start ⟨program.context annotations, settings⟩ program.root).agrees
    (ended_of_reply answered)

/-- When the evaluation by name ends, the one with a store does so too, or meets the limit. -/
theorem agrees_of_final {rounds : Nat} (final : (ByName.run (program.context annotations) rounds
      (ByName.start settings program.root)).Final) :
    ∃ fuel, Agrees (program.context annotations) False (settings.maxDepth ≤ 1 + rounds) #[]
      (ByName.start settings program.root)
      (Evaluator.run ⟨program.context annotations, settings⟩ fuel (.evaluate program.root {}) {}) := by
  have begins := mirrored_start ⟨program.context annotations, settings⟩ program.root
  obtain ⟨fuel, agrees⟩ := begins.ends final
  refine ⟨fuel, agrees.of_reaches (.refl _) (.refl _) fun low => ?_⟩
  have alone : weight (Evaluator.start ⟨program.context annotations, settings⟩
      (.evaluate program.root {}) {}) = 1 := by
    cases deep : settings.deepForce <;>
      simp [weight, Evaluator.start, Request.control, Request.frames, levels, isLeave, deep]
  rw [alone] at low
  exact low.resolve_right id

/-- An evaluation that ends with a value ends by name with what the value stands for. -/
theorem evaluate_value {fuel : Nat} {value : Value} {store : Store}
    (answered : program.evaluate settings annotations [] fuel = some ⟨.ok value, store⟩) :
    ∃ result,
      Reaches (program.context annotations) (ByName.start settings program.root)
        ⟨.give result, []⟩ ∧
      SameResult (program.context annotations) settings.deepForce store value result := by
  have run_answered : (Evaluator.run ⟨program.context annotations, settings⟩ fuel
      (.evaluate program.root {}) {}).reply? = some ⟨.ok value, store⟩ := answered
  cases agrees_of_evaluate answered with
  | value store' meter value' result meaning grown ended reaches heap mirrors =>
    -- The answer is the one that the run ends with.
    rw [ended] at run_answered
    cases run_answered
    exact ⟨result, reaches, .of_ended heap mirrors ended⟩
  | failure _ _ _ ended | circle _ _ _ ended | overflow _ _ _ ended =>
    rw [reply_of_failure ended] at run_answered
    cases run_answered

/--
An evaluation that fails does so by name for a reason of the same kind, unless a computation needs
itself, which goes on for ever by name, or the limit of levels is too low.
-/
theorem evaluate_failure {fuel : Nat} {upset : Upset} {store : Store}
    (answered : program.evaluate settings annotations [] fuel = some ⟨.error upset, store⟩) :
    ∃ failure, upset = .error failure ∧
      (failure.fault.variant ≠ .infiniteRecursion → failure.fault.variant ≠ .stackOverflow →
        Reaches (program.context annotations) (ByName.start settings program.root)
          ⟨.raise failure.fault.variant, []⟩) ∧
      (failure.fault.variant = .infiniteRecursion →
        Diverges (program.context annotations) (ByName.start settings program.root)) := by
  have run_answered : (Evaluator.run ⟨program.context annotations, settings⟩ fuel
      (.evaluate program.root {}) {}).reply? = some ⟨.error upset, store⟩ := answered
  cases agrees_of_evaluate answered with
  | value store' meter value' result meaning grown ended =>
    rw [ended] at run_answered
    cases run_answered
  -- A fault of the program's own is none of the two that are left out.
  | failure failure left own ended reaches =>
    rw [reply_of_failure ended] at run_answered
    cases run_answered
    exact ⟨failure, rfl, fun _ _ => reaches, fun circle => absurd circle (ordinary_ne_circle own)⟩
  | circle failure left cause ended endless =>
    rw [reply_of_failure ended] at run_answered
    cases run_answered
    exact ⟨failure, rfl, fun other => absurd (by rw [cause]; rfl) other, fun _ => endless⟩
  | overflow failure left cause ended =>
    rw [reply_of_failure ended] at run_answered
    cases run_answered
    exact ⟨failure, rfl, fun _ other => absurd cause other, fun circle => by
      rw [cause] at circle
      cases circle⟩

/-- What ends with a value by name ends with the same value with a store, or meets the limit. -/
theorem evaluate_of_value {rounds : Nat} {result : ByName.Value}
    (reached : ByName.run (program.context annotations) rounds
      (ByName.start settings program.root) = ⟨.give result, []⟩) :
    (∃ fuel value store,
      program.evaluate settings annotations [] fuel = some ⟨.ok value, store⟩ ∧
        SameResult (program.context annotations) settings.deepForce store value result) ∨
      settings.maxDepth ≤ 1 + rounds ∧ program.Fails settings annotations .stackOverflow := by
  have final : (ByName.run (program.context annotations) rounds
      (ByName.start settings program.root)).Final := reached ▸ .value result
  obtain ⟨fuel, agrees⟩ := agrees_of_final final
  -- A run with a store that corresponds to a final one by name has ended as well.
  cases agrees with
  | value store meter value other meaning grown ended reaches heap mirrors =>
    have same := reaches.unique ⟨rounds, reached⟩ (.value other) (.value result)
    cases same
    have answered : program.evaluate settings annotations [] fuel = some ⟨.ok value, store⟩ :=
      congrArg LazyConfig.State.reply? ended
    exact .inl ⟨fuel, value, store, answered, .of_ended heap mirrors ended⟩
  -- An evaluation by name ends in one way only, so it has not failed as well.
  | failure _ _ _ _ reaches =>
    cases reaches.unique ⟨rounds, reached⟩ (.failure _) (.value result)
  | circle _ _ _ _ endless => exact absurd final (endless rounds)
  | overflow failure left cause ended low =>
    exact .inr ⟨low, fuel, failure, _, reply_of_failure ended, cause⟩

/-- What fails by name fails for a reason of the same kind with a store, or meets the limit. -/
theorem evaluate_of_failure {rounds : Nat} {variant : Variant}
    (reached : ByName.run (program.context annotations) rounds
      (ByName.start settings program.root) = ⟨.raise variant, []⟩) :
    program.Fails settings annotations variant ∨
      settings.maxDepth ≤ 1 + rounds ∧ program.Fails settings annotations .stackOverflow := by
  -- A run with a store that corresponds to a final one by name has ended as well.
  have final : (ByName.run (program.context annotations) rounds
      (ByName.start settings program.root)).Final := reached ▸ .failure variant
  obtain ⟨fuel, agrees⟩ := agrees_of_final final
  cases agrees with
  | value _ _ _ _ _ _ _ reaches =>
    cases reaches.unique ⟨rounds, reached⟩ (.value _) (.failure variant)
  | failure failure left own ended reaches =>
    have same := reaches.unique ⟨rounds, reached⟩ (.failure _) (.failure variant)
    cases same
    exact .inl ⟨fuel, failure, _, reply_of_failure ended, rfl⟩
  | circle _ _ _ _ endless => exact absurd final (endless rounds)
  | overflow failure left cause ended low =>
    exact .inr ⟨low, fuel, failure, _, reply_of_failure ended, cause⟩

end Evaluate

/-- The code of `let xs = [1] ++ xs in head xs`, of `let x = x in x` and of `head []`. -/
def threeEnds : Code where
  exprs := #[.int 1, .list [0], .ident 1, .binary .concat 1 2, .builtin .head [2], .letIn 1 3 4,
    .letIn 1 2 2, .list [], .builtin .head [7]]

end LazyConfig
