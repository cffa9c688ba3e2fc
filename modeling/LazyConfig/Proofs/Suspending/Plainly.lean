import LazyConfig.Proofs.ByName.Confluence
import LazyConfig.Proofs.Suspending.Shortcut
import LazyConfig.Proofs.Suspending.Unguard

/-!
Programs whose expressions are all put off as they are. By name they are the programs with alias groups in front
of variables, literals and functions, which come to the same as without these groups.
-/

namespace LazyConfig

namespace ByName

section Steps

variable (source : Guarded)

/-- The size of the promise that is asked for next. -/
noncomputable def askedSize : State → Nat
  | ⟨.force promise, _⟩ => sizeOf promise
  | _ => 0

/-- What a variable in a promise is bound to is a smaller promise. -/
theorem LeadsOn.smaller {promise bound : Promise} (leads : LeadsOn source promise bound) :
    sizeOf bound < sizeOf promise := by
  obtain ⟨id, env, name, rfl, -, found⟩ := leads
  have inside := List.sizeOf_lt_of_mem (mem_of_lookup found)
  simp only [Promise.expr.sizeOf_spec, Prod.mk.sizeOf_spec] at inside ⊢
  omega

/-- A variable that is asked for leads to what it is bound to, which is the same without alias groups. -/
theorem LeadsOn.reaches {promise bound : Promise} (leads : LeadsOn source promise bound)
    (stack : List Frame) :
    bound.unguard source = promise.unguard source ∧
      ∃ steps, run source.guarded (steps + 1) ⟨.force promise, stack⟩ = ⟨.force bound, stack⟩ := by
  obtain ⟨id, env, name, rfl, node, found⟩ := leads
  refine ⟨by simp [Promise.unguard, ByName.promise, node, lookup_unguardEnv, found], ?_⟩
  -- Wherever the variable itself is evaluated, the next step asks for what it is bound to.
  have evaluates {body : ExprId} (own : source.guarded.code.expr body = .ident name) :
      step source.guarded ⟨.eval body env, stack⟩ = ⟨.force bound, stack⟩ := by
    simp only [step, evalTurn, own, found]
    rfl
  by_cases behind : source.Behind id
  · -- Behind an alias group the variable is met one step later.
    refine ⟨2, ?_⟩
    have later : source.guarded.code.expr (source.count + id) = .ident name := by
      rw [source.expr_of_not_behind (not_behind_add source id), source.core_add,
        ← source.core_of_behind behind, node]
    have opened : step source.guarded ⟨.eval id env, stack⟩ = ⟨.eval (source.count + id) env, stack⟩ := by
      simp only [step, evalTurn_behind source behind]
      rfl
    show step source.guarded (step source.guarded ⟨.eval id env, stack⟩) = _
    rw [opened, evaluates later]
  · refine ⟨1, evaluates ?_⟩
    rw [source.expr_of_not_behind behind, node]

/--
Some steps with alias groups are one step without them, or none where a variable leads on; variables lead on
to ever smaller promises.
-/
theorem catches_up (state : State) :
    ∃ steps,
      (run source.guarded (steps + 1) state).unguard source = step source.context (state.unguard source) ∨
      (run source.guarded (steps + 1) state).unguard source = state.unguard source ∧
        askedSize (run source.guarded (steps + 1) state) < askedSize state := by
  obtain ⟨control, stack⟩ := state
  cases control with
  | eval id env =>
    by_cases behind : source.Behind id
    · -- The step more is the one at the alias group.
      refine ⟨1, .inl ?_⟩
      have opened : step source.guarded ⟨.eval id env, stack⟩ = ⟨.eval (source.count + id) env, stack⟩ := by
        simp only [step, evalTurn_behind source behind]
        rfl
      have same := evalTurn_unguard source (not_behind_add source id) env
      rw [source.core_add] at same
      show (step source.guarded (step source.guarded ⟨.eval id env, stack⟩)).unguard source = _
      rw [opened]
      exact (onto_unguard ..).trans
        (by rw [same, State.unguard, Control.unguard, source.core_of_behind behind]; rfl)
    · exact ⟨0, .inl ((onto_unguard ..).trans (by rw [evalTurn_unguard source behind]; rfl))⟩
  | force promise =>
    by_cases leads : ∃ bound, LeadsOn source promise bound
    · obtain ⟨bound, leads⟩ := leads
      obtain ⟨same, steps, ran⟩ := leads.reaches source stack
      refine ⟨steps, .inr ⟨?_, ?_⟩⟩
      · rw [ran, State.unguard, State.unguard, Control.unguard, Control.unguard, same]
      · rw [ran]
        exact leads.smaller
    · have same := forceTurn_unguard source (not_exists.mp leads)
      exact ⟨0, .inl ((onto_unguard ..).trans (by rw [same]; rfl))⟩
  | give value =>
    cases stack with
    | nil => exact ⟨0, .inl rfl⟩
    | cons frame rest => exact ⟨0, .inl ((onto_unguard ..).trans (by rw [giveTurn_unguard]; rfl))⟩
  | raise variant => exact ⟨0, .inl (congrArg (State.mk (.raise variant)) List.map_tail)⟩
  | apply func arg => exact ⟨0, .inl ((onto_unguard ..).trans (by rw [applyTurn_unguard]; rfl))⟩
  | run op args => exact ⟨0, .inl ((onto_unguard ..).trans (by rw [runTurn_unguard]; rfl))⟩
  | operate op left right => exact ⟨0, .inl ((onto_unguard ..).trans (by rw [operateTurn_unguard]; rfl))⟩
  | advance items consumer => exact ⟨0, .inl ((onto_unguard ..).trans (by rw [advanceTurn_unguard]; rfl))⟩
  | deepen work whole => exact ⟨0, .inl ((onto_unguard ..).trans (by rw [deepenTurn_unguard]; rfl))⟩
  | compare work => exact ⟨0, .inl ((onto_unguard ..).trans (by rw [compareTurn_unguard]; rfl))⟩

theorem final_unguard {state : State} : (state.unguard source).Final ↔ state.Final := by
  obtain ⟨control, stack⟩ := state
  constructor
  · -- What is left of a state has the same control and as many frames, so it has ended with the
    -- original.
    intro final
    cases control <;> cases stack <;> first
      | exact .value _
      | exact .failure _
      | cases final
  · rintro (value | variant)
    · exact .value _
    · exact .failure variant

/-- What ends with alias groups ends without them, and with the same. -/
theorem unguard_reaches {state last : State} (final : last.Final)
    (reached : Reaches source.guarded state last) :
    Reaches source.context (state.unguard source) (last.unguard source) := by
  obtain ⟨steps, ran⟩ := reached
  induction steps using Nat.strong_induction_on generalizing state with
  | _ steps ih =>
    -- A state that has ended is where it stays, and then nothing is left to follow.
    by_cases ended : state.Final
    · rw [← ran, ended.run]
      exact .refl _
    · obtain ⟨taken, moved⟩ := catches_up source state
      have left : run source.guarded (steps - (taken + 1)) (run source.guarded (taken + 1) state) = last :=
        (run_sub (ran ▸ final) _).trans ran
      -- The steps that are left after catching up are fewer, so the induction goes through for
      -- them.
      have some : steps ≠ 0 := by
        rintro rfl
        have stays : state = last := ran
        exact ended (stays ▸ final)
      have rest := ih (steps - (taken + 1)) (by omega) left
      rcases moved with same | ⟨same, -⟩
      · rw [same] at rest
        exact Reaches.trans ⟨1, rfl⟩ rest
      · rwa [same] at rest

/-- What ends without alias groups ends with them, and with the same. -/
theorem reaches_of_unguard {rounds : Nat} {state : State}
    (final : (run source.context rounds (state.unguard source)).Final) :
    ∃ last, last.Final ∧ Reaches source.guarded state last ∧
      last.unguard source = run source.context rounds (state.unguard source) := by
  -- Each round is followed after some steps, and variables lead on only so often before.
  by_cases ended : state.Final
  · refine ⟨state, ended, .refl state, ?_⟩
    rw [((final_unguard source).mpr ended).run]
  · obtain ⟨taken, moved⟩ := catches_up source state
    rcases moved with same | ⟨same, smaller⟩
    · cases rounds with
      | zero => exact absurd ((final_unguard source).mp final) ended
      | succ rounds =>
        rw [run_succ, ← same] at final ⊢
        obtain ⟨last, final, reached, image⟩ := reaches_of_unguard final
        exact ⟨last, final, Reaches.trans ⟨taken + 1, rfl⟩ reached, image⟩
    · rw [← same] at final ⊢
      obtain ⟨last, final, reached, image⟩ := reaches_of_unguard final
      exact ⟨last, final, Reaches.trans ⟨taken + 1, rfl⟩ reached, image⟩
termination_by (rounds, askedSize state)

theorem diverges_unguard {state : State} :
    Diverges source.context (state.unguard source) ↔ Diverges source.guarded state := by
  constructor
  · intro endless steps final
    -- Either run ends where the other one does, and what ends does not go on for ever.
    exact (unguard_reaches source final ⟨steps, rfl⟩).not_diverges ((final_unguard source).mpr final) endless
  · intro endless rounds final
    obtain ⟨last, final, reached, -⟩ := reaches_of_unguard source final
    exact reached.not_diverges final endless

end Steps

/-! The data of values with and without alias groups. -/

section Data

variable {source : Guarded}

theorem Gives.unguard {promise : Promise} {value other : Value} (gives : Gives source.guarded promise value)
    -- Both computations end, one as the image of the other, and what ends does so in one way.
    (givesOther : Gives source.context (promise.unguard source) other) : other = value.unguard source := by
  have reached := unguard_reaches source (.value value) (gives.reaches [])
  cases Reaches.unique (givesOther.reaches []) reached (.value _) (.value _)
  rfl

mutual

/-- A value has the same data with alias groups and without. -/
theorem Value.Holds.unguard {value : Value} {data other : Data} :
    value.Holds source.guarded data → (value.unguard source).Holds source.context other → data = other
  | .int _, .int _ => rfl
  | .float _, .float _ => rfl
  | .bool _, .bool _ => rfl
  | .str _, .str _ => rfl
  | .list yields, .list others => congrArg Data.list (yields.unguard others)
  | .record fields, .record others => congrArg Data.record (fields.unguard others)
  | .closure _ _ _, .closure _ _ _ => rfl
  | .builtin _ _, .builtin _ _ => by rw [unguardAll_eq, List.length_map]

theorem Yields.unguard {items : List Segment} {parts others : List Data} :
    Yields source.guarded items parts → Yields source.context (unguardList source items) others →
      parts = others
  | .nil, .nil => rfl
  | .item gives holds rest, .item givesOther holdsOther restOther => by
    obtain rfl := gives.unguard givesOther
    rw [holds.unguard holdsOther, rest.unguard restOther]
  | .range rest, .range restOther => by
    rw [rest.unguard (by simpa using restOther)]
  | .joint gives rest, .joint givesOther restOther => by
    cases gives.unguard givesOther
    exact rest.unguard (by simpa using restOther)

theorem FieldsHold.unguard {fields : Fields} {parts others : List (String × Data)} :
    FieldsHold source.guarded fields parts → FieldsHold source.context (unguardFields source fields) others →
      parts = others
  | .nil, .nil => rfl
  | .cons gives holds rest, .cons givesOther holdsOther restOther => by
    obtain rfl := gives.unguard givesOther
    rw [holds.unguard holdsOther, rest.unguard restOther]

end

end Data

end ByName

open ByName

/-! Whole programs. -/

/-- Two values, each in a store of its own, that are the same data as far as both are evaluated. -/
structure SameData (deep : Bool) (left right : Store) (value other : Value) : Prop where
  kind : value.kind = other.kind
  data : ∀ first second, left.Holds value first → right.Holds other second → first = second
  /-- Everything is evaluated, if all parts were asked for. -/
  whole : deep = true → ∃ data, left.Holds value data ∧ right.Holds other data

/-- A computation needed itself. -/
def Circles : Except Upset Value → Prop
  | .error (.error failure) => failure.fault.variant = .infiniteRecursion
  | _ => False

/-- What an evaluation by name comes to, for an answer of the evaluation with a store. -/
inductive NamedAnswer (context : Context) (deep : Bool) (named : ByName.State) : Reply Value → Prop
  | value {value : Value} {store : Store} {result : ByName.Value} (reached : Reaches context named ⟨.give result, []⟩)
    (same : SameResult context deep store value result) : NamedAnswer context deep named ⟨.ok value, store⟩
  | failure {failure : EvalError} {store : Store} (own : failure.fault.variant ≠ .infiniteRecursion)
    (reached : Reaches context named ⟨.raise failure.fault.variant, []⟩) :
    NamedAnswer context deep named ⟨.error (.error failure), store⟩
  | circle {failure : EvalError} {store : Store} (cause : failure.fault.variant = .infiniteRecursion)
    (endless : Diverges context named) : NamedAnswer context deep named ⟨.error (.error failure), store⟩

section Evaluate

variable {program : Program} {settings : Settings} {annotations : Annotations}

/-- An answer for which there were levels enough says what the evaluation by name comes to. -/
theorem namedAnswer_of_evaluate {fuel : Nat} {reply : Reply Value}
    (answered : program.evaluate settings annotations [] fuel = some reply) (enough : ¬ Overflows reply.result) :
    NamedAnswer (program.context annotations) settings.deepForce (ByName.start settings program.root) reply := by
  obtain ⟨result, store⟩ := reply
  cases result with
  | ok value =>
    obtain ⟨result, reached, same⟩ := evaluate_value answered
    exact .value reached same
  | error upset =>
    obtain ⟨failure, rfl, reaches, endless⟩ := evaluate_failure answered
    by_cases circle : failure.fault.variant = .infiniteRecursion
    · exact .circle circle (endless circle)
    · exact .failure circle (reaches circle enough)

/-- What ends by name is answered by the evaluation with a store. -/
theorem evaluate_of_final {rounds : Nat}
    (final : (ByName.run (program.context annotations) rounds (ByName.start settings program.root)).Final) :
    ∃ fuel reply, program.evaluate settings annotations [] fuel = some reply := by
  have failed {variant : Variant} (fails : program.Fails settings annotations variant) :
      ∃ fuel reply, program.evaluate settings annotations [] fuel = some reply := by
    obtain ⟨fuel, failure, store, answered, -⟩ := fails
    exact ⟨fuel, _, answered⟩
  -- Ending by name with a value or a failure, the store answers with it, or its levels do not
  -- suffice.
  generalize last : ByName.run (program.context annotations) rounds (ByName.start settings program.root) = ended
    at final
  cases final with
  | value result =>
    rcases evaluate_of_value last with ⟨fuel, value, store, answered, -⟩ | ⟨-, overflow⟩
    · exact ⟨fuel, _, answered⟩
    · exact failed overflow
  | failure variant =>
    rcases evaluate_of_failure last with own | ⟨-, overflow⟩
    · exact failed own
    · exact failed overflow

end Evaluate

/-- What two evaluations come to is the same, if one is the other with alias groups by name. -/
theorem NamedAnswer.same {source : Guarded} {deep : Bool} {named : ByName.State} {first second : Reply Value}
    (left : NamedAnswer source.guarded deep named first)
    (right : NamedAnswer source.context deep (named.unguard source) second) :
    SameOutcome (SameData deep first.store second.store) first.result second.result := by
  cases left with
  | value reached agrees =>
    -- What the guarded run reaches has an image that the other run reaches, and what a run reaches
    -- at its end is unique.
    have image := unguard_reaches source (.value _) reached
    cases right with
    | value reachedOther agreesOther =>
      cases image.unique reachedOther (.value _) (.value _)
      refine .ok ⟨?_, fun data other holds holdsOther => ?_, fun whole => ?_⟩
      · rw [agrees.kind, agreesOther.kind, kind_unguard]
      · exact (agrees.data data holds).unguard (agreesOther.data other holdsOther)
      · obtain ⟨data, holds, given⟩ := agrees.whole whole
        obtain ⟨other, holdsOther, givenOther⟩ := agreesOther.whole whole
        cases given.unguard givenOther
        exact ⟨data, holds, holdsOther⟩
    | failure _ reachedOther => cases image.unique reachedOther (.value _) (.failure _)
    | circle _ endless => exact absurd endless (image.not_diverges (.value _))
  | failure own reached =>
    have image := unguard_reaches source (.failure _) reached
    cases right with
    | value reachedOther => cases image.unique reachedOther (.failure _) (.value _)
    | failure _ reachedOther =>
      have alike := image.unique reachedOther (.failure _) (.failure _)
      simp only [ByName.State.unguard, Control.unguard, ByName.State.mk.injEq, ByName.Control.raise.injEq] at alike
      exact .error alike.1
    | circle _ endless => exact absurd endless (image.not_diverges (.failure _))
  -- What goes on for ever by name goes on for ever without alias groups.
  | circle cause endless =>
    have image := (diverges_unguard source).mpr endless
    cases right with
    | value reachedOther => exact absurd image (reachedOther.not_diverges (.value _))
    | failure _ reachedOther => exact absurd image (reachedOther.not_diverges (.failure _))
    | circle causeOther => exact .error (cause.trans causeOther.symm)

/-- By name, what ends for an answer that is not about a circle ends. -/
theorem NamedAnswer.final {context : Context} {deep : Bool} {named : ByName.State} {reply : Reply Value}
    (answer : NamedAnswer context deep named reply) (ordinary : ¬ Circles reply.result) :
    ∃ rounds, (ByName.run context rounds named).Final := by
  cases answer with
  | value reached =>
    obtain ⟨rounds, ran⟩ := reached
    exact ⟨rounds, ran ▸ .value _⟩
  | failure _ reached =>
    obtain ⟨rounds, ran⟩ := reached
    exact ⟨rounds, ran ▸ .failure _⟩
  | circle cause => exact absurd cause ordinary

section Plainly

variable (program : Program) (settings : Settings) (annotations : Annotations)

/-- Putting every expression off as it is gives the answers that the program with alias groups gives. -/
theorem evaluatePlainly_iff {count : Nat} (below : program.code.Below count) (inside : program.root < count)
    (reply : Reply Value) :
    (∃ fuel, program.evaluatePlainly settings annotations fuel = some reply) ↔
      ∃ fuel, (Program.mk program.names (program.code.guard count) program.root).evaluate settings annotations []
        fuel = some reply := by
  -- The request names the root alone, which is at the first positions, and the store is empty.
  have asked : Request.Within (.below count) 0 (.evaluate program.root {}) := ⟨inside, .empty⟩
  have known : Store.Within (.below count) {} := fun _ inside => absurd inside (Nat.not_lt_zero _)
  have within := asked.start ⟨program.context annotations, settings⟩ known
  exact performBy_plain_guard below within

theorem start_unguard {source : Guarded} {root : ExprId} (inside : root < source.count) :
    (ByName.start settings root).unguard source = ByName.start settings root := by
  have same : source.core root = root := Code.unguarded_of_lt inside
  simp only [ByName.start, ByName.State.unguard, Control.unguard, unguardEnv, same]
  split <;> rfl

/--
Putting every expression off as it is changes nothing about a program. If neither evaluation meets the limit
of levels, both have the same data or fail for a reason of the same kind; and if one has a value or fails for
any other reason than that a computation needs itself, then the other one ends as well.
-/
theorem evaluatePlainly_same :
    (∀ fuel more first second,
      program.evaluatePlainly settings annotations fuel = some first →
      program.evaluate settings annotations [] more = some second →
      ¬ Overflows first.result → ¬ Overflows second.result →
      SameOutcome (SameData settings.deepForce first.store second.store) first.result second.result) ∧
    (∀ fuel first, program.evaluatePlainly settings annotations fuel = some first →
      ¬ Overflows first.result → ¬ Circles first.result →
      ∃ more second, program.evaluate settings annotations [] more = some second) ∧
    (∀ fuel second, program.evaluate settings annotations [] fuel = some second →
      ¬ Overflows second.result → ¬ Circles second.result →
      ∃ more first, program.evaluatePlainly settings annotations more = some first) := by
  -- The two programs are related through the program with alias groups in front of the atoms.
  obtain ⟨count, below, inside⟩ := program.code.exists_below program.root
  let source : Guarded := ⟨program.context annotations, count, below⟩
  have start : (ByName.start settings program.root).unguard source = ByName.start settings program.root :=
    start_unguard settings inside
  have plainly {fuel : Nat} {reply : Reply Value}
      (answered : program.evaluatePlainly settings annotations fuel = some reply)
      (enough : ¬ Overflows reply.result) :
      NamedAnswer source.guarded settings.deepForce (ByName.start settings program.root) reply := by
    obtain ⟨more, answered⟩ := (evaluatePlainly_iff program settings annotations below inside reply).mp
      ⟨fuel, answered⟩
    exact namedAnswer_of_evaluate answered enough
  refine ⟨fun fuel more first second left right leftEnough rightEnough => ?_,
    fun fuel first answered enough ordinary => ?_, fun fuel second answered enough ordinary => ?_⟩
  · -- Both evaluations answer for their run by name, and the two runs have images of one another.
    have same : NamedAnswer source.context settings.deepForce
        ((ByName.start settings program.root).unguard source) second :=
      start.symm ▸ namedAnswer_of_evaluate right rightEnough
    exact (plainly left leftEnough).same same
  · -- A run by name that ends without alias groups ends with them, and the other way round.
    obtain ⟨rounds, final⟩ := (plainly answered enough).final ordinary
    have image := unguard_reaches source final ⟨rounds, rfl⟩
    rw [start] at image
    obtain ⟨others, ran⟩ := image
    have ended : (ByName.run source.context others (ByName.start settings program.root)).Final :=
      ran ▸ (final_unguard source).mpr final
    exact evaluate_of_final ended
  · obtain ⟨rounds, final⟩ := (namedAnswer_of_evaluate answered enough).final ordinary
    have unguarded : (ByName.run source.context rounds
      ((ByName.start settings program.root).unguard source)).Final := start.symm ▸ final
    obtain ⟨last, ended, ⟨others, ran⟩, -⟩ := reaches_of_unguard source unguarded
    let guarded : Program := ⟨program.names, program.code.guard count, program.root⟩
    have stopped : (ByName.run (guarded.context annotations) others
        (ByName.start settings guarded.root)).Final := ran ▸ ended
    obtain ⟨fuel, reply, answered⟩ := evaluate_of_final stopped
    obtain ⟨more, answered⟩ := (evaluatePlainly_iff program settings annotations below inside reply).mpr
      ⟨fuel, answered⟩
    exact ⟨more, reply, answered⟩

end Plainly

/-- The code of `let x = 1 in [x]`. -/
def sharedOne : Code where
  exprs := #[.int 1, .ident 1, .list [1], .letIn 1 0 2]

end LazyConfig
