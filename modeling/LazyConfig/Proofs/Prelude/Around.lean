import LazyConfig.Proofs.Machine.History
import LazyConfig.Proofs.Prelude.Members

/-!
Programs with the list functions around them. When the body is evaluated, the functions are in scope, and
they stay so for the rest of a session unless there are no levels left at their first use.
-/

namespace LazyConfig.Lists

open Term

/-- Around a body the record of the list functions is put off, and the body is evaluated in its scope. -/
theorem ReadsAround.inScope {context : Context} {body id : ExprId} (reads : ReadsAround context body id)
    (store : Store) (env : Env) :
    ∃ inside after, InScope context after store.cells.size ∧
      context.Binds inside "lists" store.cells.size ∧ store.Extends after ∧
      (∀ text bound, text ≠ "lists" → context.Binds env text bound → context.Binds inside text bound) ∧
      ∀ meter stack, State.step context ⟨store, meter, .eval id env, stack⟩ =
        ⟨after, meter, .eval body inside, stack⟩ := by
  obtain ⟨name, record, node, named, reads⟩ := reads.bound
  have own : context.Binds (env.bind name store.cells.size) "lists" store.cells.size := .self named _ _
  have waits := store.cell_alloc (.suspended (.expr record (env.bind name store.cells.size))) store.cells.size
  refine ⟨_, _, .waiting (waits.trans (if_pos rfl)) reads own, own, store.suspend_extends _,
    fun text bound other binds => binds.bind named other _, fun meter stack => ?_⟩
  simp [State.step, Context.evalStep, node, Context.bindRecursive_eq, Store.suspend]

/--
List functions that are in scope at one moment of a session are so at every later moment, unless their
record is under way, or there were not levels enough to evaluate it.
-/
theorem InScope.onward {moment later : Moment} {lists : ThunkId}
    (scope : InScope moment.context moment.store lists)
    (nested : WellNested moment.store moment.state.stack) (onward : moment.Onward later) :
    InScope moment.context later.store lists ∨ later.store.cell lists = .inProgress ∨
      ∃ upset : Upset, later.store.cell lists = .failed upset.remembered ∧ ∃ limit, upset.Overflows limit := by
  cases scope with
  | evaluated evaluated => exact .inl (.evaluated (evaluated.later (onward.precedes nested).2))
  | waiting found reads binds =>
    rcases onward.history nested found with still | busy | ⟨before, after, outcome, -, -, beyond, -, asked,
      brings, nested', kept⟩
    · exact .inl (.waiting still reads binds)
    · exact .inr (.inl busy)
    · by_cases fits : outcome.Fits before.state.meter.limit
      · -- With a level left the record is evaluated, and it has the same outcome with more levels.
        let high : DepthMeter :=
          ⟨before.state.meter.limit + before.state.meter.current + 1, before.state.meter.current⟩
        have higher : Brings moment.context high before.store (.force lists) outcome after.store :=
          brings.shift fits (by simp only [high]; omega)
        obtain ⟨fields, last, forces, evaluated, -⟩ := InScope.forces (.waiting asked reads binds)
          (show high.current < high.limit by simp only [high]; omega)
        have own : Brings moment.context high before.store (.force lists) (.ok (.record fields)) last := forces
        obtain ⟨-, rfl⟩ := higher.unique own
        exact .inl (.evaluated (evaluated.later (beyond.precedes nested').2))
      · obtain ⟨upset, rfl, overflows⟩ := Outcome.overflows_of_not_fits fits
        exact .inr (.inr ⟨upset, kept, _, overflows⟩)

/-- What is said about a program that has the list functions around its body. -/
structure Offered (context : Context) : Prop where
  /-- One step of such a program puts off the record of the list functions and comes to the body in its scope. -/
  body : ∀ {draft body}, (around body draft).2.Within context → ∀ (store : Store) (env : Env),
    ∃ inside after, InScope context after store.cells.size ∧
      context.Binds inside "lists" store.cells.size ∧ store.Extends after ∧
      ∀ meter stack, State.step context ⟨store, meter, .eval (around body draft).1 env, stack⟩ =
        ⟨after, meter, .eval body inside, stack⟩
  /--
  The list functions stay in scope for the rest of a session, unless their record is under way, or there were not
  levels enough to evaluate it.
  -/
  stays : ∀ {moment later : Moment} {lists}, moment.context = context →
    InScope context moment.store lists → WellNested moment.store moment.state.stack → moment.Onward later →
    InScope context later.store lists ∨ later.store.cell lists = .inProgress ∨
      ∃ upset : Upset, later.store.cell lists = .failed upset.remembered ∧ ∃ limit, upset.Overflows limit

/-- Every program with the list functions around its body is as said. -/
theorem offered (context : Context) : Offered context where
  body within store env := by
    obtain ⟨inside, after, scope, binds, grown, -, step⟩ :=
      (readsAround_of_within within).inScope store env
    exact ⟨inside, after, scope, binds, grown, step⟩
  stays same scope nested onward := by
    subst same
    exact scope.onward nested onward

/-! Uses of the list functions on variables. -/

/-- A use of one of the list functions on two variables, the same on a third one, and the program of it. -/
def usage (name : String) : Build (ExprId × ExprId × ExprId) := do
  let use ← member name
  let x ← Build.ident "x"
  let y ← Build.ident "y"
  let z ← Build.ident "z"
  let once ← Build.apply use x
  let twice ← Build.apply once y
  let whole ← Build.apply twice z
  let program ← around whole
  pure (twice, whole, program)

/-- What is built is such a use. -/
theorem usage_makes {context : Context} {given : Prop} (name : String) :
    Makes context given (usage name) fun built =>
      context.Reads (app (app (memberTerm name) (var "x")) (var "y")) built.1 ∧
        (∃ z, context.code.expr built.2.1 = .apply built.1 z ∧ context.Reads (var "z") z) ∧
        ReadsAround context built.2.1 built.2.2 := by
  unfold usage
  refine .bind (member_makes name) fun use => .bind (.ident "x") fun x => .bind (.ident "y") fun y => ?_
  refine .bind (.ident "z") fun z => .bind (.apply (fun facts => facts.1.1.1.2) fun facts => facts.1.1.2)
    fun once => ?_
  refine .bind (.apply (fun facts => facts.2) fun facts => facts.1.1.2) fun twice => ?_
  refine .bind (.expr (.apply twice z)) fun whole => .bind (around_makes whole) fun program => ?_
  exact .pure fun facts => ⟨facts.1.1.2, ⟨z, facts.1.2, facts.1.1.1.1.2⟩, facts.2⟩

/-- Variables that are bound to values, in the program of a use on them. -/
structure Used (context : Context) (store : Store) (env : Env) (lists : ThunkId) (name : String)
    (x y z twice whole : ExprId) (one two three : Value) : Prop where
  scope : InScope context store lists
  binds : context.Binds env "lists" lists
  usesTwo : UsesTwo context name x y twice
  usesThree : UsesThree context name x y z whole
  shares : ∀ later, context.suspend later x env = (0, later) ∧ context.suspend later y env = (1, later) ∧
    context.suspend later z env = (2, later)
  values : store.cell 0 = .forced one ∧ store.cell 1 = .forced two ∧ store.cell 2 = .forced three
  place : lists = 3

/-- There is such a program for any values. -/
theorem exists_used (name : String) (one two three : Value) :
    ∃ context store env lists x y z twice whole,
      Used context store env lists name x y z twice whole one two three := by
  -- The names are those that building the program in an empty table gives.
  obtain ⟨⟨⟨twice, whole, program⟩, draft⟩, made⟩ : ∃ built, usage name {} = built := ⟨_, rfl⟩
  let context : Context := ⟨draft.names, draft.code, {}⟩
  have reads := (@usage_makes context True name {}).2
  rw [made] at reads
  obtain ⟨⟨once, y, outer, ⟨use, x, inner, mem, readsX⟩, readsY⟩, ⟨z, last, readsZ⟩, around⟩ :=
    reads (draft.within_self {}) trivial
  have varX := readsX
  have varY := readsY
  have varZ := readsZ
  obtain ⟨nameX, namedX, -⟩ := varX
  obtain ⟨nameY, namedY, -⟩ := varY
  obtain ⟨nameZ, namedZ, -⟩ := varZ
  -- The three values stand in a store of their own, and the variables are bound to them from the
  -- outside in.
  let store : Store := { cells := #[.forced one, .forced two, .forced three] }
  let env : Env := ((({} : Env).bind nameX 0).bind nameY 1).bind nameZ 2
  obtain ⟨inside, after, scope, binds, grown, passes, -⟩ := around.inScope store env
  have bindsX : context.Binds env "x" 0 :=
    ((Context.Binds.self namedX _ _).bind namedY (by decide) _).bind namedZ (by decide) _
  have bindsY : context.Binds env "y" 1 := (Context.Binds.self namedY _ _).bind namedZ (by decide) _
  refine ⟨context, after, inside, 3, x, y, z, twice, whole, scope, binds, ⟨once, use, outer, inner, mem⟩,
    ⟨twice, last, once, use, outer, inner, mem⟩, fun later => ⟨?_, ?_, ?_⟩, ⟨?_, ?_, ?_⟩, rfl⟩
  · -- A variable is bound to what it was bound to in the scope of the list functions, and what was
    -- there is there still.
    exact readsX.suspend_var (passes _ _ (by decide) bindsX) later
  · exact readsY.suspend_var (passes _ _ (by decide) bindsY) later
  · exact readsZ.suspend_var (passes _ _ (by decide) (.self namedZ _ _)) later
  · exact grown.2 0 (by simp [store])
  · exact grown.2 1 (by simp [store])
  · exact grown.2 2 (by simp [store])

section

variable {context : Context} {store ready : Store} {env : Env} {lists func second third : ThunkId}
  {name : String} {x y z twice whole : ExprId} {one two three : Value}

/-- The operands of a use on two variables are the computations that these stand for. -/
theorem Used.places_two (used : Used context store env lists name x y z twice whole one two three)
    (places : PlacesTwo context lists env x y store func second ready) :
    func = 0 ∧ second = 1 ∧ ready.cell 0 = .forced one ∧ ready.cell 1 = .forced two ∧
      ready.cell 2 = .forced three := by
  obtain ⟨begun, middle, spares, put, put'⟩ := places
  rw [(used.shares begun).1] at put
  obtain ⟨rfl, rfl⟩ := Prod.mk.inj put
  rw [(used.shares _).2.1] at put'
  obtain ⟨rfl, rfl⟩ := Prod.mk.inj put'
  have kept {place : ThunkId} {value : Value} (found : store.cell place = .forced value) (other : place ≠ lists) :
      begun.afterFunction.cell place = .forced value :=
    (spares.cells place (Store.lt_size_of_cell found (by simp)) other).trans found
  obtain ⟨first, other, last⟩ := used.values
  have place := used.place
  exact ⟨rfl, rfl, kept first (by simp [place]), kept other (by simp [place]), kept last (by simp [place])⟩

/-- The operands of a use on three variables are the computations that these stand for. -/
theorem Used.places_three (used : Used context store env lists name x y z twice whole one two three)
    (places : PlacesThree context lists env x y z store func second third ready) :
    func = 0 ∧ second = 1 ∧ third = 2 ∧ ready.cell 0 = .forced one ∧ ready.cell 1 = .forced two ∧
      ready.cell 2 = .forced three := by
  obtain ⟨middle, places, put⟩ := places
  obtain ⟨rfl, rfl, values⟩ := used.places_two places
  rw [(used.shares _).2.2] at put
  obtain ⟨rfl, rfl⟩ := Prod.mk.inj put
  exact ⟨rfl, rfl, rfl, values⟩

end

end LazyConfig.Lists
