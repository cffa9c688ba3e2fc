import LazyConfig.Proofs.Erasure.Expressions

/-!
One step of evaluation by name with annotations, followed without. Checks are steps of their own,
but only so many of them come in a row, and a check that fails fails for the type.
-/

namespace LazyConfig.ByName

/-- The number of checking walks that a walk is inside. -/
def checkingWalks : Consumer → List Frame → Nat
  | .checkCell _, .spine _ consumer :: rest => checkingWalks consumer rest + 1
  | _, _ => 0

/-- The size of what the walks that a walk is inside have still to pass. -/
noncomputable def checkingSize : Consumer → List Frame → Nat
  | .checkCell _, .spine pending consumer :: rest => sizeOf pending + checkingSize consumer rest
  | _, _ => 0

/--
How far evaluation with annotations is from a step that evaluation without them takes too. Once the
next element of a walk is there, only the walks around have to pass it on.
-/
noncomputable def checksLeft (source : Annotated) (state : State) : Nat × Nat :=
  match state.control with
  | .eval id env => (sizeOf env, source.wraps id)
  | .force promise => (sizeOf promise, 0)
  | .give _ => (state.stack.length, 0)
  | .advance (.item _ :: _) consumer | .advance (.range _ _ :: _) consumer =>
    (0, checkingWalks consumer state.stack)
  | .advance items consumer => (sizeOf items + checkingSize consumer state.stack, 0)
  | _ => (0, 0)

/-- Fewer checks are left. -/
def FewerChecks (source : Annotated) (later state : State) : Prop :=
  Prod.Lex (· < ·) (· < ·) (checksLeft source later) (checksLeft source state)

/-- What one step of evaluation without annotations is with them. -/
inductive Erased (source : Annotated) (others : Annotations) (state bare : State) : Prop
  /-- Some steps with annotations, and one without. -/
  | moves (steps : Nat) (unfinished : ¬ state.Final) (going : ¬ bare.Final)
    (erases : Erases source (run source.context (steps + 1) state)
      (step (source.erased others) bare))
  /-- Steps that only check. -/
  | pauses (steps : Nat) (unfinished : ¬ state.Final)
    (erases : Erases source (run source.context (steps + 1) state) bare)
    (fewer : FewerChecks source (run source.context (steps + 1) state) state)
  /-- A check fails. -/
  | refuses (steps : Nat) (stack : List Frame)
    (refused : run source.context steps state = ⟨.raise .typeMismatch, stack⟩)
  /-- Both have a value. -/
  | ends (value result : Value) (erases : ValueErases source value result)
    (ended : state = ⟨.give value, []⟩) (same : bare = ⟨.give result, []⟩)
  /-- Both fail in the same way. -/
  | fails (variant : Variant) (raised : state.control = .raise variant)
    (same : bare.control = .raise variant)

variable {source : Annotated} {others : Annotations}

/-- A rule that both take. -/
theorem Erased.of_turns {state bare : State} {stack other : List Frame} {turn bareTurn : Turn}
    (erases : TurnErases source turn bareTurn) (more : StackErases source stack other)
    (taken : step source.context state = turn.onto stack)
    (same : step (source.erased others) bare = bareTurn.onto other) (unfinished : ¬ state.Final)
    (going : ¬ bare.Final) : Erased source others state bare := by
  refine .moves 0 unfinished going ?_
  have one : run source.context (0 + 1) state = turn.onto stack := taken
  rw [one, same]
  exact erases _ _ more

/-- What is found in an environment is smaller than the environment. -/
theorem sizeOf_lookup {env : Env} {name : Name} {promise : Promise}
    (found : env.lookup name = some promise) : sizeOf promise < sizeOf env := by
  have smaller := List.sizeOf_lt_of_mem (mem_of_lookup found)
  rw [Prod.mk.sizeOf_spec] at smaller
  omega

/-- Evaluating an expression that is ascribed or in the scope of aliases only comes closer to it. -/
theorem eval_unwraps {id : ExprId} (covered : source.Covered id)
    (wrapped : ¬ (source.code.expr id).isPlain = true) (env : Env) (stack : List Frame) :
    ∃ inner frames, source.Covered inner ∧ source.core id = source.core inner ∧
      FewerChecks source ⟨.eval inner env, frames ++ stack⟩ ⟨.eval id env, stack⟩ ∧
      run source.context (0 + 1) ⟨.eval id env, stack⟩ = ⟨.eval inner env, frames ++ stack⟩ ∧
      ∀ {others}, StackErases source stack others → StackErases source (frames ++ stack) others := by
  have one : run source.context (0 + 1) ⟨.eval id env, stack⟩ =
      (evalTurn source.context id env).onto stack := rfl
  have read : source.context.code.expr id = source.code.expr id := rfl
  -- The environment stays, and there is one wrap less around the core.
  have closer {inner : ExprId} (frames : List Frame) (less : source.wraps id = source.wraps inner + 1) :
      FewerChecks source ⟨.eval inner env, frames ++ stack⟩ ⟨.eval id env, stack⟩ :=
    .right _ (less ▸ Nat.lt_succ_self _)
  cases found : source.code.expr id with
  | ascribe value type =>
    obtain ⟨⟨resolved, known⟩, inner, core, less⟩ := covered.ascribe found
    refine ⟨value, [.ascribe resolved], inner, core, closer _ less, ?_, .ascribe resolved⟩
    have looked : source.context.annotations.get? type = some resolved := known
    rw [one, evalTurn, read, found]
    dsimp only
    rw [looked]
    rfl
  | aliases defs body =>
    obtain ⟨inner, core, less⟩ := covered.aliases found
    refine ⟨body, [], inner, core, closer _ less, ?_, fun more => more⟩
    rw [one, evalTurn, read, found]
    rfl
  | _ =>
    rw [found] at wrapped
    exact absurd rfl wrapped

/-- Evaluating an expression. -/
theorem Erased.eval {id other : ExprId} {env bound : Env} {stack bares : List Frame}
    (covered : source.Covered id) (same : source.core id = source.core other)
    (binds : EntriesErase source env bound) (more : StackErases source stack bares) :
    Erased source others ⟨.eval id env, stack⟩ ⟨.eval other bound, bares⟩ := by
  by_cases plain : (source.code.expr id).isPlain = true
  · exact .of_turns (evalTurn_erases covered plain same binds) more rfl rfl nofun nofun
  · obtain ⟨inner, frames, within, core, fewer, ran, onto⟩ := eval_unwraps covered plain env stack
    refine .pauses 0 nofun ?_ (ran ▸ fewer)
    rw [ran]
    exact .eval within (core ▸ same) binds (onto more)

/-- Evaluating an annotated variable, which without the annotation stands for what it is bound to. -/
theorem Erased.named {id : ExprId} {name : Name} {env bound : Env} {bare : Promise}
    {stack bares : List Frame} (covered : source.Covered id)
    (found : source.code.expr (source.core id) = .ident name)
    (binds : EntriesErase source env bound) (known : bound.lookup name = some bare)
    (more : StackErases source stack bares) :
    Erased source others ⟨.eval id env, stack⟩ ⟨.force bare, bares⟩ := by
  by_cases plain : (source.code.expr id).isPlain = true
  · -- The variable itself is looked up.
    have looked := binds.lookup name
    rw [known] at looked
    cases bind : env.lookup name with
    | none =>
      rw [bind] at looked
      cases looked
    | some promise =>
      rw [bind] at looked
      have ran : run source.context (0 + 1) ⟨.eval id env, stack⟩ = ⟨.force promise, stack⟩ := by
        have one : run source.context (0 + 1) ⟨.eval id env, stack⟩ =
            (evalTurn source.context id env).onto stack := rfl
        have read : source.context.code.expr id = source.code.expr id := rfl
        rw [Annotated.core_of_isPlain plain] at found
        rw [one, evalTurn, read, found]
        dsimp only
        rw [bind]
        rfl
      cases looked with
      | some erases =>
        refine .pauses 0 nofun ?_ ?_
        · rw [ran]
          exact .force erases more
        · rw [FewerChecks, ran]
          -- What the variable stands for is a part of the environment.
          exact .left _ _ (sizeOf_lookup bind)
  · obtain ⟨inner, frames, within, core, fewer, ran, onto⟩ := eval_unwraps covered plain env stack
    refine .pauses 0 nofun ?_ (ran ▸ fewer)
    rw [ran]
    exact .named within (core ▸ found) binds known (onto more)

/-- Doing what a promise says. -/
theorem Erased.force {promise bare : Promise} {stack bares : List Frame}
    (erases : PromiseErases source promise bare) (more : StackErases source stack bares) :
    Erased source others ⟨.force promise, stack⟩ ⟨.force bare, bares⟩ := by
  -- All but two promises start the same work on both sides.
  cases erases with
  | ready erases => exact .moves 0 nofun nofun (.give erases more)
  | expr covered names promises =>
    exact .moves 0 nofun nofun (.eval covered rfl (.of_parts names promises) more)
  | recursive covered names promises =>
    exact .moves 0 nofun nofun (.eval covered rfl
      (.cons ⟨rfl, .recursive covered names promises⟩ (EntriesAgree.of_parts names promises)) more)
  | apply func args => exact .moves 0 nofun nofun (.force func (.frame (.args args) more))
  | named covered found names promises known =>
    refine .pauses 0 nofun (.named covered found (.of_parts names promises) known more) ?_
    refine .left _ _ ?_
    simp only [Promise.expr.sizeOf_spec]
    omega
  -- The check becomes a frame that only the annotated side has.
  | check erases =>
    refine .pauses 0 nofun (.force erases (.ascribe _ more)) (.left _ _ ?_)
    simp only [Promise.check.sizeOf_spec]
    omega

/-- Giving a value to what waits for it. -/
theorem Erased.give {value bare : Value} {stack bares : List Frame}
    (erases : ValueErases source value bare) (more : StackErases source stack bares) :
    Erased source others ⟨.give value, stack⟩ ⟨.give bare, bares⟩ := by
  -- Three frames are there with annotations only: a check, and the two that unroll a checked list.
  cases more with
  | nil => exact .ends value bare erases rfl rfl
  | frame waits more => exact .of_turns (giveTurn_erases erases waits) more rfl rfl nofun nofun
  | @ascribe type rest others more =>
    have one : run source.context (0 + 1) ⟨.give value, .ascribe type :: rest⟩ =
        ⟨.ofResult (value.check source.names source.annotations.graph type), rest⟩ := rfl
    rcases erases.check source.names source.sound type with ⟨checked, passed, erases⟩ | failed
    · -- The frame of the check is gone, and the checked value stands for the same one.
      rw [passed] at one
      refine .pauses 0 nofun (one ▸ .give erases more) ?_
      rw [FewerChecks, one]
      exact .left _ _ (Nat.lt_succ_self _)
    · rw [failed] at one
      exact .refuses 1 rest one
  | @spine pending others after consumer bare frames rest stack listed around more =>
    cases erases with
    | list items =>
      refine .moves 0 nofun nofun ?_
      have walk := Erases.advance (items.append listed) around more
      rw [List.append_assoc] at walk
      exact walk
    | _ => exact .moves 0 nofun nofun (.raise .notAList _ _)

/-- What is checked on a walk is not more than what there is to pass. -/
theorem checksLeft_advance (items : List Segment) (consumer : Consumer) (stack : List Frame) :
    (checksLeft source ⟨.advance items consumer, stack⟩).1 ≤
      sizeOf items + checkingSize consumer stack := by
  match items with
  | [] | .joint _ :: _ => exact Nat.le_refl _
  | .item _ :: _ | .range _ _ :: _ => exact Nat.zero_le _

/-- A checking walk that passes its element on to the walk around it. -/
theorem Erased.of_passes {items pending passed : List Segment} {elem : TypeId} {outer : Consumer}
    {stack : List Frame} {bare : State}
    (ran : run source.context (1 + 1) ⟨.advance items (.checkCell elem), .spine pending outer :: stack⟩ =
      ⟨.advance passed outer, stack⟩)
    (erases : Erases source ⟨.advance passed outer, stack⟩ bare)
    (fewer : FewerChecks source ⟨.advance passed outer, stack⟩
      ⟨.advance items (.checkCell elem), .spine pending outer :: stack⟩) :
    Erased source others ⟨.advance items (.checkCell elem), .spine pending outer :: stack⟩ bare := by
  refine .pauses 1 nofun ?_ ?_
  · rwa [ran]
  · rwa [ran]

/-- Taking a step along a list. -/
theorem Erased.advance {items bares after : List Segment} {consumer bare : Consumer}
    {frames stack rest : List Frame} (listed : ListErases source items bares)
    (around : WalkErases source consumer frames after bare)
    (more : StackErases source stack rest) :
    Erased source others ⟨.advance items consumer, frames ++ stack⟩
      ⟨.advance (bares ++ after) bare, rest⟩ := by
  -- How the checked list begins and what walks along it decide which of the two sides moves.
  cases listed with
  | joint erases listed =>
    have waits := StackErases.spine listed around more
    exact .moves 0 nofun nofun (.force erases waits)
  | @checked inside inner pending others elem first second =>
    -- The list behind the checks is walked first.
    have walk := Erases.advance first (@WalkErases.checked _ elem _ _ _ _ _ _ second around) more
    rw [← List.append_assoc] at walk
    have ran : run source.context (1 + 1)
        ⟨.advance (.joint (.checkList inside elem) :: pending) consumer, frames ++ stack⟩ =
        ⟨.advance inside (.checkCell elem), .spine pending consumer :: (frames ++ stack)⟩ := rfl
    refine .pauses 1 nofun (ran ▸ walk) ?_
    rw [FewerChecks, ran]
    refine .left _ _ (Nat.lt_of_le_of_lt (checksLeft_advance inside (.checkCell elem) _) ?_)
    simp only [checkingSize, List.cons.sizeOf_spec, Segment.joint.sizeOf_spec,
      Promise.checkList.sizeOf_spec]
    omega
  | nil =>
    cases around with
    -- Outside of all checks, the element is handed to the consumer on both sides.
    | outermost erases =>
      exact .of_turns (consumeTurn_erases _ _ erases .none .nil) more rfl rfl nofun nofun
    | @checked elem pending others outer frames after _ second around =>
      -- The list behind the checks is at its end, and the walk around goes on.
      have walk := Erases.advance second around more
      refine .of_passes rfl walk ?_
      refine .left _ _ (Nat.lt_of_le_of_lt (checksLeft_advance pending outer _) ?_)
      simp only [checkingSize, List.nil.sizeOf_spec]
      omega
  | @item promise other tail bareTail erases listed =>
    cases around with
    | outermost consumes =>
      rw [List.append_nil]
      exact .of_turns (consumeTurn_erases _ _ consumes (.some erases) listed) more rfl rfl nofun nofun
    -- Inside a check, the element is only wrapped and handed to the walk around.
    | @checked elem pending others outer frames after _ second around =>
      have passed := @ListErases.checked _ _ _ _ _ elem listed second
      have walk := Erases.advance (.item (erases.wrap source.annotations.graph elem) passed)
        around more
      rw [List.cons_append, List.append_assoc] at walk
      exact .of_passes rfl walk (.right _ (Nat.lt_succ_self _))
  | @unrolled promise next stop tail bareTail erases listed =>
    cases around with
    | outermost consumes =>
      rw [List.append_nil]
      exact .of_turns (consumeTurn_erases _ _ consumes (.some erases) listed) more rfl rfl nofun nofun
    | @checked elem pending others outer frames after _ second around =>
      have passed := @ListErases.checked _ _ _ _ _ elem listed second
      rw [List.append_assoc] at passed
      have walk := Erases.advance (.unrolled (erases.wrap source.annotations.graph elem) passed)
        around more
      rw [List.cons_append, List.append_assoc] at walk
      exact .of_passes rfl walk (.right _ (Nat.lt_succ_self _))
  | @range next stop tail bareTail listed =>
    cases around with
    | outermost consumes =>
      rw [List.append_nil]
      exact .of_turns (consumeTurn_erases _ _ consumes (.some (.ready (.int next)))
        (.span (next + 1) stop listed)) more rfl rfl nofun nofun
    | @checked elem pending others outer frames after _ second around =>
      -- The first integer stands for itself, and the others are put off to be checked.
      have passed := @ListErases.checked _ _ _ _ _ elem (listed.span (next + 1) stop) second
      rw [List.append_assoc] at passed
      have first : PromiseErases source (.ready (.int next)) (.ready (.int next)) := .ready (.int next)
      have walk := Erases.advance (.unrolled (first.wrap source.annotations.graph elem) passed)
        around more
      rw [List.cons_append, List.append_assoc] at walk
      exact .of_passes rfl walk (.right _ (Nat.lt_succ_self _))

/-- Every step without annotations is some steps with them, or a check fails. -/
theorem Erases.progress {state bare : State} (erases : Erases source state bare) :
    Erased source others state bare := by
  -- Only evaluating, asking, giving and walking can take steps that there are not without
  -- annotations.
  cases erases with
  | eval covered same binds more => exact .eval covered same binds more
  | named covered found binds known more => exact .named covered found binds known more
  | force erases more => exact .force erases more
  | apply erases argument more =>
    exact .of_turns (applyTurn_erases erases argument) more rfl rfl nofun nofun
  | run promises more => exact .of_turns (runTurn_erases _ promises) more rfl rfl nofun nofun
  | operate left right more =>
    exact .of_turns (operateTurn_erases _ left right) more rfl rfl nofun nofun
  | advance listed around more => exact .advance listed around more
  | deepen works erases more =>
    exact .of_turns (deepenTurn_erases works erases) more rfl rfl nofun nofun
  | compare pairs more => exact .of_turns (compareTurn_erases pairs) more rfl rfl nofun nofun
  | give erases more => exact .give erases more
  | raise variant stack others => exact .fails variant rfl rfl

end LazyConfig.ByName
