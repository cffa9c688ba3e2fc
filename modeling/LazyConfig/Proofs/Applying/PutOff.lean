import LazyConfig.Proofs.Applying.Sequence

/-!
Evaluating an expression where it stands, and asking for it after it has been put off. Both come to the same,
whether the expression was put off as it is, shares the computation of a variable or was made at once.
-/

namespace LazyConfig

/-- A computation of the second store is what an expression of the first store has been put off as. -/
inductive PutOff (context : Context) (pairs : Pairing) (right : Store) (id : ExprId) (env : Env) :
    ThunkId → Prop
  /-- A variable shares the computation that it is bound to. -/
  | shared {name : Name} {bound : ThunkId} (node : context.code.expr id = .ident name)
    (known : env.lookup name = some bound) (paired : pairs bound bound) :
    PutOff context pairs right id env bound
  | waits {thunk : ThunkId} (single : ∀ first, ¬ pairs first thunk)
    (found : right.cell thunk = .suspended (.expr id env)) : PutOff context pairs right id env thunk
  | there {thunk : ThunkId} {value : Nat → Value} {next : Nat → Nat} {tag : Nat}
    (atOnce : context.AtOnce id env value next) (single : ∀ first, ¬ pairs first thunk)
    (found : right.cell thunk = .forced (value tag)) : PutOff context pairs right id env thunk

/-- What is agreed on while a computation in no pair is under way is agreed on once that has its outcome. -/
theorem Meets.settled {pairs more : Pairing} {left right after between : Store} {spared : ThunkId → Prop}
    {thunk : ThunkId} {outcome result : Outcome} (other : ¬ spared thunk)
    (meets : Meets (fun id => spared id ∨ id = thunk) pairs left (right.set thunk .inProgress) outcome result after
      between more) :
    Meets spared pairs left right outcome result after (between.set thunk (.ended result)) more := by
  refine ⟨meets.keeps, fun second kept => ?_, fun second kept => ?_,
    meets.twins.set_single (meets.alone thunk (.inr rfl)).2 _, meets.outcomes, ?_⟩
  · rw [Store.set_size]
    exact meets.alone second (.inl kept)
  · have apart : second ≠ thunk := fun same => other (same ▸ kept)
    rw [Store.cell_set_of_ne apart, meets.same second (.inl kept), Store.cell_set_of_ne apart]
  · exact meets.calls.of_calls rfl rfl (Store.set_calls ..).symm (Store.set_calls ..)

namespace PutOff

variable {context : Context} {pairs more : Pairing} {left right later : Store} {id : ExprId} {env : Env}
  {thunk : ThunkId} {spared : ThunkId → Prop}

/-- What has been put off waits as long as it is left alone. -/
theorem stays (put_off : PutOff context pairs right id env thunk)
    (keeps : ∀ first second, pairs first second → more first second)
    (same : (∀ first, ¬ pairs first thunk) →
      later.cell thunk = right.cell thunk ∧ ∀ first, ¬ more first thunk) :
    PutOff context more later id env thunk := by
  cases put_off with
  | shared node known paired => exact .shared node known (keeps _ _ paired)
  | waits single found => exact .waits (same single).2 ((same single).1.trans found)
  | there atOnce single found => exact .there atOnce (same single).2 ((same single).1.trans found)

/-- What is put off in a larger store waits there. -/
theorem of_suspend (context : Context) {store : Store} (order : left.cells.size ≤ store.cells.size)
    (bound : env.Within left.cells.size) :
    PutOff context (.below left.cells.size) (context.suspend store id env).2 id env
      (context.suspend store id env).1 := by
  have single : ∀ first, ¬ Pairing.below left.cells.size first store.cells.size :=
    fun first pair => absurd (pair.2 ▸ pair.1) (Nat.not_lt.mpr order)
  have how := context.suspends store id env
  generalize context.suspend store id env = result at how
  cases how with
  | shared node known => exact .shared node known ⟨bound.lookup known, rfl⟩
  | deferred => exact .waits single (store.suspend_cell _)
  | made atOnce => exact .there atOnce single ((Store.cell_alloc ..).trans (if_pos rfl))

/-- Evaluating an expression agrees with asking for a computation in no pair in which it waits. -/
theorem agrees_of_waits {low high : DepthMeter} {limit : Nat} (twins : Twins pairs left right)
    (binds : EnvTwin pairs env env) (alone : Spares pairs right spared) (other : ¬ spared thunk)
    (closed : right.Closed) (bound : env.Within right.cells.size) (first : low.limit = limit)
    (second : high.limit = limit) (single : ∀ first, ¬ pairs first thunk)
    (found : right.cell thunk = .suspended (.expr id env)) :
    Agrees limit spared pairs left right (Brings context low left (.eval id env))
      (Brings context high right (.force thunk)) := by
  by_cases inside : high.current < high.limit
  swap
  · -- Without a level left, the expression is not evaluated.
    have fails : Brings context high right (.force thunk) (.error (.fault (.depthExceeded high.limit))) _ :=
      .of_work found (Brings.refused inside)
    rw [fails.only]
    exact .of_out_right (second ▸ rfl)
  -- While the expression is evaluated, its computation is the only difference, and it is in no pair.
  have place := Store.lt_size_of_cell found (by simp)
  have started : Twins pairs left (right.set thunk .inProgress) := twins.set_single single _
  have busy : Spares pairs (right.set thunk .inProgress) fun id => spared id ∨ id = thunk := by
    rintro second (kept | rfl)
    · exact ⟨by rw [Store.set_size]; exact (alone second kept).1, (alone second kept).2⟩
    · exact ⟨by rwa [Store.set_size], single⟩
  have evaluated : Control.Within .all (right.set thunk .inProgress).cells.size (.eval id env) :=
    ⟨trivial, by rwa [Store.set_size]⟩
  have inner : Agrees limit (fun other => spared other ∨ other = thunk) pairs left
      (right.set thunk .inProgress) (Brings context low left (.eval id env))
      (Brings context (high.below 1) (right.set thunk .inProgress) (.eval id env)) :=
    .of_twins started busy (.eval id binds) rfl (Store.Within.set closed trivial) evaluated first second
  constructor
  · intro outcome after brings fits
    rcases inner.forth _ _ brings fits with ⟨more, result, between, evaluates, meets⟩ | runs_out
    · exact .inl ⟨more, result, _, (evaluates.of_entered found inside).2, meets.settled other⟩
    · obtain ⟨upset, between, evaluates, overflows⟩ := runs_out
      exact .inr ⟨upset, _, (evaluates.of_entered found inside).2, overflows⟩
  · intro result later brings fits
    obtain ⟨between, evaluates, rfl⟩ := brings.to_entered found inside
    rcases inner.back _ _ evaluates fits with ⟨more, outcome, after, brings, meets⟩ | runs_out
    · exact .inl ⟨more, outcome, after, brings, meets.settled other⟩
    · exact .inr runs_out

/-- Evaluating an expression agrees with asking for what it was put off as. -/
theorem agrees {low high : DepthMeter} {limit : Nat} (put_off : PutOff context pairs right id env thunk)
    (twins : Twins pairs left right) (binds : EnvTwin pairs env env) (alone : Spares pairs right spared)
    (other : ¬ spared thunk) (closed : right.Closed) (bound : env.Within right.cells.size)
    (first : low.limit = limit) (second : high.limit = limit) :
    Agrees limit spared pairs left right (Brings context low left (.eval id env))
      (Brings context high right (.force thunk)) := by
  -- A variable is shared, what is made at once is there already, and everything else waits in a
  -- cell of its own.
  cases put_off with
  | shared node known paired =>
    have same : Brings context low left (.eval id env) = Brings context low left (.force thunk) :=
      funext₂ fun _ _ => propext (Brings.eval_ident node known)
    rw [same]
    exact .of_twins twins alone (.force paired) rfl closed (twins.inside _ _ paired).2 first second
  | @there _ value next tag atOnce single found =>
    have evaluates : Brings context low left (.eval id env) (.ok (value left.closures))
        (left.counting (next left.closures)) := .of_atOnce atOnce left
    have asks : Brings context high right (.force thunk) (.ok (value tag)) right := ForcesTo.of_forced found
    have counted : pairs.Grows right pairs right ∧ Twins pairs (left.counting (next left.closures)) right :=
      twins.of_cells rfl rfl
    have meets : Meets spared pairs left right (.ok (value left.closures)) (.ok (value tag))
        (left.counting (next left.closures)) right pairs :=
      ⟨fun _ _ paired => paired, alone, fun _ _ => rfl, counted.2,
        .ok (atOnce.alike binds _ _), .refl left right⟩
    rw [evaluates.only, asks.only]
    exact .of_meets meets
  | waits single found => exact agrees_of_waits twins binds alone other closed bound first second single found

end PutOff

end LazyConfig
