import LazyConfig.Proofs.Suspending.Shortcut
import LazyConfig.Proofs.Twins.Exchange

/-!
The same expression, put off in two stores at different times. What is added to the first store stands for what the
second one has had for a while, as long as nothing has happened to it.
-/

namespace LazyConfig

/-- What was added between two states of a store is still as it was added, and nothing stands for it. -/
def Pairing.Leaves (pairs : Pairing) (right base made : Store) : Prop :=
  ∀ image, base.cells.size ≤ image → image < made.cells.size →
    image < right.cells.size ∧ right.cell image = made.cell image ∧ ∀ id, ¬ pairs id image

namespace Pairing.Leaves

variable {pairs : Pairing} {right base middle made : Store}

/-- What was added first. -/
theorem first (leaves : pairs.Leaves right base made) (grown : middle.Extends made) : pairs.Leaves right base middle := by
  intro image least most
  obtain ⟨inside, same, single⟩ := leaves image least (Nat.lt_of_lt_of_le most grown.1)
  exact ⟨inside, same.trans (grown.2 image most), single⟩

/-- What was added last. -/
theorem last (leaves : pairs.Leaves right base made) (grown : base.cells.size ≤ middle.cells.size) :
    pairs.Leaves right middle made :=
  fun image least most => leaves image (Nat.le_trans grown least) most

end Pairing.Leaves

/-- What is added to the first store stands for what was added to an earlier state of the second one. -/
structure Pairing.Adopts (pairs : Pairing) (right base : Store) (made kept : ThunkId × Store) (more : Pairing) :
    Prop where
  keeps : ∀ id image, pairs id image → more id image
  fresh : ∀ id image, more id image → pairs id image ∨ base.cells.size ≤ image ∧ image < kept.2.cells.size
  twins : Twins more made.2 right
  paired : more made.1 kept.1

namespace Pairing.Adopts

variable {pairs middle more : Pairing} {right base : Store} {made kept last final : ThunkId × Store}

/-- What was added later is left alone. -/
theorem leaves (adopts : pairs.Adopts right base made kept more) {later : Store}
    (leaves : pairs.Leaves right kept.2 later) : more.Leaves right kept.2 later := by
  intro image least most
  obtain ⟨inside, same, single⟩ := leaves image least most
  refine ⟨inside, same, fun id paired => ?_⟩
  rcases adopts.fresh id image paired with before | ⟨-, less⟩
  · exact single id before
  · exact absurd less (Nat.not_lt.mpr least)

/-- One computation after another. -/
theorem trans (first : pairs.Adopts right base made kept middle) (second : middle.Adopts right kept.2 last final more)
    (low : base.cells.size ≤ kept.2.cells.size) (high : kept.2.cells.size ≤ final.2.cells.size) :
    pairs.Adopts right base last final more := by
  refine ⟨fun id image paired => second.keeps id image (first.keeps id image paired), ?_, second.twins, second.paired⟩
  -- What is paired anew was added by the first computation or by the second, and the bounds are
  -- next to each other.
  intro id image paired
  rcases second.fresh id image paired with before | ⟨least, most⟩
  · exact (first.fresh id image before).imp_right fun ⟨least, most⟩ => ⟨least, Nat.lt_of_lt_of_le most high⟩
  · exact .inr ⟨Nat.le_trans low least, most⟩

end Pairing.Adopts

namespace Twins

variable {pairs : Pairing} {left right base : Store} {context : Context} {env : Env}

/-- A computation that is added stands for one that was added before. -/
theorem adopts (twins : Twins pairs left right) (closures : Nat) {count : Nat} {cell other : Cell}
    (leaves : pairs.Leaves right base ((base.counting count).alloc other).2)
    (same : CellTwin (pairs.add left.cells.size base.cells.size) cell other) :
    pairs.Adopts right base ((left.counting closures).alloc cell) ((base.counting count).alloc other)
      (pairs.add left.cells.size base.cells.size) := by
  have more : base.cells.size < ((base.counting count).alloc other).2.cells.size := by
    rw [Store.alloc_size, Store.counting_size]
    exact Nat.lt_succ_self _
  -- The computation is still as it was added, and no other stands for it, so it can be adopted.
  obtain ⟨inside, kept, single⟩ := leaves _ (Nat.le_refl _) more
  have found : right.cell base.cells.size = other := kept.trans ((Store.cell_alloc ..).trans (if_pos rfl))
  have counted : pairs.Grows right pairs right ∧ Twins pairs (left.counting closures) right := twins.of_cells rfl rfl
  refine ⟨fun _ _ => .inl, ?_, counted.2.adopt inside single (found ▸ same), .inr ⟨rfl, rfl⟩⟩
  rintro id image (paired | ⟨rfl, rfl⟩)
  · exact .inl paired
  · exact .inr ⟨Nat.le_refl _, more⟩

/-- What an expression is put off as stands for what it was put off as before. -/
theorem adopts_suspend (twins : Twins pairs left right) (id : ExprId) (binds : EnvTwin pairs env env)
    (leaves : pairs.Leaves right base (context.suspend base id env).2) :
    ∃ more, pairs.Adopts right base (context.suspend left id env) (context.suspend base id env) more := by
  have inner : EnvTwin (pairs.add left.cells.size base.cells.size) env env := agree_mono (fun _ _ => .inl) binds
  -- Whatever is made at once or put off adds one computation, and the two that are added agree.
  have adds (next : Nat → Nat) (cell : Nat → Cell)
      (put : ∀ store, context.suspend store id env = (store.counting (next store.closures)).alloc (cell store.closures))
      (same : CellTwin (pairs.add left.cells.size base.cells.size) (cell left.closures) (cell base.closures)) :
      ∃ more, pairs.Adopts right base (context.suspend left id env) (context.suspend base id env) more := by
    rw [put] at leaves
    rw [put, put]
    exact ⟨_, twins.adopts _ leaves same⟩
  have literal (value : Value) (scalar : value.isScalar = true)
      (put : ∀ store, context.suspend store id env = store.ready value) :
      ∃ more, pairs.Adopts right base (context.suspend left id env) (context.suspend base id env) more :=
    adds (fun count => count) (fun _ => .forced value) put (.forced (.of_isScalar scalar))
  have deferred (put : ∀ store, context.suspend store id env = store.suspend (.expr id env)) :
      ∃ more, pairs.Adopts right base (context.suspend left id env) (context.suspend base id env) more :=
    adds (fun count => count) (fun _ => .suspended (.expr id env)) put (.suspended (.expr inner))
  -- What is made depends on the kind of the expression alone, so it is the same in both stores.
  cases node : context.code.expr id with
  | ident name =>
    cases known : env.lookup name with
    | none => exact deferred fun store => by simp only [Context.suspend, node, known]
    | some bound =>
      -- A variable shares what it is bound to, and nothing is added.
      have put (store : Store) : context.suspend store id env = (bound, store) := by
        simp only [Context.suspend, node, known]
      obtain ⟨paired⟩ : Option.Rel pairs (some bound) (some bound) := known ▸ binds.lookup name
      rw [put, put]
      exact ⟨pairs, fun _ _ paired => paired, fun _ _ => .inl, twins, paired⟩
  | int value => exact literal (.int value) rfl fun store => by simp only [Context.suspend, node]
  | float value => exact literal (.float value) rfl fun store => by simp only [Context.suspend, node]
  | bool value => exact literal (.bool value) rfl fun store => by simp only [Context.suspend, node]
  | str text => exact literal (.str (context.names.lookup text)) rfl fun store => by simp only [Context.suspend, node]
  | lambda param body =>
    refine adds (· + 1) (fun tag => .forced (.closure ⟨tag, param, body, env⟩)) (fun store => ?_)
      (.forced (.closure inner))
    simp only [Context.suspend, node]
    rfl
  | _ => exact deferred fun store => by simp only [Context.suspend, node]

end Twins

end LazyConfig
