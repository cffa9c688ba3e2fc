import LazyConfig.Proofs.Machine.Runs
import LazyConfig.Proofs.Machine.Session

/-! Memoisation over whole sessions: every computation runs at most once, and its outcome stays. -/

namespace LazyConfig

/-- A request that has its answer after some steps has the same answer after more of them. -/
theorem Evaluator.perform_add (evaluator : Evaluator) {steps : Nat} {request : Request} {store : Store}
    {reply : Reply Value} (answered : evaluator.perform steps request store = some reply) (more : Nat) :
    evaluator.perform (steps + more) request store = some reply := by
  rw [perform, run] at answered ⊢
  rwa [State.run_add, (ended_of_reply answered).run]

/-- Asking for a value that is there gives that value and changes nothing. -/
theorem Evaluator.perform_force_forced (evaluator : Evaluator) {store : Store} {id : ThunkId}
    {value : Value} (found : store.cell id = .forced value) (fuel : Nat) :
    evaluator.perform (fuel + 2) (.force id) store = some ⟨.ok value, store⟩ := by
  -- One step looks the value up, and one hands it to the host.
  rw [Nat.add_comm]
  refine evaluator.perform_add ?_ fuel
  rw [perform, run, start, State.run_succ, Request.control, State.step_force_forced found]
  rfl

/-- Asking for a computation that has failed gives that failure and changes nothing. -/
theorem Evaluator.perform_force_failed (evaluator : Evaluator) {store : Store} {id : ThunkId}
    {failure : EvalError} (found : store.cell id = .failed failure) (fuel : Nat) :
    evaluator.perform (fuel + 2) (.force id) store = some ⟨.error (.error failure), store⟩ := by
  rw [Nat.add_comm]
  refine evaluator.perform_add ?_ fuel
  rw [perform, run, start, State.run_succ, Request.control, State.step_force_failed found]
  rfl

namespace Moment

/-- A computation that has started at one moment is not started at any later one. -/
theorem Starts.once {moment again : Moment} {id : ThunkId} (reached : moment.Reachable)
    (starts : moment.Starts id) (after : Relation.TransGen Next moment again) :
    ¬ again.Starts id := by
  -- Right after its start the computation is no longer put off, and it never comes back to that.
  obtain ⟨next, follows, rest⟩ := Relation.TransGen.head'_iff.mp after
  have begun := starts.not_suspended follows
  obtain ⟨-, first, located⟩ := starts
  rintro ⟨-, work, found⟩
  have inside := Store.lt_size_of_cell located (by simp)
  have grown := (follows.precedes reached.wellNested).2
  have order := ((reached.next follows).precedes rest).2 id (Nat.lt_of_lt_of_le inside grown.1)
  rw [found] at order
  cases state : next.store.cell id <;> simp_all [Cell.Precedes]

end Moment

/-- The code of `let x = 1 + 2 in x + x`. -/
def sharedSum : Code where
  exprs := #[.int 1, .int 2, .binary .add 0 1, .ident 1, .ident 1, .binary .add 3 4, .letIn 1 2 5]

/-- The moment at which `let x = 1 + 2 in x + x` has been evaluated. -/
def sharedSumMoment : Moment :=
  let evaluator : Evaluator := ⟨⟨{}, sharedSum, {}⟩, {}⟩
  ⟨evaluator.context, evaluator.run 60 (.evaluate 6 {}) {}⟩

end LazyConfig
