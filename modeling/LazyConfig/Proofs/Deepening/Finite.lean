import LazyConfig.Proofs.Deepening.Again
import LazyConfig.Proofs.Machine.Exits

/-!
Values with finitely many parts. Evaluating all parts of such a value comes to an end: all parts are evaluated then, or
one of them has gone wrong.
-/

namespace LazyConfig

/-- The right parts of a list are among its computations. -/
theorem LazyList.mem_computations_of_right {list : LazyList} {id : ThunkId} (right : id ∈ list.rights) :
    id ∈ list.computations := by
  induction list with
  | elems items start | range next stop => exact absurd right List.not_mem_nil
  | concat left last ih =>
    rcases List.mem_append.mp right with within | here
    · exact List.mem_append_left _ (ih within)
    · exact List.mem_append_right _ here

section

variable (context : Context) (meter : DepthMeter) (root : Value)

/--
The stores that evaluating parts of a value leads to. Each part is asked for when it can be reached, and comes to a
value, in which more parts may be found. An integer of a range gets a computation of its own.
-/
inductive Uncovers (store : Store) : Store → Prop
  | here : Uncovers store store
  | force {middle after : Store} {depth : Nat} {value inner : Value} {id : ThunkId} (before : Uncovers store middle)
    (contains : middle.Contains root depth value) (part : id ∈ value.computations)
    (forces : ForcesTo context meter middle id inner after) : Uncovers store after
  | int {middle : Store} (before : Uncovers store middle) (value : Int64) :
    Uncovers store (middle.ready (.int value)).2

/-- A value whose parts, as far as they are ever found, lie within some depth, and all come to something. -/
structure FiniteParts (store : Store) : Prop where
  bounded : ∃ bound, ∀ later, Uncovers context meter root store later → ∀ depth value,
    later.Contains root depth value → depth ≤ bound
  ends : ∀ later, Uncovers context meter root store later → ∀ depth value, later.Contains root depth value →
    ∀ id ∈ value.computations, ∃ outcome after, Brings context meter later (.force id) outcome after

/-- Every part that can be reached comes to a value, and every right part to a list. -/
structure Forceable (store : Store) : Prop where
  parts : ∀ depth value, store.Contains root depth value → ∀ id ∈ value.computations,
    ∃ inner after, ForcesTo context meter store id inner after
  rights : ∀ depth items, store.Contains root depth (.list items) → ∀ right ∈ items.rights,
    ∃ others after, ForcesTo context meter store right (.list others) after

/-- What has gone wrong with a part: it has failed, or it is a right part and no list. -/
inductive Spoils (store : Store) : Upset → Prop
  | failed {depth : Nat} {value : Value} {id : ThunkId} {upset : Upset} (contains : store.Contains root depth value)
    (part : id ∈ value.computations) (found : store.cell id = .failed upset.remembered) : Spoils store upset
  | noList {depth : Nat} {items : LazyList} {right : ThunkId} {value : Value}
    (contains : store.Contains root depth (.list items)) (part : right ∈ items.rights)
    (found : store.cell right = .forced value) (other : value.kind ≠ .list) :
    Spoils store (.fault (.notAList .concatRight value.kind))

/-- What evaluating all parts of a value comes to. -/
inductive Completion (first : Store) : Outcome → Store → Prop
  | whole {after : Store} (uncovers : Uncovers context meter root first after) : Completion first (.ok root) after
  | spoiled {middle after : Store} {upset : Upset} (uncovers : Uncovers context meter root first middle)
    (fails : ¬ Forceable context meter root middle) (spoils : Spoils root after upset) :
    Completion first (.error upset) after

/-- A store that refers to itself only, with nothing under way, and a value that refers to the store. -/
structure Tame (store : Store) : Prop where
  closed : store.Closed
  idle : store.Idle
  within : root.Within .all store.cells.size

end

variable {context : Context} {meter : DepthMeter} {root : Value} {first store middle after : Store}

/-- Something that went wrong cannot be evaluated to what it should be. -/
theorem Spoils.not_forceable {upset : Upset} (spoils : Spoils root store upset) :
    ¬ Forceable context meter root store := by
  intro forceable
  cases spoils with
  | failed contains part found =>
    obtain ⟨inner, after, forces⟩ := forceable.parts _ _ contains _ part
    have fails : FailsWith context meter store _ _ store := .step (State.step_force_failed found) (.refl _)
    exact forces.not_fails fails
  | noList contains part found other =>
    obtain ⟨others, after, forces⟩ := forceable.rights _ _ contains _ part
    obtain ⟨rfl, -⟩ := forces.unique (ForcesTo.of_forced found)
    exact other rfl

/-- The computations of a value that refers to a store are in the store. -/
theorem Value.Within.of_mem {value : Value} {bounds : Bounds} {count : Nat} (within : value.Within bounds count)
    {id : ThunkId} (part : id ∈ value.computations) : id < count := by
  cases value with
  | list items =>
    have inside : items.Within count := within
    have among : id ∈ items.computations := part
    clear within part
    -- A list refers to its elements, and a join also to its right part.
    induction items with
    | elems items start => exact inside id (List.mem_of_mem_drop among)
    | range next stop => exact absurd among List.not_mem_nil
    | concat left right ih =>
      rcases List.mem_append.mp among with front | here
      · exact ih inside.1 front
      · exact List.mem_singleton.mp here ▸ inside.2
  | record fields => exact Record.Within.thunks within id part
  | _ => exact absurd part List.not_mem_nil

namespace Tame

/-- Whatever is found in a value refers to the store. -/
theorem contains (tame : Tame root store) {depth : Nat} {value : Value} (contains : store.Contains root depth value) :
    value.Within .all store.cells.size := by
  induction contains with
  | here => exact tame.within
  | @part depth value inner id outer part found ih =>
    have kept := tame.closed id (ih.of_mem part)
    rwa [found] at kept

/-- Evaluating a computation leaves nothing under way. -/
theorem force (tame : Tame root store) {id : ThunkId} (inside : id < store.cells.size) {outcome : Outcome}
    (brings : Brings context meter store (.force id) outcome after) : Tame root after := by
  have closed := brings.closed tame.closed inside
  have idle := brings.idle tame.closed tame.idle inside
  exact ⟨closed, idle, tame.within.grow brings.precedes.1⟩

/-- Evaluating parts leaves nothing under way. -/
theorem uncovers (tame : Tame root first) (uncovers : Uncovers context meter root first store) : Tame root store := by
  induction uncovers with
  | here => exact tame
  | force before contains part forces ih =>
    exact @force context meter root _ _ ih _ ((ih.contains contains).of_mem part) (.ok _) forces
  | @int middle before value ih =>
    have grown := middle.ready_extends (.int value)
    have inside : (Value.int value).Within .all middle.cells.size := trivial
    have closed := (Store.ready_grows inside).1
    refine ⟨closed.within ih.closed, fun id inside running => ?_, ih.within.grow grown.1⟩
    -- A computation was there before, or the integer has been given it.
    by_cases old : id < middle.cells.size
    · rw [grown.2 id old] at running
      exact ih.idle id old running
    · have fresh := closed.fresh id (Nat.not_lt.mp old) inside
      rw [running] at fresh
      exact fresh.elim

end Tame

end LazyConfig
