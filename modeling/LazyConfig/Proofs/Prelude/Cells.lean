import LazyConfig.Proofs.Prelude.Calls

/-!
Functions that give a list one cell at a time: a test says whether there is an element, and if there is one,
a call for the element and a call for what is behind it are put off.
-/

namespace LazyConfig

/-- The rest of a list is kept, and an integer in front of it has a computation of its own. -/
def Store.keepRest (store : Store) (held : ThunkId) (element : Visible) (rest : Cursor) : Store :=
  (store.reveal element).2.set held (.forced (.list rest.rest))

namespace Lists

open Term

/-- A function body that gives the empty list, or an element in front of others. -/
def cellTerm (test call again : Term) : Term :=
  choose test nil (binary .concat (single call) again)

theorem mapBody_eq : mapBody = cellTerm (isNilTerm "l") (app (var "f") (prim .head (var "l")))
    (app (app (memberTerm "map") (var "f")) (prim .tail (var "l"))) :=
  rfl

theorem map2Body_eq : map2Body = cellTerm (binary .or (isNilTerm "l1") (isNilTerm "l2"))
    (app (app (var "f") (prim .head (var "l1"))) (prim .head (var "l2")))
    (app (app (app (memberTerm "map2") (var "f")) (prim .tail (var "l1"))) (prim .tail (var "l2"))) :=
  rfl

/-- What the body comes to when its test has come to something. -/
def cellOutcome (call again : ExprId) (env : Env) (store : Store) : Outcome → Outcome × Store
  | .ok (.bool true) => (.ok (.list (.ofThunks [])), store)
  | .ok (.bool false) =>
    (.ok (.list (.concat (.ofThunks [store.cells.size]) (store.cells.size + 1))),
      ((store.suspend (.expr call env)).2.suspend (.expr again env)).2)
  | .ok other => (.error (.fault (.unexpectedKind .bool .condition other.kind)), store)
  | .error upset => (.error upset, store)

/-- Work that is put off twice takes the next two places. -/
theorem suspend_two (store : Store) (one two : Suspension) :
    store.Extends ((store.suspend one).2.suspend two).2 ∧
      ((store.suspend one).2.suspend two).2.cell store.cells.size = .suspended one ∧
      ((store.suspend one).2.suspend two).2.cell (store.cells.size + 1) = .suspended two := by
  have size : (store.suspend one).2.cells.size = store.cells.size + 1 := store.alloc_size _
  refine ⟨(store.suspend_extends one).trans ((store.suspend one).2.suspend_extends two), ?_, ?_⟩
  · rw [((store.suspend one).2.suspend_extends two).2 _ (by omega), Store.suspend, Store.cell_alloc, if_pos rfl]
  · rw [Store.suspend, Store.cell_alloc, if_pos size.symm]

section

variable {context : Context} {meter : DepthMeter} {store : Store} {env : Env} {text : String} {id : ExprId}
  {list held : ThunkId} {cursor rest : Cursor} {element : Visible}

/-- The rest of an evaluated list that is put off comes to what is behind the first element. -/
theorem forces_rest (reads : context.Reads (.prim .tail (.var text)) id) (binds : context.Binds env text list)
    (found : store.cell list = .forced (.list cursor.rest)) (sees : store.Sees cursor (some (element, rest)))
    (waits : store.cell held = .suspended (.expr id env)) (inside : meter.current < meter.limit) :
    ForcesTo context meter store held (.list rest.rest) ((store.set held .inProgress).keepRest held element rest) := by
  have inProgress : store.Precedes (store.set held .inProgress) := Store.begin_precedes waits
  have tail := @Context.Reads.brings_tail context (meter.below 1) (store.set held .inProgress) _ _ _ _ _ _ _
    reads binds (inProgress.forced found) (sees.later inProgress)
  have brings : Brings context meter store (.force held) (.ok (.list rest.rest)) _ :=
    .of_work waits (Brings.enter inside tail)
  exact brings

/-- The rest of an evaluated list is asked for without evaluating anything. -/
theorem forces_tail (reads : context.Reads (.prim .tail (.var text)) id) (binds : context.Binds env text list)
    (found : store.cell list = .forced (.list cursor.rest)) (sees : store.Sees cursor (some (element, rest)))
    (waits : store.cell held = .suspended (.expr id env)) (inside : meter.current < meter.limit) :
    ∃ after, ForcesTo context meter store held (.list rest.rest) after ∧ store.Spares held after := by
  refine ⟨_, forces_rest reads binds found sees waits inside,
    ((Store.Spares.set store held .inProgress).trans (.of_extends ?_ ?_)).trans (.set _ _ _)⟩
  · exact Store.reveal_extends _ element
  · cases element <;> rfl

end

/-- The expressions of a function body that gives a cell. -/
structure CellCode (context : Context) (test call again : Term) (body decide item behind : ExprId) : Prop where
  node : ∃ empty joined front, context.code.expr body = .cond decide empty joined ∧
    context.Reads nil empty ∧ context.code.expr joined = .binary .concat front behind ∧
    context.code.expr front = .list [item]
  test : context.Reads test decide
  call : context.Reads call item
  again : context.Reads again behind

variable {context : Context} {meter : DepthMeter} {store middle after : Store} {env : Env}
  {test call again : Term} {body decide item behind : ExprId} {found outcome : Outcome}

/-- Code that reads as such a function body consists of these expressions. -/
theorem cellCode_of_reads (reads : context.Reads (cellTerm test call again) body) :
    ∃ decide item behind, CellCode context test call again body decide item behind := by
  obtain ⟨decide, empty, joined, node, tests, nils, front, behind, cell, ⟨item, single, calls⟩, recurs⟩ := reads
  exact ⟨decide, item, behind, ⟨empty, joined, front, node, nils, cell, single⟩, tests, calls, recurs⟩

namespace CellCode

/-- The body comes to what its test decides. -/
theorem brings (code : CellCode context test call again body decide item behind)
    (putItem : ∀ store, context.suspend store item env = store.suspend (.expr item env))
    (putBehind : ∀ store, context.suspend store behind env = store.suspend (.expr behind env))
    (inside : meter.current < meter.limit)
    (decides : Brings context (meter.below 1) store (.eval decide env) found after) :
    Brings context meter store (.eval body env) (cellOutcome item behind env after found).1
      (cellOutcome item behind env after found).2 := by
  -- The test is evaluated one level deeper, and its outcome decides between the empty list and one
  -- more cell.
  obtain ⟨empty, joined, front, node, nils, cell, single⟩ := code.node
  cases found with
  | error upset => exact cond_fails node inside decides
  | ok value =>
    cases value with
    | bool holds =>
      refine (goesTo_cond node inside decides []).trans ?_
      cases holds with
      | true => exact brings_nil nils
      | false => exact brings_cell cell single putItem putBehind inside
    | _ =>
      have asked : State.step context ⟨store, meter, .eval body env, []⟩ =
          ⟨store, meter, .enter decide env, [.branch empty joined env]⟩ := by
        simp [State.step, Context.evalStep, node]
      exact .step asked (((Brings.enter inside decides).above _).trans (.step rfl (.refl _)))

/-- When the body comes to something, its test has come to something. -/
theorem decides (code : CellCode context test call again body decide item behind)
    (inside : meter.current < meter.limit)
    (brings : Brings context meter store (.eval body env) outcome after) :
    ∃ found middle, Brings context (meter.below 1) store (.eval decide env) found middle := by
  obtain ⟨empty, joined, front, node, -⟩ := code.node
  obtain ⟨steps, reached⟩ := brings.of_step (Control.busy rfl)
  have asked : State.step context ⟨store, meter, .eval body env, []⟩ =
      ⟨store, meter, .enter decide env, [.branch empty joined env]⟩ := by
    simp [State.step, Context.evalStep, node]
  rw [asked] at reached
  obtain ⟨found, middle, entered, -⟩ := brings_then (reached.symm ▸ State.hands_passing)
  exact ⟨found, middle, entered.entered inside⟩

end CellCode

end Lists

end LazyConfig
