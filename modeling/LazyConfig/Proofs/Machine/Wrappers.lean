import LazyConfig.Program
import LazyConfig.Proofs.Machine.Runs
import LazyConfig.Proofs.Store.Extension
import LazyConfig.Proofs.Types.Annotations

/-!
Programs that wrap a record in one check after another. Each round adds a check without leaving a
level entered, and then all checks are asked for at once, each by the one around it.
-/

namespace LazyConfig.Wrappers

/-- The names `r` and `x`, after the empty one. -/
def names : NameTable :=
  ⟨#["", "r", "x"]⟩

/--
The expressions of the rounds: `{ x = 1 }`, `r`, `r : { x : Num }` and `r.x`, and then again and
again `%seq% r e` and `(fun r => %seq% r e) (r : { x : Num })`, where `e` is the expression before.
-/
def expr : Nat → Expr
  | 0 => .int 1
  | 1 => .record [⟨2, none, 0⟩]
  | 2 => .ident 1
  | 3 => .ascribe 2 1
  | 4 => .field 2 2
  | id + 5 =>
    match id % 3 with
    | 0 => .builtin .seq [2, id + 4]
    | 1 => .lambda 1 (id + 4)
    | _ => .apply (id + 4) 3

/-- The expression in which a number of rounds are left. -/
def roundExpr (left : Nat) : Nat :=
  3 * left + 4

/-- The code of `let r = { x = 1 } in %seq% r e`, where `e` goes through a number of rounds. -/
def code (rounds : Nat) : Code where
  exprs := ((Array.range (roundExpr rounds + 2)).map expr).push (.letIn 1 1 (roundExpr rounds + 1))
  types := #[.num, .record [(2, 0)]]

/-- The program that goes through a number of rounds. -/
def program (rounds : Nat) : Program :=
  ⟨names, code rounds, roundExpr rounds + 2⟩

variable {rounds : Nat}

/-- All expressions but the last one are those of the rounds. -/
theorem code_expr {id : Nat} (inside : id < roundExpr rounds + 2) :
    (code rounds).expr id = expr id := by
  simp [code, Code.expr, Array.getElem?_push, Nat.ne_of_lt inside, inside]

/-- The last expression binds the record. -/
theorem code_root : (code rounds).expr (roundExpr rounds + 2) = .letIn 1 1 (roundExpr rounds + 1) := by
  simp [code, Code.expr, Array.getElem_push]

/-- Each round takes three expressions. -/
theorem roundExpr_succ (left : Nat) : roundExpr (left + 1) = roundExpr left + 3 := by
  simp only [roundExpr]
  omega

/-- The record is evaluated before what is left. -/
theorem code_sequence {left : Nat} (less : left ≤ rounds) :
    (code rounds).expr (roundExpr left + 1) = .builtin .seq [2, roundExpr left] := by
  rw [code_expr (by simp only [roundExpr]; omega)]
  simp [roundExpr, expr]

/-- A round applies a function to the checked record. -/
theorem code_application {left : Nat} (less : left < rounds) :
    (code rounds).expr (roundExpr left + 2) = .lambda 1 (roundExpr left + 1) ∧
    (code rounds).expr (roundExpr left + 3) = .apply (roundExpr left + 2) 3 := by
  have third (offset : Nat) (small : offset < 3) : (3 * left + offset) % 3 = offset := by omega
  -- Which expression of a round an identifier stands for is read off its remainder.
  rw [code_expr (by simp only [roundExpr]; omega), code_expr (by simp only [roundExpr]; omega)]
  constructor <;> simp [roundExpr, expr, third]

/-- The expressions that all rounds share. -/
theorem code_shared {id : Nat} (shared : id < 5) : (code rounds).expr id = expr id :=
  code_expr (by simp only [roundExpr]; omega)

/-! The annotations. -/

/-- Annotations in which the annotated type is that of a record with one number. -/
structure Resolved (annotations : Annotations) (record number : TypeId) : Prop where
  known : annotations.get? 1 = some record
  record : annotations.graph.node record = .record [(2, number)]
  number : annotations.graph.node number = .num

/-- Resolving the annotated type gives a record with one number, whatever was resolved before. -/
theorem annotate_resolved (annotations : Annotations) :
    ∃ after record number, Annotations.annotate names (code rounds) {} 1 annotations = .ok after ∧
      Resolved after record number := by
  obtain ⟨graph, types⟩ := annotations
  -- The number is added first, and then the record with it.
  let first := graph.push .num
  let outer : TypeNode := .record [(2, first.1)]
  let second := first.2.push outer
  refine ⟨Annotations.insert ⟨second.2, types⟩ 1 second.1, second.1, first.1, rfl, ?_, ?_, ?_⟩
  · rw [Annotations.get?_insert, if_pos rfl]
  · exact first.2.node_push_self outer
  · have kept := (first.2.push_extends outer).same first.1 (graph.push_inside .num)
    exact kept.trans (graph.node_push_self .num)

/-- The variable `r` and the number have no annotations. -/
theorem visit_leaf {fuel id : Nat} (leaf : id = 2 ∨ id = 0) (annotations : Annotations) :
    Annotations.visit names (code rounds) (fuel + 1) {} id annotations = .ok annotations := by
  rw [Annotations.visit, code_shared (by omega)]
  rcases leaf with rfl | rfl <;> rfl

/-- Visiting what is left of the rounds resolves the annotation, if there is a round left. -/
theorem visit_rounds {left : Nat} (less : left ≤ rounds) {fuel : Nat} (enough : roundExpr left < fuel)
    (annotations : Annotations) :
    ∃ after, Annotations.visit names (code rounds) fuel {} (roundExpr left) annotations = .ok after ∧
      (0 < left → ∃ record number, Resolved after record number) := by
  induction left generalizing fuel annotations with
  | zero =>
    -- Only the field is left, which has no annotation.
    obtain ⟨fuel, rfl⟩ : ∃ rest, fuel = rest + 2 :=
      ⟨fuel - 2, by simp only [roundExpr] at enough; omega⟩
    refine ⟨annotations, ?_, nofun⟩
    have found : (code rounds).expr (roundExpr 0) = .field 2 2 := code_shared (by decide)
    rw [Annotations.visit, found]
    simp only [Expr.children, List.foldlM_cons, List.foldlM_nil, visit_leaf (.inl rfl)]
    rfl
  | succ left ih =>
    rw [roundExpr_succ] at enough ⊢
    obtain ⟨fuel, rfl⟩ : ∃ rest, fuel = rest + 4 := ⟨fuel - 4, by omega⟩
    -- The rounds that come later stand inside the function, before the annotated argument.
    obtain ⟨middle, visited, -⟩ := ih (by omega) (show roundExpr left < fuel + 1 by omega) annotations
    obtain ⟨after, record, number, annotated, resolved⟩ := @annotate_resolved rounds middle
    refine ⟨after, ?_, fun _ => ⟨record, number, resolved⟩⟩
    obtain ⟨function, application⟩ := code_application less
    have sequence : Annotations.visit names (code rounds) (fuel + 2) {} (roundExpr left + 1)
        annotations = .ok middle := by
      rw [Annotations.visit, code_sequence (by omega)]
      simp [Expr.children, visit_leaf, visited, bind, Except.bind, pure, Except.pure]
    have checked : Annotations.visit names (code rounds) (fuel + 3) {} 3 middle = .ok after := by
      rw [Annotations.visit, code_shared (by decide)]
      simp [expr, annotated, visit_leaf, bind, Except.bind]
    have applied : Annotations.visit names (code rounds) (fuel + 3) {} (roundExpr left + 2)
        annotations = .ok middle := by
      rw [Annotations.visit, function]
      simp [Expr.children, sequence, bind, Except.bind, pure, Except.pure]
    rw [Annotations.visit, application]
    simp [Expr.children, applied, checked, bind, Except.bind, pure, Except.pure]

/-- The annotation of a program with at least one round is resolved. -/
theorem annotations_resolved (some : 0 < rounds) :
    ∃ annotations record number, (program rounds).annotations = .ok annotations ∧
      Resolved annotations record number := by
  obtain ⟨after, visited, resolved⟩ :=
    visit_rounds (Nat.le_refl rounds) (Nat.lt_succ_self (roundExpr rounds)) {}
  obtain ⟨record, number, resolved⟩ := resolved some
  refine ⟨after, record, number, ?_, resolved⟩
  -- The bound literal has no annotation, so what is visited of the sequence alone decides.
  have bound : Annotations.visit names (code rounds) (roundExpr rounds + 2) {} 1 {} = .ok {} := by
    rw [Annotations.visit, code_shared (by decide)]
    simp [expr, visit_leaf, bind, Except.bind, pure, Except.pure]
  have sequence : Annotations.visit names (code rounds) (roundExpr rounds + 2) {}
      (roundExpr rounds + 1) {} = .ok after := by
    rw [Annotations.visit, code_sequence (Nat.le_refl rounds)]
    simp [Expr.children, visit_leaf, visited, bind, Except.bind, pure, Except.pure]
  show Annotations.visit names (code rounds) (roundExpr rounds + 2 + 1) {} (roundExpr rounds + 2) {} = _
  rw [Annotations.visit, code_root]
  simp [Expr.children, bound, sequence, bind, Except.bind, pure, Except.pure]

/-! The rounds. -/

/-- The record whose field `x` is a computation. -/
def single (id : ThunkId) : Record :=
  .ofEntries [("x", id)]

/-- A number of checks around a computation, each of the next one, with the last one that was added. -/
inductive Layers (store : Store) : List ThunkId → ThunkId → Prop
  | core (id : ThunkId) : Layers store [] id
  | check {ids : List ThunkId} {inner id : ThunkId} {type : TypeId} {path : Path}
    (found : store.cell id = .suspended (.check inner type path)) (newer : inner < id)
    (others : Layers store ids inner) : Layers store (id :: ids) id

namespace Layers

variable {store : Store} {ids : List ThunkId} {id : ThunkId}

/-- The last check that was added is the newest one. -/
theorem le (layers : Layers store ids id) : ∀ other ∈ ids, other ≤ id := by
  induction layers with
  | core id => exact nofun
  | check found newer others ih =>
    intro other member
    rcases List.mem_cons.mp member with rfl | member
    · exact Nat.le_refl _
    · exact Nat.le_trans (ih other member) (Nat.le_of_lt newer)

/-- No check is listed twice. -/
theorem nodup (layers : Layers store ids id) : ids.Nodup := by
  induction layers with
  | core id => exact .nil
  | check found newer others ih =>
    exact List.nodup_cons.mpr ⟨fun member => Nat.not_lt.mpr (others.le _ member) newer, ih⟩

/-- The checks stay while nothing happens to them. -/
theorem keep {after : Store} (layers : Layers store ids id)
    (same : ∀ other ≤ id, other < store.cells.size → after.cell other = store.cell other) :
    Layers after ids id := by
  induction layers with
  | core id => exact .core id
  | check found newer others ih =>
    have still := same _ (Nat.le_refl _) (Store.lt_size_of_cell found nofun)
    exact .check (still.trans found) newer (ih fun other less =>
      same other (Nat.le_trans less (Nat.le_of_lt newer)))

/-- Asking for the last check asks for all of them, each while the ones around it are under way. -/
theorem nest {context : Context} (layers : Layers store ids id) (meter : DepthMeter)
    (stack : List Frame) :
    ∃ last : State, State.GoesTo context ⟨store, meter, .force id, stack⟩ last ∧
      last.store.cells.size = store.cells.size ∧
      (∀ other ∈ ids, last.store.cell other = .inProgress) ∧
      ∀ other, id < other → last.store.cell other = store.cell other := by
  -- From the outermost check inwards; older computations than the check are all that is touched.
  induction ids generalizing store id stack with
  | nil => exact ⟨_, .refl _, rfl, nofun, fun _ _ => rfl⟩
  | cons first ids ih =>
    cases layers with
    | @check _ inner _ type path found newer others =>
      have inside := Store.lt_size_of_cell found nofun
      -- The check is marked, and its mark does not matter for the checks inside.
      have kept : Layers (store.set first .inProgress) ids inner :=
        others.keep fun other less _ =>
          Store.cell_set_of_ne (Nat.ne_of_lt (Nat.lt_of_le_of_lt less newer)) _
      obtain ⟨last, goes, size, running, same⟩ := ih kept (.ascribe type path :: .update first :: stack)
      refine ⟨last, .step (State.step_force_suspended found) goes, ?_, ?_, ?_⟩
      · rw [size, Store.set_size]
      · intro other member
        rcases List.mem_cons.mp member with rfl | member
        · -- The mark of the check stays while the others are asked for.
          rw [same _ newer, Store.cell_set_self inside]
        · exact running other member
      · intro other later
        rw [same other (Nat.lt_trans newer later), Store.cell_set_of_ne (Nat.ne_of_gt later)]

end Layers

section

variable {annotations : Annotations} {record number : TypeId} {store : Store} {env : Env}
  {stack : List Frame} {limit current : Nat}

/-- A round puts the check of the record off and goes on inside the function. -/
theorem apply_round {left : Nat} (less : left < rounds) (room : current < limit) :
    let made := (store.closure 1 (roundExpr left + 1) env).2
    State.GoesTo ⟨names, code rounds, annotations⟩
      ⟨store, ⟨limit, current⟩, .eval (roundExpr left + 3) env, stack⟩
      ⟨(made.suspend (.expr 3 env)).2, ⟨limit, current⟩, .eval (roundExpr left + 1)
        (env.bind 1 made.cells.size), stack⟩ := by
  intro made
  obtain ⟨function, application⟩ := code_application less
  have shared : (code rounds).expr 3 = .ascribe 2 1 := code_shared (by decide)
  refine ⟨5, ?_⟩
  simp [State.run, State.step, Context.evalStep, Context.enterStep, Context.giveStep,
    Context.suspend, DepthMeter.enter?, DepthMeter.leave, application, function, shared, room,
    Store.closure, Store.suspend, made]

/-- The record is asked for before what is left of the rounds. -/
theorem force_record {left : Nat} (less : left ≤ rounds) (room : current < limit) {id : ThunkId}
    (bound : env.lookup 1 = some id) :
    State.GoesTo ⟨names, code rounds, annotations⟩
      ⟨store, ⟨limit, current⟩, .eval (roundExpr left + 1) env, stack⟩
      ⟨store, ⟨limit, current + 1⟩, .force id, .leave :: .thenEval (roundExpr left) env :: stack⟩ := by
  have named : (code rounds).expr 2 = .ident 1 := code_shared (by decide)
  refine ⟨3, ?_⟩
  simp [State.run, State.step, Context.evalStep, Context.enterStep, DepthMeter.enter?,
    code_sequence less, named, bound, room]

/-- Checking the record adds a check of its field. -/
theorem check_single (resolved : Resolved annotations record number) (store : Store) (inner : ThunkId) :
    store.check names annotations.graph (.record (single inner)) record .root =
      (.ok (.record (single store.cells.size)),
        -- The record is followed to itself, since it is a node and no alias.
        (store.suspend (.check inner number (Path.root.field "x"))).2) := by
  have follows : annotations.graph.follow record = record := by
    simp [TypeGraph.follow, TypeGraph.followSteps, resolved.record]
  have shape : annotations.graph.shape record = record := by
    simp [TypeGraph.shape, TypeGraph.settle, follows, resolved.record]
  have rejects : annotations.graph.acceptsAll number = false := by
    simp [TypeGraph.acceptsAll, TypeGraph.follow, TypeGraph.followSteps, resolved.number]
  have text : names.lookup 2 = "x" := rfl
  have field : (single inner).get? "x" = some inner := rfl
  have listed : (single inner).names = ["x"] := rfl
  simp [Store.check, shape, resolved.record, Store.checkRecord, Store.wrapDeclared, Store.wrap,
    rejects, text, field, listed, Store.suspend]
  rfl

/-- Asking for the checked record gives it with one more check. -/
theorem force_checked (resolved : Resolved annotations record number) (room : current + 1 < limit)
    {id other inner : ThunkId} (bound : env.lookup 1 = some id)
    (found : store.cell id = .forced (.record (single inner)))
    (waits : store.cell other = .suspended (.expr 3 env)) :
    let checked := ((store.set other .inProgress).suspend (.check inner number (Path.root.field "x"))).2
    State.GoesTo ⟨names, code rounds, annotations⟩
      ⟨store, ⟨limit, current⟩, .force other, stack⟩
      ⟨checked.set other (.forced (.record (single store.cells.size))), ⟨limit, current⟩,
        .give (.record (single store.cells.size)), stack⟩ := by
  intro checked
  have shared : (code rounds).expr 3 = .ascribe 2 1 := code_shared (by decide)
  have named : (code rounds).expr 2 = .ident 1 := code_shared (by decide)
  have different : id ≠ other := fun same => nomatch (same ▸ found).symm.trans waits
  have still : (store.set other .inProgress).cell id = .forced (.record (single inner)) := by
    rw [Store.cell_set_of_ne different, found]
  have less : current < limit := Nat.lt_of_succ_lt room
  have check := check_single resolved (store.set other .inProgress) inner
  refine .step (State.step_force_suspended waits) ⟨9, ?_⟩
  -- Nine steps: the ascription and the variable are entered, and the value is checked and kept.
  simp [State.run, State.step, Context.resumeStep, Context.evalStep, Context.enterStep,
    Context.forceStep, Context.giveStep, DepthMeter.enter?, DepthMeter.leave, Control.ofResult,
    shared, named, bound, still, room, less, resolved.known, check, checked]

/-- The variable `r` stands for a record whose field is wrapped in a number of checks. -/
def Wrapped (store : Store) (env : Env) (count : Nat) : Prop :=
  ∃ id inner ids, env.lookup 1 = some id ∧ store.cell id = .forced (.record (single inner)) ∧
    inner < store.cells.size ∧ Layers store ids inner ∧ ids.length = count

/-- A round adds one check, on the level that it began on. -/
theorem wrap_round (resolved : Resolved annotations record number) {left : Nat} (less : left < rounds)
    (room : current + 2 < limit) {count : Nat} (wrapped : Wrapped store env count) :
    ∃ after inside, State.GoesTo ⟨names, code rounds, annotations⟩
      ⟨store, ⟨limit, current⟩, .eval (roundExpr (left + 1)) env, stack⟩
      ⟨after, ⟨limit, current⟩, .eval (roundExpr left) inside, stack⟩ ∧
      Wrapped after inside (count + 1) := by
  obtain ⟨id, inner, ids, bound, found, present, layers, rfl⟩ := wrapped
  -- The argument of the function takes the next place, and the check of the field the one after it.
  -- Each of these stores is the one before with one change.
  let made := (store.closure 1 (roundExpr left + 1) env).2
  let put := (made.suspend (.expr 3 env)).2
  let other := made.cells.size
  let check := put.cells.size
  let marked := put.set other .inProgress
  let checked := (marked.suspend (.check inner number (Path.root.field "x"))).2
  let after := checked.set other (.forced (.record (single check)))
  have sizes : other = store.cells.size ∧ check = store.cells.size + 1 ∧ marked.cells.size = check ∧
      checked.cells.size = check + 1 := by
    simp [other, check, marked, checked, put, made, Store.closure, Store.suspend]
  obtain ⟨first, second, third, fourth⟩ := sizes
  -- The argument waits in its place until the record is asked for.
  have waits : put.cell other = .suspended (.expr 3 env) := by
    simp [put, other, Store.suspend, Store.cell_alloc]
  have kept (known : ThunkId) (old : known < store.cells.size) : put.cell known = store.cell known :=
    ((store.closure_extends 1 (roundExpr left + 1) env).trans (made.suspend_extends _)).2 known old
  -- What was there before stays as it was.
  have same (known : ThunkId) (old : known < store.cells.size) : after.cell known = store.cell known := by
    have different : known ≠ other := Nat.ne_of_lt (first ▸ old)
    have earlier : known < marked.cells.size := by
      rw [third, second]
      exact Nat.lt_succ_of_lt old
    rw [Store.cell_set_of_ne different, (marked.suspend_extends _).2 known earlier,
      Store.cell_set_of_ne different, kept known old]
  have found : put.cell id = .forced (.record (single inner)) := by
    rw [kept id (Store.lt_size_of_cell found (by simp)), found]
  refine ⟨after, env.bind 1 other, ?_, other, check, check :: ids, rfl, ?_, ?_, ?_, rfl⟩
  · -- The check is put off, asked for, and its record given to what is left.
    rw [roundExpr_succ]
    refine (apply_round less (by omega)).trans ?_
    refine (force_record (by omega) (by omega) (rfl : (env.bind 1 other).lookup 1 = some other)).trans ?_
    exact (force_checked resolved (by omega) bound found waits).trans ⟨2, rfl⟩
  · refine Store.cell_set_self ?_ _
    rw [fourth, second, first]
    exact Nat.lt_succ_of_lt (Nat.lt_succ_self _)
  · rw [Store.set_size, fourth]
    exact Nat.lt_succ_self check
  · -- The new check is around all the others, which are where they were.
    have newest : after.cell check = .suspended (.check inner number (Path.root.field "x")) := by
      have different : check ≠ other := by
        rw [first, second]
        exact Nat.succ_ne_self _
      rw [Store.cell_set_of_ne different]
      exact (Store.cell_alloc marked _ check).trans (if_pos third.symm)
    exact .check newest (second ▸ Nat.lt_succ_of_lt present)
      (layers.keep fun known _ old => same known old)

/-- All rounds together add as many checks, on one level. -/
theorem wrap_rounds (resolved : Resolved annotations record number) {left : Nat} (less : left ≤ rounds)
    (room : current + 2 < limit) {count : Nat} (wrapped : Wrapped store env count) :
    ∃ after inside, State.GoesTo ⟨names, code rounds, annotations⟩
      ⟨store, ⟨limit, current⟩, .eval (roundExpr left) env, stack⟩
      ⟨after, ⟨limit, current⟩, .eval (roundExpr 0) inside, stack⟩ ∧
      Wrapped after inside (count + left) := by
  -- No round leaves a level entered, so that the room is the same for each.
  induction left generalizing store env count with
  | zero => exact ⟨store, env, .refl _, wrapped⟩
  | succ left ih =>
    obtain ⟨middle, inside, goes, more⟩ := wrap_round resolved less room wrapped
    obtain ⟨after, last, further, all⟩ := ih (by omega) more
    exact ⟨after, last, goes.trans further, by rwa [Nat.add_right_comm, Nat.add_assoc] at all⟩

/-- Asking for the field in the end asks for all checks around it. -/
theorem force_field (room : current < limit) {count : Nat} (wrapped : Wrapped store env count) :
    ∃ last : State, State.GoesTo ⟨names, code rounds, annotations⟩
      ⟨store, ⟨limit, current⟩, .eval (roundExpr 0) env, stack⟩ last ∧
      ∃ ids : List ThunkId, ids.Nodup ∧ ids.length = count ∧
        ∀ id ∈ ids, id < last.store.cells.size ∧ last.store.cell id = .inProgress := by
  obtain ⟨id, inner, ids, bound, found, present, layers, rfl⟩ := wrapped
  obtain ⟨last, goes, size, running, -⟩ :=
    @Layers.nest store ids inner ⟨names, code rounds, annotations⟩ layers ⟨limit, current⟩ (.note 2 :: stack)
  refine ⟨last, .trans ⟨6, ?_⟩ goes, ids, layers.nodup, rfl, fun other member => ⟨?_, running other member⟩⟩
  · -- The record is there, and so is its field.
    have field : (code rounds).expr (roundExpr 0) = .field 2 2 := code_shared (by decide)
    have named : (code rounds).expr 2 = .ident 1 := code_shared (by decide)
    have got : (single inner).get? (names.lookup 2) = some inner := rfl
    simp [State.run, State.step, Context.evalStep, Context.enterStep, Context.forceStep,
      Context.giveStep, DepthMeter.enter?, DepthMeter.leave, field, named, bound, found, got, room]
  · rw [size]
    exact Nat.lt_of_le_of_lt (layers.le other member) present

/-- At the start the field of the record is as it was written. -/
theorem start_wrapped (room : 2 < limit) :
    ∃ store env, State.GoesTo ⟨names, code rounds, annotations⟩
      ⟨{}, ⟨limit, 0⟩, .enter (program rounds).root {}, stack⟩
      ⟨store, ⟨limit, 1⟩, .eval (roundExpr rounds) env, .leave :: stack⟩ ∧ Wrapped store env 0 := by
  have literal : (code rounds).expr 1 = .record [⟨2, none, 0⟩] := code_shared (by decide)
  have digit : (code rounds).expr 0 = .int 1 := code_shared (by decide)
  -- The record literal is put off when it is bound, and its one field is a literal.
  let env : Env := ⟨[(1, 0)]⟩
  let bound : Store := { cells := #[.suspended (.expr 1 env)] }
  let store : Store := { cells := #[.forced (.record (single 1)), .forced (.int 1)] }
  refine ⟨store, env, ?_, 0, 1, [], rfl, rfl, by decide, .core 1, rfl⟩
  have enters : State.GoesTo ⟨names, code rounds, annotations⟩
      ⟨{}, ⟨limit, 0⟩, .enter (program rounds).root {}, stack⟩
      ⟨bound, ⟨limit, 1⟩, .eval (roundExpr rounds + 1) env, .leave :: stack⟩ := by
    have small : 0 < limit := Nat.zero_lt_of_lt room
    refine ⟨2, ?_⟩
    simp [State.run, State.step, Context.evalStep, Context.enterStep, DepthMeter.enter?, program,
      code_root, small]
    constructor <;> rfl
  -- The record is made when it is asked for, before the first round.
  have absent : Record.empty.contains (names.lookup 2) = false := rfl
  have fields : Context.suspendFields ⟨names, code rounds, annotations⟩ env [⟨2, none, 0⟩] .empty
      (bound.set 0 .inProgress) = (.ok (single 1), { cells := #[.inProgress, .forced (.int 1)] }) := by
    simp [Context.suspendFields, Context.suspend, digit, absent]
    constructor <;> rfl
  refine enters.trans ((force_record (Nat.le_refl rounds) (by omega) rfl).trans ?_)
  refine .step (State.step_force_suspended (rfl : bound.cell 0 = _)) ⟨6, ?_⟩
  simp [State.run, State.step, Context.resumeStep, Context.evalStep, Context.enterStep,
    Context.giveStep, DepthMeter.enter?, DepthMeter.leave, literal, room, fields, Except.map,
    Control.ofResult]
  rfl

end

/-- With four levels, a program with some rounds has as many checks under way at some moment. -/
theorem rounds_nest (some : 0 < rounds) :
    ∃ annotations, (program rounds).annotations = .ok annotations ∧
      let evaluator : Evaluator := ⟨⟨names, code rounds, annotations⟩, { maxDepth := 4 }⟩
      ∃ (steps : Nat) (ids : List ThunkId), ids.Nodup ∧ ids.length = rounds ∧
        let state := evaluator.run steps (.evaluate (program rounds).root {}) {}
        ∀ id ∈ ids, id < state.store.cells.size ∧ state.store.cell id = .inProgress := by
  obtain ⟨annotations, record, number, resolves, resolved⟩ := annotations_resolved some
  -- The record is bound, wrapped once in each round, and then its field is asked for.
  obtain ⟨store, env, starts, wrapped⟩ :=
    @start_wrapped rounds annotations [.deepen] 4 (by decide)
  obtain ⟨after, inside, goes, all⟩ := @wrap_rounds rounds annotations record number store env
    (.leave :: [.deepen]) 4 1 resolved rounds (Nat.le_refl rounds) (by decide) 0 wrapped
  obtain ⟨last, nests, ids, distinct, count, running⟩ := @force_field rounds annotations after inside
    (.leave :: [.deepen]) 4 1 (by decide) _ all
  obtain ⟨steps, rfl⟩ := (starts.trans goes).trans nests
  exact ⟨annotations, resolves, steps, ids, distinct, by omega, running⟩

end LazyConfig.Wrappers
