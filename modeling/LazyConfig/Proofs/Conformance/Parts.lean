import LazyConfig.Proofs.Conformance.Guards
import LazyConfig.Proofs.Twins.Asides
import LazyConfig.Proofs.Twins.Walks

/-!
Evaluating a part of a checked value along with the same part of the value itself. The check of the
part passes, or it fails because the data of the part differ from what is asked of it.
-/

namespace LazyConfig

/-- A value that holds data has the same outermost form. -/
theorem Store.Holds.outlines {store : Store} {value : Value} {data : Data}
    (holds : store.Holds value data) : value.Outlines data := by
  cases holds with
  | int value => exact .leaf (.int value)
  | float value => exact .leaf (.float value)
  | bool value => exact .leaf (.bool value)
  | str text => exact .leaf (.str text)
  | closure function => exact .leaf (.closure function)
  | builtin op held => exact .leaf (.builtin op held)
  | host function => exact .leaf (.host function)
  | list hold => exact .list _ _
  | record hold => exact .record hold.names

variable {pairs : Pairing} {value other : Value} {data : Data}

/-- Values of the same form have the same data as far as they have no parts. -/
theorem ValueTwin.leaf (same : ValueTwin pairs value other) (leaf : value.Leaf data) :
    other.Leaf data := by
  -- Only functions refer to computations and still have data without parts.
  cases same with
  | builtin same =>
    cases leaf
    rw [Builtin.missing, same.length_eq]
    exact .builtin _ _
  | closure same =>
    cases leaf
    exact .closure _
  | list same | record same => cases leaf
  | _ => exact leaf

/-- Values of the same form have data of the same form. -/
theorem ValueTwin.outlines (same : ValueTwin pairs value other) (outlines : value.Outlines data) :
    other.Outlines data := by
  cases outlines with
  | leaf leaf => exact .leaf (same.leaf leaf)
  | list items parts =>
    cases same
    exact .list _ _
  | record named =>
    cases same with
    | record same => exact .record (named.trans same.keys)

/-- What becomes of a part of a checked value, next to the value that the part itself has given. -/
inductive Part.Comes (context : Context) (pairs : Pairing) (right : Store) (start : DepthMeter)
    (part : Part) (data : Data) (after : Store) (meter : DepthMeter) (given : Value) : Prop
  | passes {more : Pairing} {later : Store} {image checked : Value} {cells : List ThunkId} (count : Nat)
    (twins : Twins more after later) (moves : Moves pairs right part.cell?.toList more later cells)
    (same : ValueTwin more given image)
    (guards : Guards context.names context.annotations.graph later part.demand image checked cells)
    (settled : later.cell part.outer = .forced checked)
    (reached : ∀ others, State.run context count ⟨right, start, .force part.outer, others⟩ =
      ⟨later, meter, .give checked, others⟩) : Comes context pairs right start part data after meter given
  | fails (count : Nat) (failure : EvalError)
    (blames : part.demand.Blames context.names context.annotations.graph data failure.fault)
    (raised : ∀ others, (State.run context count ⟨right, start, .force part.outer, others⟩).control =
      .raise (.error failure)) : Comes context pairs right start part data after meter given

variable {context : Context} {left right last : Store} {meter lastMeter : DepthMeter}
  {stack : List Frame} {result : Value}

/-- The check of a part runs once the part has a value, and settles the computation of the check. -/
theorem Part.Comes.of_check (sound : context.annotations.graph.Sound) {cell inner : ThunkId}
    {demand : Demand} {start : DepthMeter} {after : Store} {given : Value} {steps : Nat}
    (waits : right.cell cell = .suspended (.check inner demand.type demand.path)) (apart : Apart pairs right [cell])
    (outlines : given.Outlines data)
    (returns : ReturnsTwin context pairs (right.set cell .inProgress) start inner steps after meter given) :
    Part.Comes context pairs right start (.check cell inner demand) data after meter given := by
  -- The part is marked as started, then the value it checks is evaluated.
  obtain ⟨more, later, image, grows, twins, same, -, reached⟩ := returns
  have started : Moves pairs right [cell] pairs (right.set cell .inProgress) [cell] :=
    .set apart List.mem_cons_self _
  have worked : Moves pairs (right.set cell .inProgress) [cell] more later [cell] :=
    .of_grows grows started.apart
  -- The check waits for the value behind the frame that settles it.
  have opened (others : List Frame) :
      State.run context (steps + 1) ⟨right, start, .force cell, others⟩ =
        ⟨later, meter, .give image, .ascribe demand.type demand.path :: .update cell :: others⟩ := by
    rw [State.run_succ, ← reached]
    simp [State.step, Context.forceStep, Context.resumeStep, waits]
  -- The data decide what the check comes to.
  have verdict : Verdict context.names context.annotations.graph later demand image data
      (later.check context.names context.annotations.graph image demand.type demand.path) :=
    .ofCheck sound (same.outlines outlines) demand
  generalize outcome : later.check context.names context.annotations.graph image demand.type demand.path = answer
    at verdict
  cases verdict with
  | @fails fault final blames =>
    refine .fails (steps + 2) ⟨fault, []⟩ blames fun others => ?_
    show (State.run context (steps + 1 + 1) ⟨right, start, .force cell, others⟩).control = _
    rw [State.run_last, opened]
    simp [State.step, Context.giveStep, outcome, Control.ofResult, Control.fail, Upset.fault]
  | @passes checked cells final grown guards nodup fresh =>
    -- The computations that guard the parts are new, and the check itself is done.
    obtain ⟨twins, moves, settled, alone⟩ := (started.trans worked).settle twins grown nodup
      (fun other member => ⟨fresh other member, guards.inside other member⟩) (.forced checked)
    refine .passes (steps + 3) twins moves same
      (guards.keep fun other member => alone other (fresh other member)) settled fun others => ?_
    have passed : State.run context (steps + 2) ⟨right, start, .force cell, others⟩ =
        ⟨final, meter, .give checked, .update cell :: others⟩ := by
      rw [State.run_last, opened]
      simp [State.step, Context.giveStep, outcome, Control.ofResult]
    show State.run context (steps + 2 + 1) ⟨right, start, .force cell, others⟩ = _
    rw [State.run_last, passed]
    rfl

/-- A part is evaluated, and checked, when the same part of the value itself has a value. -/
theorem Part.comes (sound : context.annotations.graph.Sound) {part : Part} {id : ThunkId}
    (twins : Twins pairs left right) (paired : pairs id part.inner)
    (stands : part.Stands context.names context.annotations.graph right)
    (apart : Apart pairs right part.cell?.toList) (nested : WellNested left stack) {steps : Nat}
    (ended : State.run context steps ⟨left, meter, .force id, stack⟩ =
      ⟨last, lastMeter, .done (.value result), []⟩) (hold : last.PartsHold [id] [data]) :
    ∃ before ≤ steps, ∃ after meter' given, 0 < before ∧
      State.run context before ⟨left, meter, .force id, stack⟩ = ⟨after, meter', .give given, stack⟩ ∧
      last.Holds given data ∧ part.Comes context pairs right meter data after meter' given := by
  -- The value that is given stays until the end, when it holds the data.
  have outlined {before : Nat} {after : Store} {meter' : DepthMeter} {given : Value}
      (less : before ≤ steps) (reached : State.run context before ⟨left, meter, .force id, stack⟩ =
        ⟨after, meter', .give given, stack⟩) (found : after.cell id = .forced given) :
      last.Holds given data := by
    obtain ⟨-, order⟩ := nested.until_end less reached ended
    cases hold with
    | cons there holds _ =>
      rw [order.forced found] at there
      cases there
      exact holds
  cases part with
  -- A part that is not checked gives the value that its twin gives.
  | free other demand =>
    obtain ⟨before, less, after, meter', given, positive, reached, found, more, later, image, grows,
      between, same, settled, above⟩ := twins.force_returns paired ended
    exact ⟨before, less, after, meter', given, positive, reached, outlined less reached found,
      .passes before between (.of_grows grows .nil) same (.free image stands) settled above⟩
  -- A check is started first, which is in no pair, and then gives way to the value that it checks.
  | check cell inner demand =>
    have single := twins.set_single (apart.single cell List.mem_cons_self) .inProgress
    obtain ⟨before, less, after, meter', given, positive, reached, found, returns⟩ :=
      single.force_returns paired ended
    have holds := outlined less reached found
    exact ⟨before, less, after, meter', given, positive, reached, holds,
      .of_check sound stands apart holds.outlines returns⟩

end LazyConfig
