import LazyConfig.Proofs.Machine.Rules
import LazyConfig.Proofs.Store.Growth

/-!
What each rule of the evaluator adds: computations that nobody has asked for, frames that wait for a
value, and something to do next, all of it within bounds. The rules that enter and leave levels and
those that start and settle computations are not among them.
-/

namespace LazyConfig

/-- What a rule adds to a store and to a stack, at the same level. -/
structure Adds (bounds : Bounds) (store : Store) (meter : DepthMeter) (stack : List Frame)
    (after : State) : Prop where
  grows : store.Grows bounds after.store
  level : after.meter = meter
  control : after.control.Within bounds after.store.cells.size
  frames : ∃ pushed, after.stack = pushed ++ stack ∧
    ∀ frame ∈ pushed, frame.isPlain = true ∧ frame.Within bounds after.store.cells.size

variable {bounds : Bounds} {context : Context} {store middle : Store} {meter : DepthMeter}
  {stack : List Frame}

namespace Adds

/-- A rule that adds computations and goes on without waiting. -/
theorem of_grows {control : Control} (grows : store.Grows bounds middle)
    (within : control.Within bounds middle.cells.size) :
    Adds bounds store meter stack ⟨middle, meter, control, stack⟩ :=
  ⟨grows, rfl, within, [], rfl, List.forall_mem_nil _⟩

/-- A rule that goes on without waiting. -/
theorem here {control : Control} (within : control.Within bounds store.cells.size) :
    Adds bounds store meter stack ⟨store, meter, control, stack⟩ :=
  of_grows (.refl store) within

/-- A rule that fails with what may go wrong in any program. -/
theorem fails (fits : bounds.Fits context) (fault : Fault) (usual : fault.usual = true) :
    Adds bounds store meter stack ⟨store, meter, .fail fault, stack⟩ :=
  here (fits.of_usual usual)

/-- A frame that a rule adds first. -/
theorem below {frame : Frame} {after : State} (adds : Adds bounds store meter (frame :: stack) after)
    (plain : frame.isPlain = true) (within : frame.Within bounds store.cells.size) :
    Adds bounds store meter stack after := by
  obtain ⟨pushed, stacked, each⟩ := adds.frames
  refine ⟨adds.grows, adds.level, adds.control, pushed ++ [frame], by simp [stacked], ?_⟩
  -- The frame that was there first lies below what has been pushed since.
  intro other member
  rcases List.mem_append.mp member with new | last
  · exact each other new
  · rw [List.mem_singleton.mp last]
    exact ⟨plain, within.grow adds.grows.size⟩

/-- A rule that waits on one frame. -/
theorem waits {control : Control} {frame : Frame} (plain : frame.isPlain = true)
    (frame_within : frame.Within bounds store.cells.size)
    (within : control.Within bounds store.cells.size) :
    Adds bounds store meter stack ⟨store, meter, control, frame :: stack⟩ :=
  (here within).below plain frame_within

/-- A rule that works in a store that was extended before. -/
theorem after_grows {after : State} (grows : store.Grows bounds middle)
    (adds : Adds bounds middle meter stack after) : Adds bounds store meter stack after :=
  ⟨grows.trans adds.grows, adds.level, adds.control, adds.frames⟩

end Adds

/-! Operators on evaluated operands. -/

section

variable {count : Nat} {left right : Value}

/-- The result of an operation is given to the top frame or passed up. -/
theorem ResultWithin.control {result : Except Fault Value}
    (within : ResultWithin bounds count result) : (Control.ofResult result).Within bounds count := by
  cases result <;> exact within

/-- Arithmetic gives a number or a failure. -/
theorem arithmetic_within (fits : bounds.Fits context) (op : BinaryOp) :
    ResultWithin bounds count (op.arithmetic left right) := by
  unfold BinaryOp.arithmetic
  split
  · -- Of two integers the remainder and the quotient may fail, and the result may be too large.
    unfold BinaryOp.onIntegers
    split
    · exact fits.of_usual rfl
    · split
      · trivial
      · exact fits.of_usual rfl
  · split
    · unfold BinaryOp.onFloats
      split
      · exact fits.of_usual rfl
      · trivial
    · exact fits.of_usual rfl

/-- A comparison gives a truth value or a failure. -/
theorem order_within (fits : bounds.Fits context) (op : BinaryOp) :
    ResultWithin bounds count ((op.order left right).map fun order => .bool (op.accepts order)) := by
  have mismatch : bounds.fault (op.mismatch left right) := fits.of_usual rfl
  cases compared : op.order left right with
  | ok order => trivial
  | error fault =>
    -- Operands that have no order are the only failure.
    obtain rfl : op.mismatch left right = fault := by
      unfold BinaryOp.order at compared
      split at compared
      · cases compared
      · cases compared
      · split at compared
        · split at compared
          · cases compared
          · split at compared
            · cases compared
            · split at compared
              · cases compared
              · exact Except.error.inj compared
        · exact Except.error.inj compared
    exact mismatch

/-- An operator before an operand gives a value without parts or a failure. -/
theorem unary_within (fits : bounds.Fits context) (op : UnaryOp) :
    ResultWithin bounds count (op.apply left) := by
  -- Only a number can be negated and only a truth value be turned over; the least integer has no
  -- negative.
  unfold UnaryOp.apply
  split
  · trivial
  · split
    · trivial
    · exact fits.of_usual rfl
  · trivial
  · exact fits.of_usual rfl
  · exact fits.of_usual rfl

end

namespace Context

/-! The rules, one by one. -/

/-- Evaluating an expression. -/
theorem evalStep_adds (fits : bounds.Fits context) {id : ExprId} {env : Env}
    (allowed : bounds.body id) (bound : env.Within store.cells.size) :
    Adds bounds store meter stack (context.evalStep store meter id env stack) := by
  have parts := fits.parts id allowed
  -- What a rule goes on with are parts of the expression, in the environment of the expression.
  unfold evalStep
  cases found : context.code.expr id with
  | int value | float value | str text | bool value => exact .here trivial
  | ident name =>
    dsimp only
    split
    · -- A variable is bound to a computation that is there, or the evaluation fails.
      rename_i known
      exact .here (bound.lookup known)
    · exact .fails fits _ rfl
  | lambda param body =>
    rw [found] at parts
    obtain ⟨grows, within⟩ :=
      @Store.closure_grows bounds store param body env (parts body List.mem_cons_self) bound
    exact .of_grows grows within
  | apply func arg =>
    rw [found] at parts
    exact .waits rfl ⟨parts arg (by simp [Expr.children]), bound⟩
      ⟨parts func (by simp [Expr.children]), bound⟩
  | letIn name value body =>
    rw [found] at parts
    obtain ⟨grows, within⟩ := @bindRecursive_grows bounds store env name value
      (parts value (by simp [Expr.children])) bound
    exact .of_grows grows ⟨parts body (by simp [Expr.children]), within⟩
  | cond test whenTrue whenFalse =>
    rw [found] at parts
    exact .waits rfl ⟨parts _ (by simp [Expr.children]), parts _ (by simp [Expr.children]), bound⟩
      ⟨parts test (by simp [Expr.children]), bound⟩
  | binary op left right =>
    rw [found] at parts
    have first : bounds.body left := parts left (by simp [Expr.children])
    have second : bounds.body right := parts right (by simp [Expr.children])
    cases op <;> exact .waits rfl ⟨second, bound⟩ ⟨first, bound⟩
  | unary op operand =>
    rw [found] at parts
    exact .waits rfl trivial ⟨parts operand List.mem_cons_self, bound⟩
  | list items =>
    rw [found] at parts
    obtain ⟨grows, inside⟩ := suspendAll_grows fits parts bound
    exact .of_grows grows (LazyList.Within.ofThunks inside)
  | record fields =>
    -- The types of the fields are among the annotations of the expression, which are resolved.
    have resolved : bounds.fault .unresolvedType ∨ ∀ field ∈ fields, ∀ type,
        field.type = some type → (context.annotations.get? type).isSome = true := by
      refine fits.types.imp_right fun sound field member type same => sound.2 id allowed type ?_
      rw [found]
      exact List.mem_filterMap.mpr ⟨field, member, same⟩
    rw [found] at parts
    obtain ⟨grows, within⟩ := suspendFields_grows fits
      (fun field member => parts field.value (List.mem_map_of_mem member)) resolved bound
      Record.Within.empty
    refine .of_grows grows (ResultWithin.control ?_)
    generalize (context.suspendFields env fields .empty store).1 = result at within
    cases result <;> exact within
  | field receiver name =>
    rw [found] at parts
    exact .waits rfl trivial ⟨parts receiver List.mem_cons_self, bound⟩
  | builtin op args =>
    rw [found] at parts
    dsimp only
    split
    · exact .waits rfl ⟨parts _ (by simp [Expr.children]), bound⟩
        ⟨parts _ (by simp [Expr.children]), bound⟩
    · -- The second argument is evaluated after all parts of the first.
      rename_i first second
      have after : Frame.Within bounds store.cells.size (.thenEval second env) :=
        ⟨parts second (by simp [Expr.children]), bound⟩
      refine .below ?_ rfl after
      exact .waits rfl trivial ⟨parts first (by simp [Expr.children]), bound⟩
    · split
      · exact .fails fits _ rfl
      · obtain ⟨grows, inside⟩ := suspendAll_grows fits parts bound
        split
        · exact .of_grows grows inside
        · exact .of_grows grows inside
  | ascribe value type =>
    have typed := fits.types
    dsimp only
    split
    · rw [found] at parts
      exact .waits rfl trivial ⟨parts value List.mem_cons_self, bound⟩
    · rename_i missing
      -- Either unresolved types are in bounds, or there are none among the expressions in bounds.
      rcases typed with may | ⟨_, each⟩
      · exact .here may
      · have some := each id allowed type (by rw [found]; exact List.mem_cons_self)
        rw [missing] at some
        cases some
  | aliases defs body =>
    rw [found] at parts
    exact .here ⟨parts body List.mem_cons_self, bound⟩

/-- Starting the work of a computation. -/
theorem resumeStep_adds {work : Suspension} (within : work.Within bounds store.cells.size) :
    Adds bounds store meter stack (resumeStep store meter work stack) := by
  cases work with
  | expr body env => exact .here within
  | apply func args => exact .waits rfl within.2 within.1
  | check inner type path => exact .waits rfl trivial within
  | checkList source elem path index => exact .here ⟨LazyList.Within.cursor within, trivial⟩

/-- Applying a value. -/
theorem applyStep_adds (fits : bounds.Fits context) {func : Value} {arg : ThunkId}
    (within : func.Within bounds store.cells.size) (inside : arg < store.cells.size) :
    Adds bounds store meter stack (applyStep store meter func arg stack) := by
  -- A function takes up its body, and a primitive holds the argument with those before it.
  unfold applyStep
  split
  · exact .here ⟨within.1, within.2.bind inside⟩
  · rename_i op held
    have all : Inside store.cells.size (held ++ [arg]) := by
      intro id member
      rcases List.mem_append.mp member with old | last
      · exact within id old
      · exact List.mem_singleton.mp last ▸ inside
    dsimp only
    split
    · exact .here all
    · exact .here all
  · exact .waits rfl trivial inside
  · exact .fails fits _ rfl

/-- Running a primitive. -/
theorem runStep_adds (fits : bounds.Fits context) {op : Builtin} {args : List ThunkId}
    (inside : Inside store.cells.size args) :
    Adds bounds store meter stack (runStep store meter op args stack) := by
  unfold runStep
  split
  -- Primitives of two arguments wait for one of them and keep the other.
  case h_1 | h_3 | h_7 | h_9 =>
    exact .waits rfl (inside _ (by simp)) (inside _ (by simp))
  case h_10 first second =>
    have after : Frame.Within bounds store.cells.size (.thenForce second) := inside second (by simp)
    refine .below ?_ rfl after
    exact .waits rfl trivial (inside first (by simp))
  -- With too few or too many arguments a primitive fails.
  case h_17 => exact .fails fits _ rfl
  all_goals exact .waits rfl trivial (inside _ (by simp))

/-- Applying a strict operator. -/
theorem operateStep_adds (fits : bounds.Fits context) {op : BinaryOp} {left right : Value}
    (first : left.Within bounds store.cells.size) (second : right.Within bounds store.cells.size) :
    Adds bounds store meter stack (operateStep store meter op left right stack) := by
  -- Both operands are what is left to be compared.
  have pair : PairsWithin bounds store.cells.size [(left, right)] := by
    intro pair member
    rw [List.mem_singleton.mp member]
    exact ⟨first, second⟩
  cases op with
  | eq => exact .here pair
  | ne => exact .waits rfl trivial pair
  | add | sub | mul | div | rem => exact .here (arithmetic_within fits _).control
  | lt | le | gt | ge => exact .here (order_within fits _).control
  | append | and | or =>
    simp only [operateStep]
    split
    · exact .here trivial
    · exact .fails fits _ rfl
  | concat =>
    cases left with
    | list items =>
      -- The right operand gets a place in the store and is then joined to the list.
      obtain ⟨grows, here⟩ := Store.ready_grows second
      exact .of_grows grows ⟨LazyList.Within.grow grows.size first, here⟩
    | _ => exact .fails fits _ rfl

/-- Handing an element to a consumer. -/
theorem consumeStep_adds (fits : bounds.Fits context) {graph : TypeGraph} {consumer : Consumer}
    {item : Option ThunkId} {rest : Cursor} (wanted : consumer.Within bounds store.cells.size)
    (inside : ∀ id, item = some id → id < store.cells.size) (within : rest.Within store.cells.size) :
    Adds bounds store meter stack (consumeStep graph store meter consumer item rest stack) := by
  unfold consumeStep
  split
  · -- A step for the host is the answer.
    exact .here ⟨wanted, inside, within⟩
  · -- The first element and the list without it are asked for, or are not there.
    exact .here (inside _ rfl)
  · exact .fails fits _ rfl
  · exact .here (Cursor.Within.rest within)
  · exact .fails fits _ rfl
  · -- Counting goes on, up to the largest integer.
    exact .here ⟨within, trivial⟩
  · split
    · exact .here trivial
    · exact .fails fits _ rfl
  · -- An element at a position is found, lies further on, or is not there at all.
    exact .here (inside _ rfl)
  · exact .here ⟨within, wanted⟩
  · exact .here ⟨LazyList.Within.cursor wanted, trivial⟩
  · exact .here ⟨within, trivial⟩
  · exact .fails fits _ rfl
  · -- All parts are evaluated in turn.
    exact .waits rfl ⟨within, wanted⟩ (inside _ rfl)
  · exact .here wanted
  · -- An element of each list is taken, and then the two are compared.
    exact .here ⟨wanted.1, inside, within, wanted.2⟩
  · exact .waits rfl ⟨inside _ rfl, wanted.2.1, within, wanted.2.2⟩ (wanted.1 _ rfl)
  · exact .here wanted.2.2
  · exact .here trivial
  · -- A checked list has one more cell for each element.
    rename_i elem path index head
    obtain ⟨grows, given⟩ := Store.checkCell_grows elem path index (inside head rfl) within.rest
    exact .of_grows grows given
  · exact .here trivial

/-- Going on with a right part. -/
theorem crossStep_adds (fits : bounds.Fits context) {graph : TypeGraph} {consumer : Consumer}
    {pending : List ThunkId} (wanted : consumer.Within bounds store.cells.size)
    (inside : Inside store.cells.size pending) :
    Adds bounds store meter stack (crossStep graph store meter pending consumer stack) := by
  cases pending with
  | nil => exact consumeStep_adds fits wanted (by simp) (.before inside)
  | cons right rest =>
    have others : Inside store.cells.size rest := fun id member =>
      inside id (List.mem_cons_of_mem _ member)
    exact .waits rfl ⟨others, wanted⟩ (inside right List.mem_cons_self)

/-- A step along a list. -/
theorem advanceStep_adds (fits : bounds.Fits context) {graph : TypeGraph} {cursor : Cursor}
    {consumer : Consumer} (within : cursor.Within store.cells.size)
    (wanted : consumer.Within bounds store.cells.size) :
    Adds bounds store meter stack (advanceStep graph store meter cursor consumer stack) := by
  obtain ⟨front, pending⟩ := cursor
  obtain ⟨first, inside⟩ := within
  cases front with
  | elems items start =>
    simp only [advanceStep]
    split
    · rename_i id found
      refine consumeStep_adds fits wanted (fun other same => ?_) ⟨first, inside⟩
      cases same
      exact Inside.getElem? first found
    · exact crossStep_adds fits wanted inside
  | range next stop =>
    simp only [advanceStep]
    split
    · -- An integer of a range gets a place when it is passed.
      obtain ⟨grows, here⟩ := @Store.ready_grows bounds store (.int next) trivial
      refine .after_grows grows (consumeStep_adds fits (wanted.grow grows.size) (fun other same => ?_)
        ⟨trivial, Inside.grow grows.size inside⟩)
      cases same
      exact here
    · exact crossStep_adds fits wanted inside
  | concat left right =>
    -- The right part is put in front of those that are pending.
    refine .here ⟨⟨first.1, fun id member => ?_⟩, wanted⟩
    rcases List.mem_cons.mp member with rfl | later
    · exact first.2
    · exact inside id later

/-- Taking up a value to evaluate all its parts. -/
theorem deepenStep_adds {work : List Value} {whole : Value}
    (works : WorkWithin bounds store.cells.size work) (within : whole.Within bounds store.cells.size) :
    Adds bounds store meter stack (deepenStep store meter work whole stack) := by
  have rest {first : Value} {others : List Value} (same : work = first :: others) :
      WorkWithin bounds store.cells.size others := fun value member =>
    works value (same ▸ List.mem_cons_of_mem _ member)
  unfold deepenStep
  split
  · exact .here within
  · -- A list is walked along, and so are the fields of a record.
    rename_i items others
    have listed : items.Within store.cells.size := works (.list items) List.mem_cons_self
    exact .here ⟨listed.cursor, rest rfl, within⟩
  · rename_i fields others
    have listed : fields.Within store.cells.size := works (.record fields) List.mem_cons_self
    exact .here ⟨LazyList.Within.cursor (.ofThunks listed.thunks), rest rfl, within⟩
  · exact .here ⟨rest rfl, within⟩

/-- Comparing two values. -/
theorem compareStep_adds (fits : bounds.Fits context) {work : List (Value × Value)}
    (works : PairsWithin bounds store.cells.size work) :
    Adds bounds store meter stack (compareStep store meter work stack) := by
  have rest {first : Value × Value} {others : List (Value × Value)} (same : work = first :: others) :
      PairsWithin bounds store.cells.size others := fun pair member =>
    works pair (same ▸ List.mem_cons_of_mem _ member)
  -- Scalars are equal or not, and the comparison goes on only if they are.
  have decided {first : Value × Value} {others : List (Value × Value)}
      (same : work = first :: others) (equal : Bool) : Adds bounds store meter stack
        ⟨store, meter, if equal then .compare others else .give (.bool false), stack⟩ := by
    cases equal with
    | false => exact .here trivial
    | true => exact .here (rest same)
  unfold compareStep
  dsimp only
  split
  · exact .here trivial
  · exact decided rfl _
  · exact decided rfl _
  · exact decided rfl _
  · -- Lists and records are compared part by part.
    rename_i left right others
    obtain ⟨first, second⟩ := works (.list left, .list right) List.mem_cons_self
    exact .here ⟨LazyList.Within.cursor first, LazyList.Within.cursor second, rest rfl⟩
  · rename_i left right others
    obtain ⟨first, second⟩ := works (.record left, .record right) List.mem_cons_self
    split
    · exact .here ⟨LazyList.Within.cursor (.ofThunks (Record.Within.thunks first)),
        LazyList.Within.cursor (.ofThunks (Record.Within.thunks second)), rest rfl⟩
    · exact .here trivial
  · -- Functions cannot be compared, and values of different kinds are not equal.
    split
    · exact .fails fits _ rfl
    · split
      · exact decided rfl _
      · exact decided rfl _

/-- What a function of the host answers. -/
theorem answerStep_adds (fits : bounds.Fits context) {function : HostFunction} {value : Value}
    {shown : String} (within : value.Within bounds store.cells.size) :
    Adds bounds store meter stack (answerStep store meter function value shown stack) := by
  have noted := @Store.record_grows bounds store ⟨function.name, shown⟩
  unfold answerStep
  dsimp only
  split
  · -- The function may give its argument back, refuse it, panic, or make something of it.
    exact .of_grows noted (Value.Within.grow noted.size within)
  · exact .of_grows noted (fits.of_usual rfl)
  · exact .of_grows noted trivial
  · exact .of_grows noted trivial
  · obtain ⟨grows, here⟩ := Store.ready_grows (Value.Within.grow noted.size within)
    refine .of_grows (noted.trans grows) (LazyList.Within.ofThunks fun id member => ?_)
    rw [List.mem_singleton.mp member]
    exact here

/-- Giving a value to a frame that only waits. -/
theorem giveStep_adds (fits : bounds.Fits context) {value : Value} {frame : Frame}
    (plain : frame.isPlain = true) (within : value.Within bounds store.cells.size)
    (waited : frame.Within bounds store.cells.size) :
    Adds bounds store meter stack (context.giveStep store meter value frame stack) := by
  -- What the frame holds was within the store before, and what the rule adds comes after it.
  cases frame with
  | leave | update id => cases plain
  | branch whenTrue whenFalse env =>
    cases value with
    | bool test =>
      refine .here ⟨?_, waited.2.2⟩
      split
      · exact waited.1
      · exact waited.2.1
    | _ => exact .fails fits _ rfl
  | operand arg env =>
    obtain ⟨grows, here⟩ := suspend_grows fits waited.1 waited.2
    -- What a function is applied to is put off in an environment that it already has.
    have later := Value.Within.grow grows.size within
    cases value with
    -- A function that is written down is entered at once with its argument bound.
    | closure function => exact .of_grows grows ⟨later.1, later.2.bind here⟩
    | _ => exact .of_grows grows ⟨later, here⟩
  | thenEval body env => exact .here waited
  | thenForce id => exact .here waited
  | deepen =>
    refine .here ⟨fun other member => ?_, within⟩
    rw [List.mem_singleton.mp member]
    exact within
  | logicLeft op right env =>
    cases value with
    | bool left =>
      simp only [giveStep]
      split
      · exact .here trivial
      · exact .waits rfl trivial waited
    | _ => exact .fails fits _ rfl
  | logicRight =>
    cases value with
    | bool right => exact .here trivial
    | _ => exact .fails fits _ rfl
  | concatLeft right env =>
    cases value with
    | list items =>
      obtain ⟨grows, here⟩ := suspend_grows fits waited.1 waited.2
      exact .of_grows grows ⟨LazyList.Within.grow grows.size within, here⟩
    | _ => exact .fails fits _ rfl
  | operandLeft op right env => exact .waits rfl within waited
  | operandRight op left => exact .here ⟨waited, within⟩
  | unary op => exact .here (unary_within fits op).control
  | negate =>
    cases value with
    | bool same => exact .here trivial
    | _ => exact .here within
  | select name =>
    cases value with
    | record fields =>
      simp only [giveStep]
      split
      · -- A field that is there is a computation of the record.
        rename_i id found
        exact .waits rfl trivial (Record.Within.get? within found)
      · exact .fails fits _ rfl
    | _ => exact .fails fits _ rfl
  | note name => exact .here within
  | ascribe type path =>
    obtain ⟨grows, checked⟩ := Store.check_grows fits type path within
    exact .of_grows grows checked.control
  | args rest =>
    cases rest with
    | nil => exact .here within
    | cons arg rest =>
      have others : Inside store.cells.size rest := fun id member =>
        waited id (List.mem_cons_of_mem _ member)
      exact .waits rfl others ⟨within, waited arg List.mem_cons_self⟩
  | hostArgument function => exact answerStep_adds fits within
  | mapOver func =>
    cases value with
    | record fields =>
      obtain ⟨grows, mapped⟩ := Store.mapFields_grows waited within
      exact .of_grows grows mapped
    | _ => exact .fails fits _ rfl
  | fieldNames =>
    cases value with
    | record fields =>
      obtain ⟨grows, listed⟩ := Store.fieldsOf_grows fields
      exact .of_grows grows listed
    | _ => exact .fails fits _ rfl
  | fieldName record =>
    cases value with
    | str name => exact .waits rfl trivial waited
    | _ => exact .fails fits _ rfl
  | fieldOwner name =>
    cases value with
    | record fields => exact .here trivial
    | _ => exact .fails fits _ rfl
  | walk op consumer =>
    cases value with
    | list items => exact .here ⟨LazyList.Within.cursor within, waited⟩
    | _ => exact .fails fits _ rfl
  | indexed index =>
    cases value with
    | list items => exact .waits rfl within waited
    | _ => exact .fails fits _ rfl
  | index list =>
    simp only [giveStep]
    split
    · -- A position that is negative is out of bounds, and the list is walked only to tell how long
      -- it is.
      split
      · exact .here ⟨LazyList.Within.cursor waited, trivial⟩
      · exact .here ⟨LazyList.Within.cursor waited, waited⟩
    · exact .fails fits _ rfl
  | bound =>
    simp only [giveStep]
    split
    · exact .here trivial
    · exact .fails fits _ rfl
  | kindTest kind => exact .here trivial
  | spine pending consumer =>
    cases value with
    | list items => exact .here ⟨⟨within, waited.1⟩, waited.2⟩
    | _ => exact .waits rfl waited (fits.of_usual rfl)
  | deepItem rest work whole =>
    refine .here ⟨waited.1, fun other member => ?_, waited.2.2⟩
    rcases List.mem_cons.mp member with rfl | old
    · exact within
    · exact waited.2.1 other old
  | compareItemLeft right lefts rights work =>
    exact .waits rfl ⟨within, waited.2⟩ waited.1
  | compareItemRight left lefts rights work =>
    refine .here ⟨waited.2.1, waited.2.2.1, fun pair member => ?_⟩
    rcases List.mem_cons.mp member with rfl | old
    · exact ⟨waited.1, within⟩
    · exact waited.2.2.2 pair old

/-- Passing a failure up past a frame that only waits. -/
theorem raiseStep_adds {upset : Upset} {frame : Frame} (plain : frame.isPlain = true)
    (within : upset.Within bounds) (waited : frame.Within bounds store.cells.size) :
    Adds bounds store meter stack (context.raiseStep store meter upset frame stack) := by
  cases frame with
  | leave | update id => cases plain
  | note name => cases upset <;> exact .here within
  | spine pending consumer =>
    cases consumer with
    -- The host is told where the walk has stopped.
    | report =>
      refine .here ⟨waited.2, within, fun cursor same => ?_⟩
      cases same
      exact .before waited.1
    | _ => exact .here within
  | _ => exact .here within

end Context

end LazyConfig
