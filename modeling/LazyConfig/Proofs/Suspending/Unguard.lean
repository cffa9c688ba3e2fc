import LazyConfig.Proofs.ByName.Run
import LazyConfig.Proofs.Suspending.Guard

/-!
Evaluation by name with alias groups in front of what is not put off as it is, and without them. What stands
behind such a group is put off with it, and without it where its variable leads.
-/

namespace LazyConfig.ByName

/-- Code all of whose expressions are below a number. -/
structure Guarded where
  context : Context
  count : Nat
  below : context.code.Below count

namespace Guarded

variable (source : Guarded)

/-- What is read with alias groups. -/
def guarded : Context :=
  source.context.guard source.count

/-- The position of an expression without its alias group. -/
def core (id : ExprId) : ExprId :=
  Code.unguarded source.count id

/-- Whether an expression stands behind an alias group. -/
def Behind (id : ExprId) : Prop :=
  id < source.count ∧ (source.context.code.expr id).isAtom = true

theorem expr_of_behind {id : ExprId} (behind : source.Behind id) :
    source.guarded.code.expr id = .aliases [] (source.count + id) :=
  guard_expr_of_atom source.below behind.1 behind.2

theorem expr_of_not_behind {id : ExprId} (other : ¬ source.Behind id) :
    source.guarded.code.expr id = source.context.code.expr (source.core id) :=
  (Code.guard_expr source.below id).trans (if_neg other)

theorem core_of_behind {id : ExprId} (behind : source.Behind id) : source.core id = id :=
  Code.unguarded_of_lt behind.1

@[simp]
theorem core_add (id : ExprId) : source.core (source.count + id) = id :=
  Code.unguarded_add id

/-- The parts of an expression are at the first positions. -/
theorem core_of_mem {id child : ExprId} (member : child ∈ (source.context.code.expr id).children) :
    source.core child = child :=
  Code.unguarded_of_lt (source.below.parts id child member)

end Guarded

/-! Everything that there is by name, without alias groups. -/

section

variable (source : Guarded)

mutual

/-- What a promise is when its expression stands behind no alias group. -/
def Promise.unguard : Promise → Promise
  | .ready value => .ready value.unguard
  | .expr body env => promise source.context (unguardEnv env) (source.core body)
  | .recursive name body env => .recursive name (source.core body) (unguardEnv env)
  | .apply func args => .apply func.unguard (unguardAll args)
  | .check inner type => .check inner.unguard type
  | .checkList items elem => .checkList (unguardList items) elem

def Segment.unguard : Segment → Segment
  | .item promise => .item promise.unguard
  | .range next stop => .range next stop
  | .joint right => .joint right.unguard

def Value.unguard : Value → Value
  | .int value => .int value
  | .float value => .float value
  | .bool value => .bool value
  | .str text => .str text
  | .list items => .list (unguardList items)
  | .record fields => .record (unguardFields fields)
  | .closure param body env => .closure param (source.core body) (unguardEnv env)
  | .builtin op held => .builtin op (unguardAll held)

def unguardEnv : List (Name × Promise) → List (Name × Promise)
  | [] => []
  | (name, promise) :: rest => (name, promise.unguard) :: unguardEnv rest

def unguardFields : List (String × Promise) → List (String × Promise)
  | [] => []
  | (name, promise) :: rest => (name, promise.unguard) :: unguardFields rest

def unguardAll : List Promise → List Promise
  | [] => []
  | promise :: rest => promise.unguard :: unguardAll rest

def unguardList : List Segment → List Segment
  | [] => []
  | first :: rest => first.unguard :: unguardList rest

end

/-- A pair of values without alias groups. -/
def unguardPair (pair : Value × Value) : Value × Value :=
  (pair.1.unguard source, pair.2.unguard source)

/-- What a walk is for, without alias groups. -/
def Consumer.unguard : Consumer → Consumer
  | .head => .head
  | .tail => .tail
  | .count passed => .count passed
  | .elemAt list index ahead => .elemAt (unguardList source list) index ahead
  | .outOfBounds index passed => .outOfBounds index passed
  | .deepen work whole => .deepen (work.map (·.unguard source)) (whole.unguard source)
  | .compareLeft right work => .compareLeft (unguardList source right) (work.map (unguardPair source))
  | .compareRight left rest work =>
    .compareRight (left.map (·.unguard source)) (unguardList source rest) (work.map (unguardPair source))
  | .checkCell elem => .checkCell elem

/-- What waits for a value, without alias groups. -/
def Frame.unguard : Frame → Frame
  | .branch whenTrue whenFalse env =>
    .branch (source.core whenTrue) (source.core whenFalse) (unguardEnv source env)
  | .operand arg env => .operand (source.core arg) (unguardEnv source env)
  | .thenEval body env => .thenEval (source.core body) (unguardEnv source env)
  | .thenForce promise => .thenForce (promise.unguard source)
  | .deepen => .deepen
  | .logicLeft op right env => .logicLeft op (source.core right) (unguardEnv source env)
  | .logicRight => .logicRight
  | .concatLeft right env => .concatLeft (source.core right) (unguardEnv source env)
  | .operandLeft op right env => .operandLeft op (source.core right) (unguardEnv source env)
  | .operandRight op left => .operandRight op (left.unguard source)
  | .unary op => .unary op
  | .negate => .negate
  | .select name => .select name
  | .ascribe type => .ascribe type
  | .args rest => .args (unguardAll source rest)
  | .mapOver func => .mapOver (func.unguard source)
  | .fieldNames => .fieldNames
  | .fieldName record => .fieldName (record.unguard source)
  | .fieldOwner name => .fieldOwner name
  | .walk consumer => .walk (consumer.unguard source)
  | .indexed asked => .indexed (asked.unguard source)
  | .index list => .index (unguardList source list)
  | .bound => .bound
  | .kindTest kind => .kindTest kind
  | .spine pending consumer => .spine (unguardList source pending) (consumer.unguard source)
  | .deepItem rest work whole =>
    .deepItem (unguardList source rest) (work.map (·.unguard source)) (whole.unguard source)
  | .compareItemLeft right lefts rights work =>
    .compareItemLeft (right.unguard source) (unguardList source lefts) (unguardList source rights)
      (work.map (unguardPair source))
  | .compareItemRight left lefts rights work =>
    .compareItemRight (left.unguard source) (unguardList source lefts) (unguardList source rights)
      (work.map (unguardPair source))

/-- What is done next, without alias groups. -/
def Control.unguard : Control → Control
  | .eval body env => .eval (source.core body) (unguardEnv source env)
  | .force promise => .force (promise.unguard source)
  | .apply func arg => .apply (func.unguard source) (arg.unguard source)
  | .run op args => .run op (unguardAll source args)
  | .operate op left right => .operate op (left.unguard source) (right.unguard source)
  | .advance items consumer => .advance (unguardList source items) (consumer.unguard source)
  | .deepen work whole => .deepen (work.map (·.unguard source)) (whole.unguard source)
  | .compare work => .compare (work.map (unguardPair source))
  | .give value => .give (value.unguard source)
  | .raise variant => .raise variant

/-- How a rule goes on, without alias groups. -/
def Turn.unguard (turn : Turn) : Turn :=
  ⟨turn.control.unguard source, turn.frames.map (·.unguard source)⟩

/-- A state without alias groups. -/
def State.unguard (state : State) : State :=
  ⟨state.control.unguard source, state.stack.map (·.unguard source)⟩

end

section

variable (source : Guarded)

/-! Lists, part by part. -/

@[simp]
theorem unguardAll_eq (promises : List Promise) :
    unguardAll source promises = promises.map (·.unguard source) := by
  induction promises with
  | nil => rfl
  | cons first rest ih => rw [unguardAll, ih, List.map_cons]

theorem lookup_unguardEnv (name : Name) (env : Env) :
    (unguardEnv source env).lookup name = (env.lookup name).map (·.unguard source) := by
  have images : unguardEnv source env = env.map fun entry => (entry.1, entry.2.unguard source) := by
    induction env with
    | nil => rfl
    | cons entry rest ih => rw [unguardEnv, ih, List.map_cons]
  rw [images, lookup_map]

@[simp]
theorem unguardFields_eq (fields : Fields) :
    unguardFields source fields = fields.map fun field => (field.1, field.2.unguard source) := by
  induction fields with
  | nil => rfl
  | cons field rest ih => rw [unguardFields, ih, List.map_cons]

@[simp]
theorem unguardList_eq (items : List Segment) :
    unguardList source items = items.map (·.unguard source) := by
  induction items with
  | nil => rfl
  | cons first rest ih => rw [unguardList, ih, List.map_cons]

@[simp]
theorem map_unguard_span (next stop : Int64) :
    (Segment.span next stop).map (·.unguard source) = Segment.span next stop := by
  unfold Segment.span
  split <;> rfl

/-! Promises and values. -/

@[simp]
theorem outer_unguard (value : Value) : (value.unguard source).outer = value.outer := by
  cases value <;> rfl

@[simp]
theorem kind_unguard (value : Value) : (value.unguard source).kind = value.kind := by
  rw [Value.kind, outer_unguard, Value.kind]

@[simp]
theorem ofScalar_unguard (value : LazyConfig.Value) :
    (Value.ofScalar value).unguard source = .ofScalar value := by
  cases value <;> rfl

/-- What is put off with alias groups is put off without them where it leads. -/
theorem promise_unguard (env : Env) (id : ExprId) :
    (promise source.guarded env id).unguard source =
      promise source.context (unguardEnv source env) (source.core id) := by
  by_cases behind : source.Behind id
  · simp only [promise, source.expr_of_behind behind, Promise.unguard]
  · -- A variable in front of which there is no alias group leads to the same promise at once.
    simp only [promise, source.expr_of_not_behind behind]
    cases node : source.context.code.expr (source.core id) with
    | ident name =>
      cases found : env.lookup name with
      | some bound => simp [lookup_unguardEnv, found]
      | none => simp [lookup_unguardEnv, found, Promise.unguard, promise, node]
    | _ => simp only [Promise.unguard, promise, node]

@[simp]
theorem wrap_unguard (graph : TypeGraph) (inner : Promise) (type : TypeId) :
    (inner.wrap graph type).unguard source = (inner.unguard source).wrap graph type := by
  unfold Promise.wrap
  split <;> rfl

theorem wrapDeclared_unguard (names : NameTable) (graph : TypeGraph) (fields : Fields)
    (declared : List (Name × TypeId)) :
    Fields.wrapDeclared names graph (unguardFields source fields) declared =
      (fields.wrapDeclared names graph declared).map (unguardFields source) := by
  induction declared with
  | nil => rfl
  | cons entry rest ih =>
    -- Each declared field is looked up in both lists alike; a missing one fails in both.
    simp only [Fields.wrapDeclared, ih]
    simp only [unguardFields_eq, lookup_map]
    cases fields.lookup (names.lookup entry.1) with
    | none => rfl
    | some inner =>
      cases fields.wrapDeclared names graph rest with
      | error variant => rfl
      | ok others => simp [Except.map]

@[simp]
theorem ofEntries_unguard (entries : Fields) :
    Fields.ofEntries (unguardFields source entries) = unguardFields source entries.ofEntries := by
  rw [unguardFields_eq, unguardFields_eq]
  exact placeAll_map (·.unguard source) entries

theorem fieldsCheck_unguard (names : NameTable) (graph : TypeGraph) (fields : Fields)
    (declared : List (Name × TypeId)) :
    Fields.check names graph (unguardFields source fields) declared =
      (Fields.check names graph fields declared).map (·.unguard source) := by
  unfold Fields.check
  rw [wrapDeclared_unguard]
  cases fields.wrapDeclared names graph declared with
  | error variant => rfl
  | ok checked =>
    -- Whether a field is declared depends on the names alone, which stay.
    have known : ((unguardFields source fields).all fun field =>
          (unguardFields source checked).any fun entry => entry.1 == field.1) =
        fields.all fun field => checked.any fun entry => entry.1 == field.1 := by
      simp [Function.comp_def]
    simp only [Except.map, known, ofEntries_unguard]
    split <;> rfl

theorem check_unguard (names : NameTable) (graph : TypeGraph) (value : Value) (type : TypeId) :
    (value.unguard source).check names graph type =
      (value.check names graph type).map (·.unguard source) := by
  -- A scalar type looks at the kind of the value alone.
  have accepts (kind : Kind) : (if (value.unguard source).kind = kind then
        (.ok (value.unguard source) : Except Variant Value) else .error .typeMismatch) =
      (if value.kind = kind then .ok value else .error .typeMismatch : Except Variant Value).map
        (·.unguard source) := by
    rw [kind_unguard]
    split <;> rfl
  unfold Value.check
  cases node : graph.node (graph.shape type) with
  | num | str | bool | fn => exact accepts _
  | record declared =>
    cases value with
    | record fields => exact fieldsCheck_unguard source names graph fields declared
    | _ => rfl
  | dict elem =>
    cases value with
    | record fields =>
      have wrapped : (unguardFields source fields).map (fun field => (field.1, field.2.wrap graph elem)) =
          unguardFields source (fields.map fun field => (field.1, field.2.wrap graph elem)) := by
        simp [Function.comp_def]
      simp only [Value.unguard, Except.map, wrapped, ofEntries_unguard]
    | _ => rfl
  | list elem => cases value <;> rfl
  | _ => cases value <;> rfl

/-! The rules, one by one. -/

/-- The result of an operator. -/
@[simp]
theorem scalar_unguard (result : Except Fault LazyConfig.Value) :
    (Control.ofScalar result).unguard source = .ofScalar result := by
  cases result with
  | ok value => simp only [Control.ofScalar, Control.unguard, ofScalar_unguard]
  | error fault => rfl

@[simp]
theorem ofResult_unguard (result : Except Variant Value) :
    (Control.ofResult result).unguard source = .ofResult (result.map (·.unguard source)) := by
  cases result <;> rfl

@[simp]
theorem turn_unguard (control : Control) : control.turn.unguard source = (control.unguard source).turn :=
  rfl

@[simp]
theorem before_unguard (control : Control) (frame : Frame) :
    (control.before frame).unguard source = (control.unguard source).before (frame.unguard source) :=
  rfl

@[simp]
theorem onto_unguard (turn : Turn) (stack : List Frame) :
    (turn.onto stack).unguard source = (turn.unguard source).onto (stack.map (·.unguard source)) := by
  simp only [State.unguard, Turn.onto, Turn.unguard, List.map_append]

theorem ite_unguard (test : Prop) [Decidable test] (first second : Turn) :
    (if test then first else second).unguard source =
      if test then first.unguard source else second.unguard source := by
  split <;> rfl

theorem applyTurn_unguard (func : Value) (arg : Promise) :
    (applyTurn func arg).unguard source = applyTurn (func.unguard source) (arg.unguard source) := by
  cases func with
  | closure param body env => simp [applyTurn, Value.unguard, Control.unguard, unguardEnv]
  | builtin op held =>
    simp only [applyTurn, Value.unguard, unguardAll_eq, List.length_append, List.length_map, ite_unguard]
    simp [Control.unguard, Value.unguard]
  | _ => rfl

theorem runTurn_unguard (op : Builtin) (args : List Promise) :
    (runTurn op args).unguard source = runTurn op (unguardAll source args) := by
  match args with
  | [] | [_] | [_, _] | _ :: _ :: _ :: _ => cases op <;> rfl

theorem operateTurn_unguard (op : BinaryOp) (left right : Value) :
    (operateTurn op left right).unguard source =
      operateTurn op (left.unguard source) (right.unguard source) := by
  cases op with
  | add | sub | mul | div | rem | lt | le | gt | ge => simp [operateTurn]
  | append | and | or => cases left <;> cases right <;> rfl
  | concat =>
    cases left <;> simp [operateTurn, Control.unguard, Value.unguard, Segment.unguard, Promise.unguard]
  | _ => rfl

theorem consumeTurn_unguard (graph : TypeGraph) (consumer : Consumer) (item : Option Promise)
    (rest : List Segment) :
    (consumeTurn graph consumer item rest).unguard source =
      consumeTurn graph (consumer.unguard source) (item.map (·.unguard source))
        (unguardList source rest) := by
  cases consumer with
  | elemAt list index ahead => cases item <;> cases ahead <;> rfl
  | count passed =>
    cases item with
    | some first => rfl
    | none =>
      simp only [consumeTurn, Consumer.unguard, Option.map]
      split <;> rfl
  | compareRight left lefts work => cases left <;> cases item <;> rfl
  | checkCell elem =>
    cases item with
    | some head => simp [consumeTurn, Consumer.unguard, Control.unguard, Value.unguard, Segment.unguard, Promise.unguard]
    | none => rfl
  | _ => cases item <;> rfl

theorem advanceTurn_unguard (graph : TypeGraph) (items : List Segment) (consumer : Consumer) :
    (advanceTurn graph items consumer).unguard source =
      advanceTurn graph (unguardList source items) (consumer.unguard source) := by
  cases items with
  | nil => exact consumeTurn_unguard source graph consumer none []
  | cons first rest =>
    cases first with
    | item promise => exact consumeTurn_unguard source graph consumer (some promise) rest
    | range next stop =>
      simp [advanceTurn, consumeTurn_unguard, Segment.unguard, Promise.unguard, Value.unguard]
    | joint right => rfl

theorem deepenTurn_unguard (work : List Value) (whole : Value) :
    (deepenTurn work whole).unguard source =
      deepenTurn (work.map (·.unguard source)) (whole.unguard source) := by
  cases work with
  | nil => rfl
  | cons first rest =>
    cases first with
    | record fields =>
      simp [deepenTurn, Control.unguard, Value.unguard, Segment.ofFields, Consumer.unguard, Segment.unguard,
        Function.comp_def]
    | _ => rfl

theorem compareTurn_unguard (work : List (Value × Value)) :
    (compareTurn work).unguard source = compareTurn (work.map (unguardPair source)) := by
  -- A pair of equal scalars is passed; anything else is decided here or part by part.
  have decides (same : Bool) (rest : List (Value × Value)) :
      (if same then Control.compare rest else .give (.bool false)).turn.unguard source =
        (if same then Control.compare (rest.map (unguardPair source)) else .give (.bool false)).turn := by
    cases same <;> rfl
  cases work with
  | nil => rfl
  | cons pair rest =>
    obtain ⟨left, right⟩ := pair
    cases left with
    | int a => cases right <;> first | exact decides _ rest | rfl
    | float a => cases right <;> first | exact decides _ rest | rfl
    | bool a => cases right <;> first | exact decides _ rest | rfl
    | str a => cases right <;> first | exact decides _ rest | rfl
    | list items => cases right <;> first | exact decides _ rest | rfl
    | record fields =>
      cases right with
      | record others =>
        simp only [compareTurn, List.map_cons, unguardPair, Value.unguard, unguardFields_eq, List.map_map,
          Function.comp_def]
        split
        · simp [Control.unguard, Segment.ofFields, Consumer.unguard, Segment.unguard, Function.comp_def]
        · rfl
      | closure | builtin => rfl
      | _ => exact decides false rest
    | closure => cases right <;> rfl
    | builtin => cases right <;> rfl

theorem mapOver_unguard (func : Promise) (fields : Fields) :
    unguardFields source (Fields.ofEntries (fields.map fun (name, promise) =>
        (name, Promise.apply func [.ready (.str name), promise]))) =
      Fields.ofEntries ((unguardFields source fields).map fun (name, promise) =>
        (name, Promise.apply (func.unguard source) [.ready (.str name), promise])) := by
  rw [← ofEntries_unguard]
  simp [Function.comp_def, Promise.unguard, Value.unguard]

theorem giveTurn_unguard (value : Value) (frame : Frame) :
    (giveTurn source.guarded value frame).unguard source =
      giveTurn source.context (value.unguard source) (frame.unguard source) := by
  -- Only the frames that put off a part or look inside a value need more than computation.
  cases frame with
  | branch whenTrue whenFalse env =>
    cases value with
    | bool test => cases test <;> rfl
    | _ => rfl
  | operand arg env =>
    cases value <;>
      simp [giveTurn, Control.unguard, Frame.unguard, Value.unguard, promise_unguard, unguardEnv]
  | logicLeft op right env =>
    cases value with
    | bool left =>
      simp only [giveTurn, Value.unguard, Frame.unguard, ite_unguard]
      rfl
    | _ => rfl
  | concatLeft right env =>
    cases value <;>
      simp [giveTurn, Control.unguard, Frame.unguard, Value.unguard, promise_unguard, Segment.unguard]
  | unary op => simp [giveTurn, Frame.unguard]
  | select name =>
    cases value with
    | record fields =>
      simp only [giveTurn, Frame.unguard, Value.unguard, unguardFields_eq, lookup_map]
      have names : source.guarded.names = source.context.names := rfl
      rw [names]
      cases fields.lookup (source.context.names.lookup name) <;> rfl
    | _ => rfl
  | ascribe type =>
    simp only [giveTurn, turn_unguard, ofResult_unguard, Frame.unguard, check_unguard]
    rfl
  | args rest => cases rest <;> rfl
  | mapOver func =>
    cases value with
    | record fields =>
      simp only [giveTurn, turn_unguard, Control.unguard, Value.unguard, mapOver_unguard, Frame.unguard]
    | _ => rfl
  | fieldNames =>
    cases value <;>
      simp [giveTurn, Control.unguard, Frame.unguard, Value.unguard, Segment.unguard, Promise.unguard, Function.comp_def]
  | fieldOwner name =>
    cases value with
    | record fields =>
      simp [giveTurn, Control.unguard, Frame.unguard, Value.unguard, lookup_map]
    | _ => rfl
  | index list =>
    simp only [giveTurn, Frame.unguard, outer_unguard]
    split
    · rw [ite_unguard]
      rfl
    · rfl
  | bound =>
    simp only [giveTurn, Frame.unguard, outer_unguard]
    split
    · simp [Control.unguard, Value.unguard]
    · rfl
  | kindTest kind => simp [giveTurn, Frame.unguard, Control.unguard, Value.unguard]
  | spine pending consumer =>
    cases value <;> simp [giveTurn, Frame.unguard, Control.unguard, Value.unguard]
  | _ => cases value <;> rfl

/-- What is put off together is put off without alias groups where each part leads. -/
theorem promises_unguard (env : Env) {ids : List ExprId} (first : ∀ id ∈ ids, source.core id = id) :
    (ids.map (promise source.guarded env)).map (·.unguard source) =
      ids.map (promise source.context (unguardEnv source env)) := by
  rw [List.map_map]
  refine List.map_congr_left fun id member => ?_
  rw [Function.comp_apply, promise_unguard, first id member]

theorem promiseFields_unguard (env : Env) {written : List Field}
    (first : ∀ field ∈ written, source.core field.value = field.value) (fields : Fields) :
    promiseFields source.context (unguardEnv source env) written (unguardFields source fields) =
      (promiseFields source.guarded env written fields).map (unguardFields source) := by
  induction written generalizing fields with
  | nil => rfl
  | cons field rest ih =>
    have value : promise source.context (unguardEnv source env) field.value =
        (promise source.guarded env field.value).unguard source := by
      rw [promise_unguard, first field List.mem_cons_self]
    -- The next fields come after a promise that may be wrapped in a check.
    have next (name : String) (inner : Promise) :
        (if ((unguardFields source fields).lookup name).isSome then .error .duplicateField
          else promiseFields source.context (unguardEnv source env) rest
            (Record.place name (inner.unguard source) (unguardFields source fields))) =
        (if (fields.lookup name).isSome then .error .duplicateField
          else promiseFields source.guarded env rest (Record.place name inner fields)).map
            (unguardFields source) := by
      simp only [unguardFields_eq, lookup_map, Option.isSome_map, place_map]
      split
      · rfl
      · have others := ih (fun other member => first other (List.mem_cons_of_mem _ member))
          (Record.place name inner fields)
        rwa [unguardFields_eq] at others
    simp only [promiseFields, value]
    cases field.type with
    | none => exact next _ _
    | some type =>
      have same : source.guarded.annotations = source.context.annotations := rfl
      simp only [same]
      cases source.context.annotations.get? type with
      | none => rfl
      | some checked => exact next _ (.check (promise source.guarded env field.value) checked)

/-- An expression that stands behind no alias group. -/
theorem evalTurn_unguard {id : ExprId} (other : ¬ source.Behind id) (env : Env) :
    (evalTurn source.guarded id env).unguard source =
      evalTurn source.context (source.core id) (unguardEnv source env) := by
  have node := source.expr_of_not_behind other
  have parts (child : ExprId) (member : child ∈ (source.context.code.expr (source.core id)).children) :=
    source.core_of_mem member
  cases found : source.context.code.expr (source.core id) with
  | int | float | bool => simp [evalTurn, node, found, Control.unguard, Value.unguard]
  | str text =>
    -- Every kind of expression keeps its rule; what it names are its parts, which stand at the
    -- first positions.
    simp only [evalTurn, node, found]
    rfl
  | ident name =>
    simp only [evalTurn, node, found, lookup_unguardEnv]
    cases env.lookup name <;> rfl
  | lambda param body =>
    simp only [found, Expr.children, List.mem_singleton, forall_eq] at parts
    simp [evalTurn, node, found, Control.unguard, Value.unguard, parts]
  | apply func arg =>
    simp only [found, Expr.children, List.mem_cons, List.not_mem_nil, or_false, forall_eq_or_imp,
      forall_eq] at parts
    simp [evalTurn, node, found, Control.unguard, Frame.unguard, parts]
  | letIn name value body =>
    simp only [found, Expr.children, List.mem_cons, List.not_mem_nil, or_false, forall_eq_or_imp,
      forall_eq] at parts
    simp [evalTurn, node, found, Control.unguard, Promise.unguard, unguardEnv, parts]
  | cond test whenTrue whenFalse =>
    simp only [found, Expr.children, List.mem_cons, List.not_mem_nil, or_false, forall_eq_or_imp,
      forall_eq] at parts
    simp [evalTurn, node, found, Control.unguard, Frame.unguard, parts]
  | binary op left right =>
    simp only [found, Expr.children, List.mem_cons, List.not_mem_nil, or_false, forall_eq_or_imp,
      forall_eq] at parts
    cases op <;> simp [evalTurn, node, found, Control.unguard, Frame.unguard, parts]
  | unary op operand =>
    simp only [found, Expr.children, List.mem_singleton, forall_eq] at parts
    simp [evalTurn, node, found, Control.unguard, Frame.unguard, parts]
  | list items =>
    simp only [found, Expr.children] at parts
    have held := congrArg (List.map Segment.item) (promises_unguard source env parts)
    simp only [List.map_map, Function.comp_def] at held
    simp [evalTurn, node, found, Control.unguard, Value.unguard, Segment.unguard, Function.comp_def, ← held]
  | record fields =>
    simp only [found, Expr.children, List.mem_map, forall_exists_index, and_imp,
      forall_apply_eq_imp_iff₂] at parts
    have all := promiseFields_unguard source env parts []
    simp only [evalTurn, node, found, turn_unguard, ofResult_unguard]
    have same : promiseFields source.context (unguardEnv source env) fields [] =
        (promiseFields source.guarded env fields []).map (unguardFields source) := all
    rw [same]
    cases promiseFields source.guarded env fields [] <;> rfl
  | field receiver name =>
    simp only [found, Expr.children, List.mem_singleton, forall_eq] at parts
    simp [evalTurn, node, found, Control.unguard, Frame.unguard, parts]
  | builtin op args =>
    simp only [found, Expr.children] at parts
    simp only [evalTurn, node, found]
    split
    · simp [Control.unguard, Frame.unguard, parts]
    · simp [Turn.unguard, Control.unguard, Frame.unguard, parts]
    · -- All but the two primitives that go on with their last argument hold their arguments first.
      have held := promises_unguard source env parts
      simp only [ite_unguard, turn_unguard, Control.unguard, Value.unguard, unguardAll_eq, held, List.length_map]
  | ascribe value type =>
    simp only [found, Expr.children, List.mem_singleton, forall_eq] at parts
    have same : source.guarded.annotations = source.context.annotations := rfl
    simp only [evalTurn, node, found, same]
    cases source.context.annotations.get? type with
    | none => rfl
    | some checked => simp [Control.unguard, Frame.unguard, parts]
  | aliases defs body =>
    simp only [found, Expr.children, List.mem_singleton, forall_eq] at parts
    simp [evalTurn, node, found, Control.unguard, parts]

/-- An expression that stands behind an alias group is evaluated after one step more. -/
theorem evalTurn_behind {id : ExprId} (behind : source.Behind id) (env : Env) :
    evalTurn source.guarded id env = (Control.eval (source.count + id) env).turn := by
  simp only [evalTurn, source.expr_of_behind behind]

theorem not_behind_add (id : ExprId) : ¬ source.Behind (source.count + id) :=
  fun behind => Nat.not_lt.mpr (Nat.le_add_right _ _) behind.1

/-- A variable that is put off, as a promise, and what it is bound to. -/
def LeadsOn (promise bound : Promise) : Prop :=
  ∃ id env name, promise = .expr id env ∧ source.context.code.expr (source.core id) = .ident name ∧
    env.lookup name = some bound

theorem forceTurn_unguard {promise : Promise} (other : ∀ bound, ¬ LeadsOn source promise bound) :
    (forceTurn promise).unguard source = forceTurn (promise.unguard source) := by
  cases promise with
  -- A variable that is bound would lead on, which is excluded; any other expression is put off as
  -- itself.
  | expr id env =>
    have stays : (Promise.expr id env).unguard source = .expr (source.core id) (unguardEnv source env) := by
      simp only [Promise.unguard, ByName.promise]
      split
      · rename_i name node
        cases found : env.lookup name with
        | some bound => exact absurd ⟨id, env, name, rfl, node, found⟩ (other bound)
        | none => rw [lookup_unguardEnv, found, Option.map_none, Option.getD_none]
      · rfl
    rw [stays]
    rfl
  | recursive name id env => simp [forceTurn, Control.unguard, Promise.unguard, unguardEnv]
  | apply func args => simp [forceTurn, Control.unguard, Promise.unguard, Frame.unguard]
  | _ => rfl

end

end LazyConfig.ByName
