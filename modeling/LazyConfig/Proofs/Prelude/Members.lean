import LazyConfig.Proofs.Prelude.Built
import LazyConfig.Proofs.Prelude.Expressions
import LazyConfig.Proofs.Value.Entries

/-!
The record of the list functions in a store: it is evaluated at the first use, each of its fields is a
function at once, and a call of such a function comes to the evaluation of its body.
-/

namespace LazyConfig

/-- Computations are added, and besides that only one changes; no function of the host is called. -/
structure Store.Spares (before : Store) (own : ThunkId) (after : Store) : Prop where
  size : before.cells.size ≤ after.cells.size
  cells : ∀ id < before.cells.size, id ≠ own → after.cell id = before.cell id
  calls : after.calls = before.calls

namespace Store.Spares

variable {before middle after : Store} {own : ThunkId}

/-- Nothing needs to change. -/
theorem refl (store : Store) (own : ThunkId) : store.Spares own store :=
  ⟨Nat.le_refl _, fun _ _ _ => rfl, rfl⟩

/-- What happens in two parts spares what both parts spare. -/
theorem trans (left : before.Spares own middle) (right : middle.Spares own after) :
    before.Spares own after := by
  refine ⟨Nat.le_trans left.size right.size, fun id inside other => ?_, right.calls.trans left.calls⟩
  rw [right.cells id (Nat.lt_of_lt_of_le inside left.size) other, left.cells id inside other]

/-- What changes later on may be one of the computations that were added. -/
theorem trans_added {other : ThunkId} (left : before.Spares own middle) (right : middle.Spares other after)
    (added : before.cells.size ≤ other) : before.Spares own after := by
  refine ⟨Nat.le_trans left.size right.size, fun id inside apart => ?_, right.calls.trans left.calls⟩
  have different : id ≠ other := Nat.ne_of_lt (Nat.lt_of_lt_of_le inside added)
  rw [right.cells id (Nat.lt_of_lt_of_le inside left.size) different, left.cells id inside apart]

/-- Adding computations without calls of functions of the host spares all. -/
theorem of_extends (grown : before.Extends after) (calls : after.calls = before.calls) :
    before.Spares own after :=
  ⟨grown.1, fun id inside _ => grown.2 id inside, calls⟩

/-- Changing one computation spares the others. -/
theorem set (store : Store) (own : ThunkId) (cell : Cell) : store.Spares own (store.set own cell) :=
  ⟨by simp, fun _ _ other => Store.cell_set_of_ne other cell, rfl⟩

end Store.Spares

/-- What spares all but a computation that comes later only adds computations. -/
theorem Store.Spares.extends {before middle after : Store} {own : ThunkId} (grown : before.Extends middle)
    (spares : middle.Spares own after) (late : before.cells.size ≤ own) : before.Extends after := by
  refine ⟨Nat.le_trans grown.1 spares.size, fun id inside => ?_⟩
  have other : id ≠ own := Nat.ne_of_lt (Nat.lt_of_lt_of_le inside late)
  rw [spares.cells id (Nat.lt_of_lt_of_le inside grown.1) other, grown.2 id inside]

/-- One computation is put off at the next place. -/
structure Store.PutsOff (before : Store) (work : Suspension) (after : Store) : Prop where
  grown : before.Extends after
  held : after.cell before.cells.size = .suspended work
  size : after.cells.size = before.cells.size + 1
  calls : after.calls = before.calls

/-- A primitive with an argument is put off at the next place, also after a function was made. -/
theorem suspend_primitive {context : Context} {id : ExprId} {op : Builtin} {args : List ExprId}
    (node : context.code.expr id = .builtin op args) (store : Store) (env : Env) :
    ∃ after, context.suspend store.afterFunction id env = (store.cells.size, after) ∧
      store.PutsOff (.expr id env) after :=
  ⟨_, suspend_builtin node _ env, store.afterFunction_extends.trans (Store.suspend_extends _ _),
    (Store.cell_alloc store.afterFunction _ _).trans (if_pos rfl), store.afterFunction.alloc_size _, rfl⟩

namespace Lists

variable {context : Context} {meter : DepthMeter} {store after : Store} {env : Env} {lists : ThunkId}

/-- A function whose code reads as a tree, with values for variables around it. -/
def Closes (context : Context) (vars : List (String × ThunkId)) : Term → Closure → Prop
  | .fn param body, function => context.Named param function.param ∧ context.Reads body function.body ∧
      ∀ var ∈ vars, context.Binds function.env var.1 var.2
  | _, _ => False

/-- The evaluation of a body that reads as a tree, with values for its variables. -/
structure Scope (context : Context) (tree : Term) (vars : List (String × ThunkId)) (body : ExprId)
    (env : Env) : Prop where
  reads : context.Reads tree body
  binds : ∀ var ∈ vars, context.Binds env var.1 var.2

section

variable {vars : List (String × ThunkId)} {param : String} {body : Term} {function : Closure}

/-- An argument is one more variable. -/
theorem Closes.scope (closes : Closes context vars (.fn param body) function)
    (fresh : ∀ var ∈ vars, var.1 ≠ param) (arg : ThunkId) :
    Scope context body ((param, arg) :: vars) function.body (function.env.bind function.param arg) := by
  obtain ⟨named, reads, binds⟩ := closes
  refine ⟨reads, List.forall_mem_cons.mpr ⟨.self named _ _, fun var member => ?_⟩⟩
  exact (binds var member).bind named (fresh var member) arg

/-- In the scope of a function its own code is the body of a function. -/
theorem Scope.lambda {id : ExprId} (scope : Scope context (.fn param body) vars id env) :
    ∃ name inner, context.code.expr id = .lambda name inner ∧
      ∀ tag, Closes context vars (.fn param body) ⟨tag, name, inner, env⟩ := by
  obtain ⟨name, inner, node, named, reads⟩ := scope.reads
  exact ⟨name, inner, node, fun tag => ⟨named, reads, scope.binds⟩⟩

end

/-- The record of the list functions is evaluated, and its fields are the functions. -/
def Evaluated (context : Context) (store : Store) (lists : ThunkId) : Prop :=
  ∃ fields, store.cell lists = .forced (.record fields) ∧ ∀ entry ∈ members, ∃ id function,
    fields.get? entry.1 = some id ∧ store.cell id = .forced (.closure function) ∧
    Closes context [("lists", lists)] entry.2 function

/-- The record of the list functions is put off where it is in its own scope, or it is evaluated. -/
inductive InScope (context : Context) (store : Store) (lists : ThunkId) : Prop
  | waiting {record : ExprId} {env : Env} (found : store.cell lists = .suspended (.expr record env))
    (reads : ReadsRecord context record) (binds : context.Binds env "lists" lists)
  | evaluated (evaluated : Evaluated context store lists)

/-- An evaluated record of the list functions stays so. -/
theorem Evaluated.later (evaluated : Evaluated context store lists) (order : store.Precedes after) :
    Evaluated context after lists := by
  obtain ⟨fields, found, each⟩ := evaluated
  refine ⟨fields, order.forced found, fun entry member => ?_⟩
  obtain ⟨id, function, listed, forced, closes⟩ := each entry member
  exact ⟨id, function, listed, order.forced forced, closes⟩

/-! The first use. -/

/-- Functions that are put off as the fields of a record are there at once. -/
theorem suspendFields_members {fields : List Field} {entries : List (String × Term)}
    (reads : List.Forall₂ (ReadsMember context) fields entries)
    (functions : ∀ entry ∈ entries, ∃ param body, entry.2 = .fn param body)
    (distinct : (entries.map Prod.fst).Nodup) (binds : context.Binds env "lists" lists)
    (record : Record) (fresh : ∀ entry ∈ entries, record.get? entry.1 = none) (store : Store) :
    ∃ last, (context.suspendFields env fields record store).1 = .ok last ∧
      (context.suspendFields env fields record store).2.calls = store.calls ∧
      (∀ name id, record.get? name = some id → last.get? name = some id) ∧
      ∀ entry ∈ entries, ∃ id function, last.get? entry.1 = some id ∧
        (context.suspendFields env fields record store).2.cell id = .forced (.closure function) ∧
        Closes context [("lists", lists)] entry.2 function := by
  -- By induction on the fields: the first function takes the next place, and the others come after
  -- it.
  induction reads generalizing record store with
  | nil => exact ⟨record, rfl, rfl, fun _ _ found => found, nofun⟩
  | @cons field entry fields entries first others ih =>
    obtain ⟨own, later⟩ := List.nodup_cons.mp distinct
    obtain ⟨param, body, same⟩ := functions entry List.mem_cons_self
    have value := first.value
    rw [same] at value
    obtain ⟨name, inner, node, named, reads⟩ := value
    -- The function takes the next free place.
    let function : Closure := ⟨store.closures, name, inner, env⟩
    let next := ((store.closure name inner env).2.ready (.closure function)).2
    have get (other : String) : (record.insert entry.1 store.cells.size).get? other =
        if other = entry.1 then some store.cells.size else record.get? other :=
      lookup_place entry.1 other store.cells.size
    have apart : ∀ other ∈ entries, other.1 ≠ entry.1 :=
      fun other member same => own (same ▸ List.mem_map_of_mem member)
    have step : context.suspendFields env (field :: fields) record store =
        context.suspendFields env fields (record.insert entry.1 store.cells.size) next := by
      have absent := fresh entry List.mem_cons_self
      simp [Context.suspendFields, Context.suspend, node, first.plain, first.name.lookup, Record.contains,
        absent, next, function, Store.closure, Store.ready, Store.alloc]
    obtain ⟨last, result, calls, kept, each⟩ := ih
      (fun other member => functions other (List.mem_cons_of_mem _ member)) later
      (record.insert entry.1 store.cells.size)
      (fun other member => by
        rw [get, if_neg (apart other member)]
        exact fresh other (List.mem_cons_of_mem _ member)) next
    rw [step]
    -- Fields that were there keep their computations, since the new field has a name of its own.
    refine ⟨last, result, calls, fun other id found => kept other id ?_, List.forall_mem_cons.mpr ⟨?_, each⟩⟩
    · rw [get, if_neg, found]
      rintro rfl
      cases found.symm.trans (fresh entry List.mem_cons_self)
    · refine ⟨store.cells.size, function, kept _ _ (by rw [get, if_pos rfl]), ?_, ?_⟩
      · have grown := context.suspendFields_extends env fields (record.insert entry.1 store.cells.size) next
        have inside : store.cells.size < next.cells.size := by
          simp [next, Store.ready, Store.closure]
        rw [grown.2 _ inside]
        exact (Store.cell_alloc (store.closure name inner env).2 _ _).trans (if_pos rfl)
      · rw [same]
        exact ⟨named, reads, List.forall_mem_singleton.mpr binds⟩

/-- The list functions are functions, each with a name of its own. -/
theorem members_functions : (members.map Prod.fst).Nodup ∧
    ∀ entry ∈ members, ∃ param body, entry.2 = .fn param body := by
  refine ⟨by decide, ?_⟩
  simp only [members, List.forall_mem_cons]
  exact ⟨⟨_, _, rfl⟩, ⟨_, _, rfl⟩, ⟨_, _, rfl⟩, ⟨_, _, rfl⟩, nofun⟩

/-- The first use of the list functions evaluates their record, and nothing else. -/
theorem InScope.forces (scope : InScope context store lists) (inside : meter.current < meter.limit) :
    ∃ fields after, ForcesTo context meter store lists (.record fields) after ∧
      Evaluated context after lists ∧ store.Spares lists after := by
  -- Either the record is there already, or it is evaluated now and each of its functions is put off
  -- at once.
  cases scope with
  | evaluated evaluated =>
    obtain ⟨fields, found, each⟩ := evaluated
    exact ⟨fields, store, .of_forced found, ⟨fields, found, each⟩, .refl _ _⟩
  | @waiting record env found reads binds =>
    obtain ⟨listed, node, entries⟩ := reads
    obtain ⟨distinct, functions⟩ := members_functions
    let begun := store.set lists .inProgress
    obtain ⟨last, result, calls, -, each⟩ := suspendFields_members entries functions distinct binds .empty
      (fun _ _ => rfl) begun
    have grown := context.suspendFields_extends env listed .empty begun
    generalize putOff : context.suspendFields env listed .empty begun = put at result calls each grown
    have place := Store.lt_size_of_cell found nofun
    have brings : Brings context meter store (.force lists) (.ok (.record last))
        (put.2.set lists (.forced (.record last))) := by
      refine .of_work found (Brings.enter inside (.step ?_ (.refl _)))
      simp [State.step, Context.evalStep, node, begun, putOff, result, Control.passing, Except.map,
        Control.ofResult]
    have within : lists < put.2.cells.size := Nat.lt_of_lt_of_le (by simpa [begun] using place) grown.1
    refine ⟨last, _, brings, ⟨last, Store.cell_set_self within _, fun entry member => ?_⟩, ?_⟩
    · obtain ⟨id, function, got, forced, closes⟩ := each entry member
      -- The record is under way while its fields are put off.
      have other : id ≠ lists := by
        rintro rfl
        have busy : put.2.cell id = .inProgress :=
          (grown.2 id (by simpa [begun] using place)).trans (Store.cell_set_self place _)
        cases forced.symm.trans busy
      exact ⟨id, function, got, (Store.cell_set_of_ne other _).trans forced, closes⟩
    · exact ((Store.Spares.set store lists _).trans (.of_extends grown calls)).trans (.set _ _ _)

/-! Uses and calls. -/

/-- The evaluated record of the list functions holds a function under a name. -/
def Holds (store : Store) (lists : ThunkId) (name : String) (function : Closure) : Prop :=
  ∃ fields id, store.cell lists = .forced (.record fields) ∧ fields.get? name = some id ∧
    store.cell id = .forced (.closure function)

section

variable {name : String} {term : Term} {function : Closure} {id : ExprId}

/-- What the record holds it holds from then on. -/
theorem Holds.later (holds : Holds store lists name function) (order : store.Precedes after) :
    Holds after lists name function := by
  obtain ⟨fields, id, found, got, forced⟩ := holds
  exact ⟨fields, id, order.forced found, got, order.forced forced⟩

/-- The evaluated record holds each of the list functions. -/
theorem Evaluated.holds (evaluated : Evaluated context store lists) (member : (name, term) ∈ members) :
    ∃ function, Holds store lists name function ∧ Closes context [("lists", lists)] term function := by
  obtain ⟨fields, found, each⟩ := evaluated
  obtain ⟨id, function, got, forced, closes⟩ := each _ member
  exact ⟨function, ⟨fields, id, found, got, forced⟩, closes⟩

/-- A use of one of the list functions asks for their record and gives the function that it holds. -/
theorem Holds.brings_member (holds : Holds after lists name function) {fields : Record}
    (forces : ForcesTo context (meter.below 1) store lists (.record fields) after)
    (reads : context.Reads (memberTerm name) id) (binds : context.Binds env "lists" lists)
    (inside : meter.current < meter.limit) :
    Brings context meter store (.eval id env) (.ok (.closure function)) after := by
  obtain ⟨inner, called, node, named, var⟩ := reads
  obtain ⟨all, field, found, got, forced⟩ := holds
  obtain rfl : fields = all := Value.record.inj (Cell.forced.inj (forces.forced.1.symm.trans found))
  have asked : State.step context ⟨store, meter, .eval id env, []⟩ =
      ⟨store, meter, .enter inner env, [.select called]⟩ := by
    simp [State.step, Context.evalStep, node]
  have given : Brings context (meter.below 1) store (.force lists) (.ok (.record fields)) after := forces
  -- The field is looked up in the evaluated record, and the function is there.
  refine .step asked ((var.goesTo_var binds inside given _).trans ?_)
  have selected : State.step context ⟨after, meter, .give (.record fields), [.select called]⟩ =
      ⟨after, meter, .force field, [.note called]⟩ := by
    simp [State.step, Context.giveStep, named.lookup, got]
  exact .step selected (.step (State.step_force_forced forced) (.step rfl (.refl _)))

/-- When the record is evaluated, a use of one of the list functions changes nothing. -/
theorem Holds.brings_own (holds : Holds store lists name function)
    (reads : context.Reads (memberTerm name) id) (binds : context.Binds env "lists" lists)
    (inside : meter.current < meter.limit) :
    Brings context meter store (.eval id env) (.ok (.closure function)) store := by
  have own := holds
  obtain ⟨fields, field, found, -⟩ := own
  exact holds.brings_member (.of_forced found) reads binds inside

/-- The first and every later use of one of the list functions gives the function. -/
theorem InScope.brings_member (scope : InScope context store lists) (member : (name, term) ∈ members)
    (reads : context.Reads (memberTerm name) id) (binds : context.Binds env "lists" lists)
    (room : meter.current + 2 ≤ meter.limit) :
    ∃ function after, Brings context meter store (.eval id env) (.ok (.closure function)) after ∧
      Holds after lists name function ∧ Closes context [("lists", lists)] term function ∧
      Evaluated context after lists ∧ store.Spares lists after := by
  obtain ⟨fields, after, forces, evaluated, spares⟩ :=
    @InScope.forces context (meter.below 1) store lists scope (by simp only [DepthMeter.below]; omega)
  obtain ⟨function, holds, closes⟩ := evaluated.holds member
  exact ⟨function, after, holds.brings_member forces reads binds (by omega), holds, closes, evaluated, spares⟩

end

section

variable {vars : List (String × ThunkId)} {param other third : String} {body : Term} {function : Closure}
  {func arg last id : ExprId} {middle late : Store} {held more : ThunkId}

/-- With one of its arguments a function gives the function of the others. -/
theorem Closes.brings_partial (closes : Closes context vars (.fn param (.fn other body)) function)
    (fresh : ∀ var ∈ vars, var.1 ≠ param) (node : context.code.expr id = .apply func arg)
    (inside : meter.current < meter.limit)
    (brings : Brings context (meter.below 1) store (.eval func env) (.ok (.closure function)) middle)
    (put : context.suspend middle arg env = (held, after)) :
    ∃ next, Brings context meter store (.eval id env) (.ok (.closure next)) after.afterFunction ∧
      Closes context ((param, held) :: vars) (.fn other body) next := by
  obtain ⟨name, inner, lambda, more⟩ := (closes.scope fresh held).lambda
  exact ⟨_, LazyConfig.brings_partial node inside brings put lambda, more _⟩

/-- With its last argument a function comes to the evaluation of its body, on the level of the call. -/
theorem Closes.goesTo_body (closes : Closes context vars (.fn param body) function)
    (fresh : ∀ var ∈ vars, var.1 ≠ param) (node : context.code.expr id = .apply func arg)
    (inside : meter.current < meter.limit)
    (brings : Brings context (meter.below 1) store (.eval func env) (.ok (.closure function)) middle)
    (put : context.suspend middle arg env = (held, after)) :
    ∃ start inner, Scope context body ((param, held) :: vars) start inner ∧
      ∀ stack, State.GoesTo context ⟨store, meter, .eval id env, stack⟩
        ⟨after, meter, .eval start inner, stack⟩ :=
  ⟨_, _, closes.scope fresh held, goesTo_operand node inside brings put⟩

/-- A call of a function of two arguments comes to the evaluation of its body. -/
theorem Closes.goesTo_body₂ (closes : Closes context vars (.fn param (.fn other body)) function)
    (fresh : ∀ var ∈ vars, var.1 ≠ param) (fresh' : ∀ var ∈ (param, held) :: vars, var.1 ≠ other)
    {partly : ExprId} (outer : context.code.expr id = .apply partly last)
    (inner : context.code.expr partly = .apply func arg) (inside : meter.current + 1 < meter.limit)
    (brings : Brings context (meter.below 2) store (.eval func env) (.ok (.closure function)) middle)
    (put : context.suspend middle arg env = (held, after))
    (put' : context.suspend after.afterFunction last env = (more, late)) :
    ∃ start inside, Scope context body ((other, more) :: (param, held) :: vars) start inside ∧
      ∀ stack, State.GoesTo context ⟨store, meter, .eval id env, stack⟩
        ⟨late, meter, .eval start inside, stack⟩ := by
  obtain ⟨next, partial', closes'⟩ :=
    @Closes.brings_partial _ (meter.below 1) _ _ _ _ _ _ _ _ _ _ _ _ _ closes fresh inner inside brings put
  exact closes'.goesTo_body fresh' outer (Nat.lt_of_succ_lt inside) partial' put'

end

/-- A function that reads as one of three parameters is one. -/
theorem Closes.opens {vars : List (String × ThunkId)} {param other last : String} {body : Term}
    {function : Closure} (closes : Closes context vars (.fn param (.fn other (.fn last body))) function)
    (fresh : ∀ var ∈ vars, var.1 ≠ param ∧ var.1 ≠ other ∧ var.1 ≠ last) (apart : param ≠ other)
    (apart' : param ≠ last ∧ other ≠ last) :
    ∃ name name' start, function.Opens context name name' start ∧ context.Named other name ∧
      context.Named last name' ∧ ∀ one two three,
        Scope context body ((last, three) :: (other, two) :: (param, one) :: vars) start
          (function.bind₃ name name' one two three) := by
  obtain ⟨named, ⟨name, inner, outer, called, name', start, middle, called', reads⟩, binds⟩ := closes
  refine ⟨name, name', start, ⟨inner, outer, middle⟩, called, called', fun one two three => ?_⟩
  refine ⟨reads, List.forall_mem_cons.mpr ⟨.self called' _ _, List.forall_mem_cons.mpr ⟨?_, ?_⟩⟩⟩
  · exact (Context.Binds.self called _ _).bind called' apart'.2 _
  · refine List.forall_mem_cons.mpr ⟨?_, fun var member => ?_⟩
    · exact ((Context.Binds.self named _ _).bind called apart _).bind called' apart'.1 _
    · obtain ⟨first, second, third⟩ := fresh var member
      exact (((binds var member).bind named first _).bind called second _).bind called' third _

/-! Uses with operands. -/

/-- An expression that applies one of the list functions to two operands. -/
def UsesTwo (context : Context) (name : String) (first second id : ExprId) : Prop :=
  ∃ partly use, context.code.expr id = .apply partly second ∧
    context.code.expr partly = .apply use first ∧ context.Reads (memberTerm name) use

/-- The operands are put off, and besides that only the record of the list functions is evaluated. -/
def PlacesTwo (context : Context) (lists : ThunkId) (env : Env) (first second : ExprId) (store : Store)
    (one two : ThunkId) (ready : Store) : Prop :=
  ∃ begun middle, store.Spares lists begun ∧ context.suspend begun first env = (one, middle) ∧
    context.suspend middle.afterFunction second env = (two, ready)

/-- A use with two operands comes to the evaluation of the function's body. -/
theorem InScope.goesTo_use (scope : InScope context store lists) (binds : context.Binds env "lists" lists)
    {name param other : String} {body : Term} (member : (name, .fn param (.fn other body)) ∈ members)
    (own : param ≠ "lists") (own' : other ≠ "lists") (apart : param ≠ other) {first second id : ExprId}
    (uses : UsesTwo context name first second id) (room : meter.current + 4 ≤ meter.limit) :
    ∃ one two ready start inner, PlacesTwo context lists env first second store one two ready ∧
      Evaluated context ready lists ∧
      Scope context body [(other, two), (param, one), ("lists", lists)] start inner ∧
      ∀ stack, State.GoesTo context ⟨store, meter, .eval id env, stack⟩
        ⟨ready, meter, .eval start inner, stack⟩ := by
  -- The record is asked for first; then each operand is put off when the function before it has
  -- been made.
  obtain ⟨partly, use, outer, partial', reads⟩ := uses
  obtain ⟨function, begun, brings, -, closes, evaluated, spares⟩ :=
    @InScope.brings_member _ (meter.below 2) _ _ _ _ _ _ scope member reads binds room
  have grown := context.suspend_extends begun first env
  generalize put : context.suspend begun first env = placed at grown
  obtain ⟨one, middle⟩ := placed
  have grown' := context.suspend_extends middle.afterFunction second env
  generalize put' : context.suspend middle.afterFunction second env = placed at grown'
  obtain ⟨two, ready⟩ := placed
  obtain ⟨start, inner, whole, goes⟩ := closes.goesTo_body₂ (by simpa using own.symm)
    (by simpa using ⟨apart, own'.symm⟩) outer partial' (by omega) brings put put'
  have order := (grown.trans (middle.afterFunction_extends.trans grown')).precedes
  exact ⟨one, two, ready, start, inner, ⟨begun, middle, spares, put, put'⟩, evaluated.later order, whole, goes⟩

/-- An expression that applies one of the list functions to three operands. -/
def UsesThree (context : Context) (name : String) (first second third id : ExprId) : Prop :=
  ∃ partly, context.code.expr id = .apply partly third ∧ UsesTwo context name first second partly

/-- The operands are put off, and besides that only the record of the list functions is evaluated. -/
def PlacesThree (context : Context) (lists : ThunkId) (env : Env) (first second third : ExprId)
    (store : Store) (one two three : ThunkId) (ready : Store) : Prop :=
  ∃ middle, PlacesTwo context lists env first second store one two middle ∧
    context.suspend middle.afterFunction third env = (three, ready)

section

variable {name param other last : String} {body : Term} {first second third id : ExprId}
  {one two three : ThunkId} {early middle late : Store}

/-- A use with three operands evaluates the record and puts off the operands. -/
theorem InScope.places (scope : InScope context store lists) (binds : context.Binds env "lists" lists)
    {tree : Term} (member : (name, tree) ∈ members) (uses : UsesThree context name first second third id)
    (room : meter.current + 5 ≤ meter.limit) :
    ∃ function one two three ready,
      PlacesThree context lists env first second third store one two three ready ∧
      Evaluated context ready lists ∧ Holds ready lists name function ∧
      Closes context [("lists", lists)] tree function ∧
      ∀ {name name' start}, function.Opens context name name' start → ∀ stack,
        State.GoesTo context ⟨store, meter, .eval id env, stack⟩
          ⟨ready, meter, .eval start (function.bind₃ name name' one two three), stack⟩ := by
  -- The operands are put off one after the other, and the parameters are bound to them in the same
  -- order.
  obtain ⟨twice, outer, once, use, halfway, inner, reads⟩ := uses
  obtain ⟨function, begun, brings, holds, closes, evaluated, spares⟩ :=
    @InScope.brings_member _ (meter.below 3) _ _ _ _ _ _ scope member reads binds room
  have grown := context.suspend_extends begun first env
  generalize put : context.suspend begun first env = placed at grown
  obtain ⟨one, early⟩ := placed
  have grown' := context.suspend_extends early.afterFunction second env
  generalize put' : context.suspend early.afterFunction second env = placed at grown'
  obtain ⟨two, middle⟩ := placed
  have grown'' := context.suspend_extends middle.afterFunction third env
  generalize put'' : context.suspend middle.afterFunction third env = placed at grown''
  obtain ⟨three, ready⟩ := placed
  have order := ((grown.trans (early.afterFunction_extends.trans grown')).trans
    (middle.afterFunction_extends.trans grown'')).precedes
  exact ⟨function, one, two, three, ready, ⟨middle, ⟨begun, early, spares, put, put'⟩, put''⟩,
    evaluated.later order, holds.later order, closes,
    fun opens => opens.goesTo outer halfway inner (by omega) brings put put' put''⟩

/-- A use with three operands comes to the evaluation of the function's body. -/
theorem InScope.goesTo_use₃ (scope : InScope context store lists) (binds : context.Binds env "lists" lists)
    (member : (name, .fn param (.fn other (.fn last body))) ∈ members)
    (own : "lists" ≠ param ∧ "lists" ≠ other ∧ "lists" ≠ last) (apart : param ≠ other)
    (apart' : param ≠ last ∧ other ≠ last) (uses : UsesThree context name first second third id)
    (room : meter.current + 5 ≤ meter.limit) :
    ∃ one two three ready start inner,
      PlacesThree context lists env first second third store one two three ready ∧
      Evaluated context ready lists ∧
      Scope context body [(last, three), (other, two), (param, one), ("lists", lists)] start inner ∧
      ∀ stack, State.GoesTo context ⟨store, meter, .eval id env, stack⟩
        ⟨ready, meter, .eval start inner, stack⟩ := by
  obtain ⟨function, one, two, three, ready, places, evaluated, -, closes, goes⟩ :=
    scope.places binds member uses room
  obtain ⟨name, name', start, opens, -, -, whole⟩ := closes.opens (by simpa using own) apart apart'
  exact ⟨one, two, three, ready, start, _, places, evaluated, whole one two three, goes opens⟩

/-- Where the record is evaluated, a use with three operands evaluates nothing before the function's body. -/
theorem Evaluated.goesTo_use₃ (evaluated : Evaluated context store lists)
    (binds : context.Binds env "lists" lists)
    (member : (name, .fn param (.fn other (.fn last body))) ∈ members)
    (own : "lists" ≠ param ∧ "lists" ≠ other ∧ "lists" ≠ last) (apart : param ≠ other)
    (apart' : param ≠ last ∧ other ≠ last) (uses : UsesThree context name first second third id)
    (room : meter.current + 3 < meter.limit) (put : context.suspend store first env = (one, early))
    (put' : context.suspend early.afterFunction second env = (two, middle))
    (put'' : context.suspend middle.afterFunction third env = (three, late)) :
    ∃ start inner,
      Scope context body [(last, three), (other, two), (param, one), ("lists", lists)] start inner ∧
      ∀ stack, State.GoesTo context ⟨store, meter, .eval id env, stack⟩
        ⟨late, meter, .eval start inner, stack⟩ := by
  obtain ⟨twice, outer, once, use, halfway, inner, reads⟩ := uses
  obtain ⟨function, holds, closes⟩ := evaluated.holds member
  have brings := @Holds.brings_own _ (meter.below 3) _ _ _ _ _ _ holds reads binds room
  obtain ⟨name, name', start, opens, -, -, whole⟩ := closes.opens (by simpa using own) apart apart'
  exact ⟨start, _, whole one two three,
    opens.goesTo outer halfway inner (by omega) brings put put' put''⟩

end

end Lists

end LazyConfig
