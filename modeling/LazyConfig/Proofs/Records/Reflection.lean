import LazyConfig.Proofs.Machine.Progress
import LazyConfig.Proofs.Records.Mapping
import LazyConfig.Proofs.Records.Orders

/-!
What is found out about a record without asking for any of its fields, and what becomes of a function that is put off
for every field. It makes no difference in which order a literal writes its fields.
-/

namespace LazyConfig

/-- Computations are added, and nothing else happens. -/
structure Store.Adds (before after : Store) : Prop where
  grown : before.Extends after
  calls : after.calls = before.calls

variable {context : Context} {meter : DepthMeter} {store after : Store} {id : ThunkId} {fields : Record}

/-! Primitives that read a record. -/

/-- A function is put off for every field of a record, under the same names. -/
structure Record.MappedTo (fields : Record) (func : ThunkId) (after : Store) (mapped : Record) (moment : Moment) :
    Prop where
  names : mapped.names = fields.names
  adds : after.Adds moment.store
  /-- Each field is new, and it is the call of the function on its name and the field of that name. -/
  calls : ∀ name field, mapped.get? name = some field → after.cells.size ≤ field ∧ ∃ original key,
    fields.get? name = some original ∧ moment.store.cell key = .forced (.str name) ∧
      moment.store.cell field = .suspended (.apply func [key, original]) ∧
      (moment.Reachable → moment.CallsOnce func [key, original] field)

/-- What is found out about a record that is evaluated, whatever its fields are. -/
structure Record.Reflected (context : Context) (meter : DepthMeter) (store : Store) (id : ThunkId) (fields : Record)
    (after : Store) : Prop where
  /-- Each name is there once, in the order of the bytes. -/
  ordered : (fields.names.map bytes).Pairwise (· < ·)
  /-- The names are listed. -/
  lists : ∀ stack, ∃ keys last,
    State.GoesTo context ⟨store, meter, .run .fieldsOf [id], stack⟩ ⟨last, meter, .give (.list (.ofThunks keys)), stack⟩ ∧
      after.Adds last ∧ List.Forall₂ (fun key name => last.cell key = .forced (.str name)) keys fields.names
  /-- Whether there is a field is whether its name is listed. -/
  has : ∀ name text before, ForcesTo context meter before name (.str text) store → ∀ stack,
    State.GoesTo context ⟨before, meter, .run .hasField [name, id], stack⟩
      ⟨after, meter, .give (.bool (decide (text ∈ fields.names))), stack⟩
  /-- A field whose name is listed is found, and any other one is missing. -/
  selects : ∀ name stack, let text := context.names.lookup name
    let selected := State.step context ⟨after, meter, .give (.record fields), .select name :: stack⟩
    (text ∈ fields.names → ∃ field, fields.get? text = some field ∧
      selected = ⟨after, meter, .force field, .note name :: stack⟩) ∧
    (text ∉ fields.names → selected = ⟨after, meter, .fail (.missingField text), stack⟩)
  /-- A function is put off for every field. -/
  maps : ∀ func stack, ∃ mapped last,
    State.GoesTo context ⟨store, meter, .run .map [func, id], stack⟩ ⟨last, meter, .give (.record mapped), stack⟩ ∧
      fields.MappedTo func after mapped ⟨context, ⟨last, meter, .give (.record mapped), stack⟩⟩

/-- A record that is asked for is read without asking for anything else. -/
theorem Record.reflected (forces : ForcesTo context meter store id (.record fields) after) :
    fields.Reflected context meter store id after where
  ordered := fields.names_ordered
  lists stack := by
    refine ⟨(after.readyAll (fields.names.map .str)).1, (after.fieldsOf fields).2,
      .step rfl ((forces.above _).trans (.step rfl (.refl _))), ⟨after.fieldsOf_extends fields, by simp⟩, ?_⟩
    have listed := Store.readyAll_cells (fields.names.map .str) after
    rw [List.forall₂_map_right_iff] at listed
    exact listed
  has name text before asked stack := by
    have known : fields.contains text = decide (text ∈ fields.names) := by
      rw [Bool.eq_iff_iff, contains_iff, decide_eq_true_iff]
    rw [← known]
    exact .step rfl ((asked.above _).trans (.step rfl ((forces.above _).trans (.step rfl (.refl _)))))
  selects name stack := by
    refine ⟨fun member => ?_, fun absent => ?_⟩
    · obtain ⟨field, found⟩ := get?_isSome_iff.mpr member
      exact ⟨field, found, by simp only [State.step, Context.giveStep, found]⟩
    · have none : fields.get? (context.names.lookup name) = none :=
        Option.eq_none_iff_forall_ne_some.mpr fun field found => absent (get?_isSome_iff.mp ⟨field, found⟩)
      simp only [State.step, Context.giveStep, none]
  -- Each field of the new record is an application that waits, and that is carried out once at
  -- most.
  maps func stack := by
    obtain ⟨names, mapped⟩ := Store.mapFields_fields func fields after
    refine ⟨_, _, .step rfl ((forces.above _).trans (.step rfl (.refl _))), names,
      ⟨after.mapFields_extends func fields, Store.mapFields_calls ..⟩, fun name field found => ?_⟩
    obtain ⟨new, original, key, same, named, waits⟩ := mapped name field found
    exact ⟨new, original, key, same, named, waits, fun reached => reached.callsOnce waits⟩

/-! Literals. -/

/-- Two literals come to one record, and nothing is asked for. What they are put off as may be in other places. -/
structure Context.SameRecord (context : Context) (env : Env) (store : Store) (id other : ExprId) (record image : Record)
    (after later : Store) : Prop where
  first : ∀ meter stack, State.step context ⟨store, meter, .eval id env, stack⟩ =
    ⟨after, meter, .give (.record record), stack⟩
  second : ∀ meter stack, State.step context ⟨store, meter, .eval other env, stack⟩ =
    ⟨later, meter, .give (.record image), stack⟩
  adds : store.Adds after ∧ store.Adds later
  same : ∃ pairs : Pairing, (∀ id < store.cells.size, pairs id id) ∧ Twins pairs after later ∧ RecordTwin pairs record image

namespace Context

variable {env : Env} {written : List Field} {expr : ExprId}

/-- A literal with names that differ comes to the record of what its fields are put off as. -/
theorem literal_step (node : context.code.expr expr = .record written) (reads : ∀ field ∈ written, context.Annotates field)
    (distinct : (written.map context.nameOf).Nodup) (meter : DepthMeter) (stack : List Frame) :
    State.step context ⟨store, meter, .eval expr env, stack⟩ =
      ⟨(context.suspendEntries env written store).2, meter,
        .give (.record (.ofEntries (context.suspendEntries env written store).1)), stack⟩ := by
  simp only [State.step, evalStep, node, suspendFields_distinct reads distinct]
  rfl

/-- A literal in which a name comes again fails for the first such name. -/
theorem literal_again (node : context.code.expr expr = .record written) (reads : ∀ field ∈ written, context.Annotates field)
    (again : ¬ (written.map context.nameOf).Nodup) :
    ∃ before name rest later, written.map context.nameOf = before ++ name :: rest ∧ before.Nodup ∧ name ∈ before ∧
      ∀ meter stack, State.step context ⟨store, meter, .eval expr env, stack⟩ =
        ⟨later, meter, .fail (.duplicateField name), stack⟩ := by
  obtain ⟨before, name, rest, split, distinct, member⟩ := exists_first_again again
  obtain ⟨earlier, later, rfl, rfl, named⟩ := List.map_eq_append_iff.mp split
  obtain ⟨field, others, rfl, rfl, rfl⟩ := List.map_eq_cons_iff.mp named
  let fails := context.suspendFields env (earlier ++ field :: others) .empty store
  refine ⟨_, _, _, fails.2, split, distinct, member, fun meter stack => ?_⟩
  simp only [State.step, evalStep, node, suspendFields_again reads distinct member]
  rfl

/-- The order in which a literal writes its fields makes no difference. -/
theorem literal_perm {others : List Field} {other : ExprId} (node : context.code.expr expr = .record written)
    (again : context.code.expr other = .record others) (perm : written.Perm others)
    (reads : ∀ field ∈ written, context.Annotates field) (distinct : (written.map context.nameOf).Nodup)
    (closed : store.Closed) (bound : env.Within store.cells.size) :
    ∃ record image after later, context.SameRecord env store expr other record image after later ∧
      ∀ name, name ∈ record.names ↔ name ∈ written.map context.nameOf := by
  have reads_others : ∀ field ∈ others, context.Annotates field := fun field member => reads field (perm.mem_iff.mpr member)
  have distinct_others : (others.map context.nameOf).Nodup := (perm.map _).nodup_iff.mp distinct
  obtain ⟨pairs, same, twins, images, agree, permed⟩ := context.suspendEntries_perm perm closed bound
  have adds (written : List Field) : store.Adds (context.suspendEntries env written store).2 :=
    ⟨context.suspendEntries_extends env written store, context.suspendEntries_calls env written store⟩
  refine ⟨_, _, _, _, ⟨literal_step node reads distinct, literal_step again reads_others distinct_others,
    ⟨adds written, adds others⟩, pairs, same, twins, ?_⟩, fun name => ?_⟩
  · -- The entries of both are put into the same places.
    have names : (images.map Prod.fst).Nodup := by
      rw [← agree.keys, suspendEntries_names]
      exact distinct
    have placed : EntriesAgree pairs (placeAll [] _) (placeAll [] images) := .placeAll .nil agree
    rw [placeAll_perm permed names] at placed
    rw [RecordTwin, Record.entries_ofEntries, Record.entries_ofEntries]
    exact placed
  · rw [Record.mem_names_ofEntries, suspendEntries_names]

end Context

/-- The code of `%map% (fun b a => a) {a = 1, b = 2}`, of `{b = 2, a = 1}` and of `{a = 1, a = 2}`. -/
def twoFields : Context where
  names := ⟨#["", "a", "b"]⟩
  code := {
    exprs := #[.int 1, .int 2, .ident 1, .lambda 1 2, .lambda 2 3, .record [⟨1, none, 0⟩, ⟨2, none, 1⟩],
      .builtin .map [4, 5], .record [⟨2, none, 1⟩, ⟨1, none, 0⟩], .record [⟨1, none, 0⟩, ⟨1, none, 1⟩]] }
  annotations := {}

/-- The state in which the primitive runs on a function and a record that are put off. -/
def twoFieldsMapping : State :=
  (Evaluator.start ⟨twoFields, {}⟩ (.evaluate 6 {}) {}).run twoFields 2

end LazyConfig
