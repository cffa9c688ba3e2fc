import LazyConfig.Proofs.ByName.Heap

/-!
The operations that put off work, read records and check values do by name what they do in a store.
-/

namespace LazyConfig.ByName.Heap

variable {context : Context} {busy : Busy} {meaning : Meaning} {store : Store}

/-! Putting off expressions. -/

/-- An expression that is put off stands for the promise of that expression. -/
theorem suspendExpr (heap : Heap context busy meaning store) {env : LazyConfig.Env} {named : Env}
    (bound : EntriesStand meaning env.bindings named) (id : ExprId) :
    Leaves context busy meaning (context.suspend store id env).2 fun after =>
      Stands after (context.suspend store id env).1 (promise context named id) := by
  -- Literals and functions are there at once, and their promises give them in two steps.
  cases node : context.code.expr id with
  -- A bound name is not put off anew: its computation is the one that the environment holds.
  | ident name =>
    have found := bound.lookup name
    simp only [Context.suspend, promise, node, LazyConfig.Env.lookup]
    generalize env.bindings.lookup name = first at found ⊢
    generalize named.lookup name = second at found ⊢
    cases found with
    | some stands => exact .same heap stands
    | none => exact heap.suspend (.expr bound)
  | int value =>
    simp only [Context.suspend, promise, node]
    exact heap.ready (gives_expr (by simp [evalTurn, node])) (.int value)
  | float value =>
    simp only [Context.suspend, promise, node]
    exact heap.ready (gives_expr (by simp [evalTurn, node])) (.float value)
  | bool value =>
    simp only [Context.suspend, promise, node]
    exact heap.ready (gives_expr (by simp [evalTurn, node])) (.bool value)
  | str text =>
    simp only [Context.suspend, promise, node]
    exact heap.ready (gives_expr (by simp [evalTurn, node])) (.str _)
  | lambda param body =>
    simp only [Context.suspend, promise, node]
    exact (heap.closure param body env).ready (gives_expr (by simp [evalTurn, node]))
      (.closure bound)
  | _ =>
    simp only [Context.suspend, promise, node]
    exact heap.suspend (.expr bound)

/-- Expressions that are put off stand for the promises of those expressions. -/
theorem suspendAll (heap : Heap context busy meaning store) {env : LazyConfig.Env} {named : Env}
    (bound : EntriesStand meaning env.bindings named) (ids : List ExprId) :
    Leaves context busy meaning (context.suspendAll env ids store).2 fun after =>
      AllStand after (context.suspendAll env ids store).1 (ids.map (promise context named)) := by
  induction ids generalizing meaning store with
  | nil => exact .same heap .nil
  | cons id rest ih =>
    refine (heap.suspendExpr bound id).bind fun middle grown left first => ?_
    refine (ih left (bound.grow grown)).imp fun after later others => ?_
    exact .cons (later _ _ first) others

/-- A recursive binding stands for the promise in which the name stands for that promise. -/
theorem bindRecursive (heap : Heap context busy meaning store) {env : LazyConfig.Env} {named : Env}
    (bound : EntriesStand meaning env.bindings named) (name : Name) (value : ExprId) :
    Leaves context busy meaning (Context.bindRecursive store env name value).2 fun after =>
      EntriesStand after (Context.bindRecursive store env name value).1.bindings
        ((name, .recursive name value named) :: named) := by
  rw [Context.bindRecursive_eq]
  have grown : Grows meaning (meaning.push (.recursive name value named)) := .push _ _
  have inside : EntriesStand (meaning.push (.recursive name value named))
      (env.bind name store.cells.size).bindings ((name, .recursive name value named) :: named) := by
    refine .cons ⟨rfl, ?_⟩ (EntriesStand.grow grown bound)
    rw [← heap.size]
    exact .pushed meaning _
  -- The environment of the new computation is one of the meaning that has it.
  exact ⟨_, grown, heap.added (SuspensionMirrors.recursive inside), inside⟩

/-- The fields of a record literal stand for the promised fields, and so does a failure. -/
theorem suspendFields (heap : Heap context busy meaning store) {env : LazyConfig.Env} {named : Env}
    (bound : EntriesStand meaning env.bindings named) (fields : List Field) {record : Record}
    {entries : Fields} (stand : EntriesStand meaning record.entries entries) :
    Results context busy meaning (fun after record entries => EntriesStand after record.entries entries)
      (context.suspendFields env fields record store) (promiseFields context named fields entries) := by
  induction fields generalizing meaning store record entries with
  | nil => exact .same heap (.ok stand)
  | cons field rest ih =>
    simp only [Context.suspendFields, promiseFields]
    generalize context.names.lookup field.name = name
    -- Once the value is put off, perhaps with a check, its name must be new.
    have placed : ∀ {middle : Meaning} {next : Store} {id : ThunkId} {promise : Promise},
        Grows meaning middle → Heap context busy middle next → Stands middle id promise →
        Results context busy middle
          (fun after record entries => EntriesStand after record.entries entries)
          (if record.contains name then (.error (.duplicateField name), next)
            else context.suspendFields env rest (record.insert name id) next)
          (if (entries.lookup name).isSome then .error .duplicateField
            else promiseFields context named rest (Record.place name promise entries)) := by
      intro middle next id promise grown left stands
      have contains : record.contains name = (entries.lookup name).isSome :=
        stand.isSome_lookup name
      -- The names so far are the same on both sides, so they fail together.
      rw [contains]
      split
      · exact .same left (.error _ rfl)
      · exact ih left (bound.grow grown) ((stand.grow grown).place stands)
    refine (heap.suspendExpr bound field.value).bind fun middle grown left first => ?_
    cases field.type with
    | none => exact placed grown left first
    | some type =>
      cases found : context.annotations.get? type with
      -- Without a resolved annotation both sides fail alike, after the field was put off.
      | none => simpa [found] using Leaves.same left (.error .unresolvedType rfl)
      | some resolved =>
        simp only [found, Option.map_some]
        exact (left.suspend (.check first)).bind fun later next left second =>
          placed (grown.trans next) left second

/-! Reading records. -/

/-- Values without parts that are made at once stand for promises of those values. -/
theorem readyNames (heap : Heap context busy meaning store) (names : List String) :
    Leaves context busy meaning (store.readyAll (names.map .str)).2 fun after =>
      AllStand after (store.readyAll (names.map .str)).1
        (names.map fun name => .ready (.str name)) := by
  induction names generalizing meaning store with
  | nil => exact .same heap .nil
  | cons name rest ih =>
    refine (heap.ready (gives_ready (.str name)) (.str name)).bind fun middle _ left first => ?_
    exact (ih left).imp fun after later others => .cons (later _ _ first) others

/-- The list of a record's field names stands for the list of promises of those names. -/
theorem fieldsOf (heap : Heap context busy meaning store) {record : Record} {fields : Fields}
    (stand : EntriesStand meaning record.entries fields) :
    Leaves context busy meaning (store.fieldsOf record).2 fun after =>
      ListMirrors after (store.fieldsOf record).1
        (fields.map fun field => .item (.ready (.str field.1))) := by
  have same : record.names = fields.map Prod.fst := stand.keys
  simp only [Store.fieldsOf, same]
  refine (heap.readyNames (fields.map Prod.fst)).imp fun after _ listed => ?_
  simpa only [List.map_map, Function.comp_def] using ListMirrors.ofThunks listed

/-- Applications that are put off for the fields of a record stand for promised applications. -/
theorem mapEntries (heap : Heap context busy meaning store) {func : ThunkId} {promise : Promise}
    (stands : Stands meaning func promise) {entries : List Entry} {fields : Fields}
    (stand : EntriesStand meaning entries fields) :
    Leaves context busy meaning (store.mapEntries func entries).2 fun after =>
      EntriesStand after (store.mapEntries func entries).1
        (fields.map fun (name, inner) => (name, .apply promise [.ready (.str name), inner])) := by
  induction entries generalizing meaning store fields with
  | nil =>
    cases stand
    exact .same heap .nil
  | cons entry rest ih =>
    obtain _ | ⟨same, others⟩ := stand
    obtain ⟨name, id⟩ := entry
    rename_i field _
    obtain ⟨_, inner⟩ := field
    obtain ⟨rfl, value⟩ := same
    -- Two computations for each field: the name, made at once, and the application, put off.
    refine (heap.ready (gives_ready (.str name)) (.str name)).bind fun middle grown left key => ?_
    refine (left.suspend (.apply (grown _ _ stands)
      (.cons key (.cons (grown _ _ value) .nil)))).bind fun last later left mapped => ?_
    have kept := grown.trans later
    exact (ih left (kept _ _ stands) (EntriesStand.grow kept others)).imp fun after next mappedRest =>
      .cons ⟨rfl, next _ _ mapped⟩ mappedRest

/-- A mapped record stands for the record of promised applications. -/
theorem mapFields (heap : Heap context busy meaning store) {func : ThunkId} {promise : Promise}
    (stands : Stands meaning func promise) {record : Record} {fields : Fields}
    (stand : EntriesStand meaning record.entries fields) :
    Leaves context busy meaning (store.mapFields func record).2 fun after =>
      EntriesStand after (store.mapFields func record).1.entries
        (Fields.ofEntries (fields.map fun (name, inner) =>
          (name, .apply promise [.ready (.str name), inner]))) :=
  (heap.mapEntries stands stand).imp fun _ _ mapped => mapped.ofEntries

/-! Checks. -/

/-- A part that is put off to be checked stands for a promise of that check. -/
theorem wrap (heap : Heap context busy meaning store) (graph : TypeGraph) {inner : ThunkId}
    {promise : Promise} (stands : Stands meaning inner promise) (type : TypeId) (path : Path) :
    Leaves context busy meaning (store.wrap graph inner type path).2 fun after =>
      Stands after (store.wrap graph inner type path).1 (promise.wrap graph type) := by
  unfold Store.wrap Promise.wrap
  split
  · exact .same heap stands
  · exact heap.suspend (.check stands)

/-- Fields that are put off to be checked stand for promises of those checks. -/
theorem wrapAll (heap : Heap context busy meaning store) (graph : TypeGraph) (type : TypeId)
    (path : Path) {entries : List Entry} {fields : Fields}
    (stand : EntriesStand meaning entries fields) :
    Leaves context busy meaning (store.wrapAll graph type path entries).2 fun after =>
      EntriesStand after (store.wrapAll graph type path entries).1
        (fields.map fun (name, inner) => (name, inner.wrap graph type)) := by
  induction entries generalizing meaning store fields with
  | nil =>
    cases stand
    exact .same heap .nil
  | cons entry rest ih =>
    obtain _ | ⟨same, others⟩ := stand
    obtain ⟨name, id⟩ := entry
    rename_i field _
    obtain ⟨_, inner⟩ := field
    obtain ⟨rfl, value⟩ := same
    -- The first field is wrapped, and the others in the store that this leaves.
    refine (heap.wrap graph value type (path.field name)).bind fun middle grown left first => ?_
    exact (ih left (EntriesStand.grow grown others)).imp fun after later checked =>
      .cons ⟨rfl, later _ _ first⟩ checked

/-- Declared fields that are put off to be checked stand for promises of those checks. -/
theorem wrapDeclared (heap : Heap context busy meaning store) (names : NameTable)
    (graph : TypeGraph) {record : Record} {fields : Fields} (path : Path)
    (stand : EntriesStand meaning record.entries fields) (declared : List (Name × TypeId)) :
    Results context busy meaning EntriesStand
      (store.wrapDeclared names graph record path declared)
      (Fields.wrapDeclared names graph fields declared) := by
  induction declared generalizing meaning store with
  | nil => exact .same heap (.ok .nil)
  | cons field rest ih =>
    obtain ⟨name, type⟩ := field
    -- A declared field is there on both sides or missing on both.
    have found := stand.lookup (names.lookup name)
    simp only [Store.wrapDeclared, Fields.wrapDeclared, Record.get?]
    generalize record.entries.lookup (names.lookup name) = first at found ⊢
    generalize fields.lookup (names.lookup name) = second at found ⊢
    cases found with
    | none => exact .same heap (.error _ rfl)
    | some stands =>
      refine (heap.wrap graph stands type (path.field (names.lookup name))).bind
        fun middle grown left checked => ?_
      -- What the other fields come to decides, and the two sides agree on it.
      have others := ih left (stand.grow grown)
      dsimp only
      revert others
      generalize Store.wrapDeclared _ names graph record path rest = outcome
      generalize Fields.wrapDeclared names graph fields rest = named
      obtain ⟨result, next⟩ := outcome
      rintro ⟨after, later, heap, results⟩
      cases results with
      | ok entries => exact ⟨after, later, heap, .ok (.cons ⟨rfl, later _ _ checked⟩ entries)⟩
      | error fault own => exact ⟨after, later, heap, .error fault own⟩

/-- A checked record stands for a checked record, and a mismatch for a mismatch. -/
theorem checkRecord (heap : Heap context busy meaning store) (names : NameTable)
    (graph : TypeGraph) {record : Record} {fields : Fields} (path : Path)
    (stand : EntriesStand meaning record.entries fields) (declared : List (Name × TypeId)) :
    Results context busy meaning ValueMirrors
      (store.checkRecord names graph record declared path)
      (Fields.check names graph fields declared) := by
  -- First the declared fields are put off to be checked, on both sides with the same outcome.
  have wrapped := heap.wrapDeclared names graph path stand declared
  unfold Store.checkRecord Fields.check
  revert wrapped
  generalize Store.wrapDeclared store names graph record path declared = outcome
  generalize Fields.wrapDeclared names graph fields declared = named
  obtain ⟨result, next⟩ := outcome
  rintro ⟨after, grown, left, results⟩
  cases results with
  | error fault own => exact ⟨after, grown, left, .error fault own⟩
  | ok entries =>
    rename_i checked fields'
    -- A field is unexpected here if and only if it is unexpected there, since the names agree.
    have listed : ∀ name, (checked.any fun entry => entry.1 == name) =
        fields'.any fun entry => entry.1 == name := by
      intro name
      have keys := congrArg (List.any · (· == name)) entries.keys
      simpa [List.any_map, Function.comp_def] using keys
    have expected : (record.names.find? fun name => !(checked.any fun entry => entry.1 == name)) =
        none ↔ (fields.all fun field => fields'.any fun entry => entry.1 == field.1) = true := by
      have keys : record.names = fields.map Prod.fst := stand.keys
      simp [keys, listed, List.find?_eq_none]
    dsimp only
    split
    · rename_i extra found
      rw [if_neg fun all => by simp [expected.mpr all] at found]
      exact ⟨after, grown, left, .error _ rfl⟩
    · rename_i found
      rw [if_pos (expected.mp found)]
      exact ⟨after, grown, left, .ok (.record entries.ofEntries)⟩

/-- A checked value stands for a checked value, and a failed check for a failed check. -/
theorem check (heap : Heap context busy meaning store) (names : NameTable) (graph : TypeGraph)
    {value : LazyConfig.Value} {named : Value} (mirrors : ValueMirrors meaning value named)
    (type : TypeId) (path : Path) :
    Results context busy meaning ValueMirrors (store.check names graph value type path)
      (named.check names graph type) := by
  -- A simple type asks for a kind, and the two values have the same one.
  have accepts : ∀ kind fault, fault.variant = .typeMismatch → fault.ordinary = true →
      Results context busy meaning ValueMirrors
        (if value.kind = kind then (.ok value, store) else (.error fault, store))
        (if named.kind = kind then .ok named else .error .typeMismatch) := by
    intro kind fault mismatch own
    rw [mirrors.kind]
    split
    · exact .same heap (.ok mirrors)
    · exact mismatch ▸ .same heap (.error fault own)
  unfold Store.check Value.check
  dsimp only
  cases graph.node (graph.shape type) with
  | dyn => exact .same heap (.ok mirrors)
  | var name => exact .same heap (.ok mirrors)
  | aliasSlot name target => exact .same heap (.error _ rfl)
  | forAll name body => exact .same heap (.error _ rfl)
  | list elem =>
    cases mirrors with
    | list listed =>
      refine (heap.suspend (.checkList listed)).imp fun after _ stands => .ok (.list ?_)
      -- The checked list is nothing followed by a check of the whole, so it has no stretch of its
      -- own.
      exact ⟨[], _, by simp [Segment.span, LazyList.empty, ListMirrors], stands, rfl⟩
    | _ => exact .same heap (.error _ rfl)
  | record declared =>
    cases mirrors with
    | record entries => exact heap.checkRecord names graph path entries declared
    | _ => exact .same heap (.error _ rfl)
  | dict elem =>
    cases mirrors with
    | record entries =>
      exact (heap.wrapAll graph elem path entries).imp fun _ _ checked =>
        .ok (.record checked.ofEntries)
    | _ => exact .same heap (.error _ rfl)
  | _ => exact accepts _ _ rfl rfl

/-- The next part of a checked list stands for the next part by name. -/
theorem checkCell (heap : Heap context busy meaning store) (graph : TypeGraph) {head : ThunkId}
    {promise : Promise} {rest : LazyList} {segments : List Segment}
    (stands : Stands meaning head promise) (listed : ListMirrors meaning rest segments)
    (elem : TypeId) (path : Path) (index : Nat) :
    Leaves context busy meaning (store.checkCell graph head rest elem path index).2 fun after =>
      ValueMirrors after (store.checkCell graph head rest elem path index).1
        (.list [.item (promise.wrap graph elem), .joint (.checkList segments elem)]) := by
  refine (heap.wrap graph stands elem (path.index index)).bind fun middle grown left checked => ?_
  refine (left.suspend (.checkList (listed.grow grown))).imp fun after later tail => ?_
  exact .list ⟨_, _, .ofThunks (.cons (later _ _ checked) .nil), tail, rfl⟩

end LazyConfig.ByName.Heap
