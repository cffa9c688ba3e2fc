import LazyConfig.Proofs.Erasure.Rules

/-!
Expressions with and without annotations. Inside any ascriptions and alias groups, both are of the
same form, and they have the same parts.
-/

namespace LazyConfig.ByName

variable {source : Annotated} {others : Annotations}

namespace Annotated

/-- A plain expression is its own core. -/
theorem core_of_isPlain {id : ExprId} (plain : (source.code.expr id).isPlain = true) :
    source.core id = id :=
  Code.core_of_isPlain plain source.depth

/-- There is room for the nesting of a covered expression. -/
theorem Covered.nested {id : ExprId} (covered : source.Covered id) :
    ∃ depth, source.depth = depth + 1 ∧
      source.annotations.Covers source.code (depth + 1) id ∧
      ∀ part, source.annotations.Covers source.code depth part → source.Covered part := by
  -- An expression is covered to some depth only if there is a level for the expression itself.
  rw [Covered] at covered
  cases known : source.depth with
  | zero =>
    rw [known] at covered
    exact covered.elim
  | succ depth =>
    rw [known] at covered
    refine ⟨depth, rfl, covered, fun part covers => ?_⟩
    rw [Covered, known]
    exact covers.mono (Nat.le_succ depth)

/-- The parts of a covered expression are covered. -/
theorem Covered.child {id child : ExprId} (covered : source.Covered id)
    (plain : (source.code.expr id).isPlain = true)
    (member : child ∈ (source.code.expr id).children) : source.Covered child := by
  obtain ⟨depth, -, covers, parts⟩ := covered.nested
  refine parts child ?_
  rw [Annotations.Covers] at covers
  -- Only ascriptions and alias groups are not plain; a record keeps its types beside its parts.
  cases found : source.code.expr id with
  | ascribe | aliases =>
    rw [found] at plain
    cases plain
  | record fields =>
    rw [found] at covers member
    obtain ⟨field, among, rfl⟩ := List.mem_map.mp member
    exact (covers field among).2
  | _ =>
    rw [found] at covers member
    exact covers child member

/-- What is ascribed in a covered expression is covered and has the same core, in one wrap less. -/
theorem Covered.ascribe {id value : ExprId} {type : TypeExprId} (covered : source.Covered id)
    (found : source.code.expr id = .ascribe value type) :
    (∃ resolved, source.annotations.get? type = some resolved) ∧ source.Covered value ∧
      source.core id = source.core value ∧ source.wraps id = source.wraps value + 1 := by
  obtain ⟨depth, room, covers, parts⟩ := covered.nested
  obtain ⟨known, inner⟩ := covers.ascribe found
  refine ⟨Option.isSome_iff_exists.mp known, parts value inner, ?_, ?_⟩
  · rw [core, core, room, inner.core_succ, Code.core, found]
  · rw [wraps, wraps, room, inner.wraps_succ, Code.wraps, found]

/-- The body of a covered alias group is covered and has the same core, in one wrap less. -/
theorem Covered.aliases {id body : ExprId} {defs : List AliasDef} (covered : source.Covered id)
    (found : source.code.expr id = .aliases defs body) :
    source.Covered body ∧ source.core id = source.core body ∧
      source.wraps id = source.wraps body + 1 := by
  obtain ⟨depth, room, covers, parts⟩ := covered.nested
  have inner := covers.aliases found
  refine ⟨parts body inner, ?_, ?_⟩
  · rw [core, core, room, inner.core_succ, Code.core, found]
  · rw [wraps, wraps, room, inner.wraps_succ, Code.wraps, found]

/-- The annotations of the fields of a covered record have types. -/
theorem Covered.field {id : ExprId} {fields : List Field} (covered : source.Covered id)
    (found : source.code.expr id = .record fields) {field : Field} (member : field ∈ fields) :
    (∀ type, field.type = some type →
      ∃ resolved, source.annotations.get? type = some resolved) ∧ source.Covered field.value := by
  obtain ⟨depth, -, covers, parts⟩ := covered.nested
  rw [Annotations.Covers, found] at covers
  obtain ⟨typed, inner⟩ := covers field member
  exact ⟨fun type same => Option.isSome_iff_exists.mp (typed type same), parts _ inner⟩

/-- Without annotations, an expression is what is inside them, with the same parts. -/
theorem erased_expr (source : Annotated) (others : Annotations) (id : ExprId) :
    (source.erased others).code.expr id = (source.code.expr (source.core id)).bare :=
  Code.erase_expr source.code source.depth id

end Annotated

/-- What is put off with annotations gives what is put off without, once its checks succeed. -/
theorem promise_erases {id : ExprId} {env bound : Env} (covered : source.Covered id)
    (binds : EntriesErase source env bound) :
    PromiseErases source (promise source.context env id) (promise (source.erased others) bound id) := by
  -- What is annotated is always put off as it stands; only plain expressions can be there at once.
  have plain_or : (source.code.expr id).isPlain = true ∨ promise source.context env id = .expr id env := by
    rw [promise, Annotated.context]
    cases source.code.expr id with
    | ascribe | aliases => exact .inr rfl
    | _ => exact .inl rfl
  rw [promise.eq_def (source.erased others), Annotated.erased_expr]
  cases found : source.code.expr (source.core id) with
  | ident name =>
    have same := binds.lookup name
    dsimp only [Expr.bare]
    rcases plain_or with plain | annotated
    · -- Without annotations around it the variable stands for the same on both sides.
      rw [Annotated.core_of_isPlain plain] at found
      rw [promise, Annotated.context, found]
      dsimp only
      generalize env.lookup name = first at same
      generalize bound.lookup name = second at same
      cases same with
      | some erases => exact erases
      | none => exact .expr covered binds.keys binds.values
    · rw [annotated]
      cases known : bound.lookup name with
      | some bare => exact .named covered found binds.keys binds.values known
      | none => exact .expr covered binds.keys binds.values
  -- Whatever is no variable is put off as it stands, with annotations and without.
  | _ =>
    have unbound : promise source.context env id = .expr id env := by
      rcases plain_or with plain | annotated
      · rw [Annotated.core_of_isPlain plain] at found
        rw [promise, Annotated.context, found]
      · exact annotated
    rw [unbound]
    exact .expr covered binds.keys binds.values

/-- Expressions that are put off with annotations and without. -/
theorem promises_erase {items : List ExprId} {env bound : Env}
    (covered : ∀ item ∈ items, source.Covered item) (binds : EntriesErase source env bound) :
    List.Forall₂ (PromiseErases source) (items.map (promise source.context env))
      (items.map (promise (source.erased others) bound)) := by
  induction items with
  | nil => exact .nil
  | cons item rest ih =>
    exact .cons (promise_erases (covered item List.mem_cons_self) binds)
      (ih fun other member => covered other (List.mem_cons_of_mem _ member))

/-- A record literal with annotations makes the fields that it makes without. -/
theorem promiseFields_erases {record : List Field} {env bound : Env}
    (typed : ∀ field ∈ record, (∀ type, field.type = some type →
      ∃ resolved, source.annotations.get? type = some resolved) ∧ source.Covered field.value)
    (binds : EntriesErase source env bound) {fields bares : Fields} (sorted : Sorted fields)
    (agree : EntriesErase source fields bares) :
    ControlErases source
      (Control.ofResult ((promiseFields source.context env record fields).map .record))
      (Control.ofResult ((promiseFields (source.erased others) bound
        (record.map fun field => { field with type := none }) bares).map .record)) := by
  -- The fields are put off one by one; a name that comes twice fails the same way in both.
  induction record generalizing fields bares with
  | nil => exact .give (.ofFields sorted agree)
  | cons field rest ih =>
    obtain ⟨known, covered⟩ := typed field List.mem_cons_self
    have value := @promise_erases _ others _ _ _ covered binds
    -- With a type or without, the value of the field gives what it gives without annotations.
    have placed (checked : Promise)
        (erases : PromiseErases source checked (promise (source.erased others) bound field.value)) :
        ControlErases source
          (Control.ofResult ((if (fields.lookup (source.names.lookup field.name)).isSome then
            .error .duplicateField
          else promiseFields source.context env rest
            (Record.place (source.names.lookup field.name) checked fields)).map .record))
          (Control.ofResult ((if (bares.lookup (source.names.lookup field.name)).isSome then
            .error .duplicateField
          else promiseFields (source.erased others) bound
            (rest.map fun field => { field with type := none })
            (Record.place (source.names.lookup field.name)
              (promise (source.erased others) bound field.value) bares)).map .record)) := by
      rw [agree.isSome_lookup]
      split
      · exact .raise .duplicateField
      · exact ih (fun other member => typed other (List.mem_cons_of_mem _ member))
          (Record.place_sorted sorted) (agree.place erases)
    rw [List.map_cons, promiseFields, promiseFields]
    cases annotated : field.type with
    | none => exact placed _ value
    | some type =>
      obtain ⟨resolved, found⟩ := known type annotated
      have looked : source.context.annotations.get? type = some resolved := found
      simp only [looked, Option.map_some]
      exact placed _ (.check value)

/-- Evaluating an expression that is neither an ascription nor an alias group. -/
theorem evalTurn_erases {id other : ExprId} {env bound : Env} (covered : source.Covered id)
    (plain : (source.code.expr id).isPlain = true) (same : source.core id = source.core other)
    (binds : EntriesErase source env bound) :
    TurnErases source (evalTurn source.context id env)
      (evalTurn (source.erased others) other bound) := by
  -- A plain expression is what is left of it, so both rules look at one expression, bare or not.
  have own := Annotated.core_of_isPlain plain
  have child {part : ExprId} (member : part ∈ (source.code.expr id).children) :
      source.Covered part := covered.child plain member
  have read : source.context.code.expr id = source.code.expr id := rfl
  unfold evalTurn
  rw [Annotated.erased_expr, ← same, own, read]
  cases found : source.code.expr id with
  | int value => exact .here (.give (.int value))
  | float value => exact .here (.give (.float value))
  | str text => exact .here (.give (.str _))
  | bool value => exact .here (.give (.bool value))
  | ident name =>
    have looked := binds.lookup name
    dsimp only [Expr.bare]
    generalize env.lookup name = first at looked
    generalize bound.lookup name = second at looked
    cases looked with
    | some erases => exact .here (.force erases)
    | none => exact .fails .unboundIdentifier
  | lambda param body =>
    -- What a rule goes on with are parts of the expression, which are covered with it.
    exact .here (.give (.closure (child (by simp [found, Expr.children])) binds.keys binds.values))
  | apply func arg =>
    exact .waits (.operand (child (by simp [found, Expr.children])) binds)
      (.eval (child (by simp [found, Expr.children])) binds)
  -- The knot is tied in both, and its environments have the same names.
  | letIn name value body =>
    have knot : PromiseErases source (.recursive name value env) (.recursive name value bound) :=
      .recursive (child (by simp [found, Expr.children])) binds.keys binds.values
    exact .here (.eval (child (by simp [found, Expr.children])) (.cons ⟨rfl, knot⟩ binds))
  | cond test whenTrue whenFalse =>
    exact .waits (.branch (child (by simp [found, Expr.children]))
      (child (by simp [found, Expr.children])) binds)
      (.eval (child (by simp [found, Expr.children])) binds)
  | binary op left right =>
    have first : source.Covered left := child (by simp [found, Expr.children])
    have second : source.Covered right := child (by simp [found, Expr.children])
    cases op with
    | and | or => exact .waits (.logicLeft second binds) (.eval first binds)
    | concat => exact .waits (.concatLeft second binds) (.eval first binds)
    | _ => exact .waits (.operandLeft second binds) (.eval first binds)
  | unary op operand =>
    exact .waits (.unary op) (.eval (child (by simp [found, Expr.children])) binds)
  | list items =>
    have promises : List.Forall₂ (PromiseErases source) (items.map (promise source.context env))
        (items.map (promise (source.erased others) bound)) :=
      promises_erase (fun item member => child (by simpa [found, Expr.children] using member)) binds
    have listed := ListErases.ofItems promises
    rw [List.map_map, List.map_map] at listed
    exact .here (.give (.list listed))
  | record fields =>
    exact .here (promiseFields_erases (fun field member => covered.field found member) binds .nil .nil)
  | field receiver name =>
    exact .waits (.select name) (.eval (child (by simp [found, Expr.children])) binds)
  | builtin op args =>
    have covers : ∀ arg ∈ args, source.Covered arg := fun arg member =>
      child (by simpa [found, Expr.children] using member)
    dsimp only [Expr.bare]
    split
    · exact .waits (.thenEval (covers _ (by simp)) binds) (.eval (covers _ (by simp)) binds)
    · exact .waitsTwice .deepen (.thenEval (covers _ (by simp)) binds)
        (.eval (covers _ (by simp)) binds)
    · -- All but the two primitives that go on with their last argument hold their arguments first.
      have promises := @promises_erase _ others _ _ _ covers binds
      rw [promises.length_eq]
      split
      · exact .fails .arityMismatch
      · split
        · exact .here (.give (.builtin promises))
        · exact .here (.run promises)
  | ascribe | aliases =>
    rw [found] at plain
    cases plain

/-- Mapping a function over fields with annotations and without. -/
theorem EntriesErase.mapApply {fields bares : Fields} (agree : EntriesErase source fields bares)
    {func bareFunc : Promise} (applied : PromiseErases source func bareFunc) :
    EntriesErase source
      (fields.map fun (name, promise) => (name, .apply func [.ready (.str name), promise]))
      (bares.map fun (name, promise) => (name, .apply bareFunc [.ready (.str name), promise])) := by
  -- Each field becomes the application of the function to its name and its value.
  rw [EntriesErase, EntriesAgree, List.forall₂_map_left_iff, List.forall₂_map_right_iff]
  refine agree.imp fun entry bare same => ⟨same.1, .apply applied ?_⟩
  rw [same.1]
  exact .cons (.ready (.str _)) (.cons same.2 .nil)

/-- Giving a value to a frame that waits with annotations and without. -/
theorem giveTurn_erases {value bare : Value} (erases : ValueErases source value bare)
    {frame other : Frame} (waits : FrameErases source frame other) :
    TurnErases source (giveTurn source.context value frame)
      (giveTurn (source.erased others) bare other) := by
  -- A value and its bare form are of one kind, so a frame that refuses the one refuses the other.
  cases waits with
  | branch first second binds =>
    cases erases with
    | bool test =>
      cases test with
      | true => exact .here (.eval first binds)
      | false => exact .here (.eval second binds)
    | _ => exact .fails .unexpectedType
  -- An argument is put off on both sides; a function binds it, any other value is applied by its
  -- own rule.
  | operand covered binds =>
    have argument := @promise_erases _ others _ _ _ covered binds
    have whole := erases
    cases erases with
    | closure inner names promises =>
      exact .here (.eval inner (.cons ⟨rfl, argument⟩ (EntriesAgree.of_parts names promises)))
    | _ => exact .here (.apply whole argument)
  | thenEval covered binds => exact .here (.eval covered binds)
  | thenForce promise => exact .here (.force promise)
  | deepen => exact .here (.deepen (.cons erases .nil) erases)
  | @logicLeft op _ _ _ covered binds =>
    cases erases with
    | bool left =>
      simp only [giveTurn]
      split
      · exact .here (.give (.bool left))
      · exact .waits .logicRight (.eval covered binds)
    | _ => exact .fails .unexpectedType
  | logicRight =>
    cases erases with
    | bool right => exact .here (.give (.bool right))
    | _ => exact .fails .unexpectedType
  | concatLeft covered binds =>
    cases erases with
    | list listed =>
      exact .here (.give (.list (listed.append (.joint (promise_erases covered binds) .nil))))
    | _ => exact .fails .notAList
  | operandLeft covered binds => exact .waits (.operandRight erases) (.eval covered binds)
  | operandRight left => exact .here (.operate left erases)
  | unary op =>
    simp only [giveTurn, erases.outer]
    exact .here (.ofScalar _)
  -- Only a truth value is turned over; all others are given on.
  | negate =>
    have whole := erases
    cases erases with
    | bool same => exact .here (.give (.bool _))
    | _ => exact .here (.give whole)
  | select name =>
    cases erases with
    | @record fields bares sorted names promises =>
      have agree : EntriesErase source fields bares := .of_parts names promises
      have looked := agree.lookup (source.names.lookup name)
      simp only [giveTurn, Annotated.context, Annotated.erased]
      generalize fields.lookup (source.names.lookup name) = first at looked
      generalize bares.lookup (source.names.lookup name) = second at looked
      cases looked with
      | some promise => exact .here (.force promise)
      | none => exact .fails .missingField
    | _ => exact .fails .notARecord
  | args promises =>
    cases promises with
    | nil => exact .here (.give erases)
    | cons first rest => exact .waits (.args rest) (.apply erases first)
  | @mapOver func bareFunc applied =>
    cases erases with
    | @record fields bares sorted names promises =>
      have agree : EntriesErase source fields bares := .of_parts names promises
      have none : EntriesErase source ([] : Fields) [] := .nil
      have placed := none.placeAll (agree.mapApply applied)
      exact .here (.give (.ofFields (placeAll_sorted .nil) placed))
    | _ => exact .fails .notARecord
  | fieldNames =>
    cases erases with
    | @record fields bares sorted names promises =>
      have agree : EntriesErase source fields bares := .of_parts names promises
      exact .here (.give (.list (.ofNames agree)))
    | _ => exact .fails .notARecord
  | fieldName record =>
    cases erases with
    | str name => exact .waits (.fieldOwner name) (.force record)
    | _ => exact .fails .unexpectedType
  | fieldOwner name =>
    cases erases with
    | @record fields bares sorted names promises =>
      have agree : EntriesErase source fields bares := .of_parts names promises
      simp only [giveTurn, agree.isSome_lookup]
      exact .here (.give (.bool _))
    | _ => exact .fails .notARecord
  | walk consumer =>
    cases erases with
    | list listed => exact .here (.advance listed consumer)
    | _ => exact .fails .notAList
  | indexed index =>
    cases erases with
    | list listed => exact .waits (.index listed) (.force index)
    | _ => exact .fails .notAList
  | index listed =>
    simp only [giveTurn, erases.outer]
    split
    · split
      · exact .here (.advance listed (.outOfBounds _ 0))
      · exact .here (.advance listed (.elemAt _ _ listed))
    · exact .fails .domainError
  | bound =>
    simp only [giveTurn, erases.outer]
    split
    · refine .here (.give (.list ?_))
      simpa using ListErases.span 0 _ .nil
    · exact .fails .domainError
  | kindTest kind =>
    simp only [giveTurn, erases.kind]
    exact .here (.give (.bool _))
  | deepItem listed works whole => exact .here (.advance listed (.deepen (.cons erases works) whole))
  | compareItemLeft right lefts rights pairs =>
    exact .waits (.compareItemRight erases lefts rights pairs) (.force right)
  | compareItemRight left lefts rights pairs =>
    exact .here (.advance lefts (.compareLeft rights (.cons ⟨left, erases⟩ pairs)))

end LazyConfig.ByName
