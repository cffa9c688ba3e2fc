import LazyConfig.Proofs.Erasure.Checks

/-!
The rules of evaluation by name, with and without annotations. Where nothing is checked, both take
the same rule and go on in the same way.
-/

namespace LazyConfig.ByName

variable {source : Annotated}

/-- What is done next with annotations goes on as what is done next without, above any stacks. -/
def ControlErases (source : Annotated) (control bare : Control) : Prop :=
  ∀ stack others, StackErases source stack others →
    Erases source ⟨control, stack⟩ ⟨bare, others⟩

/-- A rule with annotations goes on as a rule without, above any stacks. -/
def TurnErases (source : Annotated) (turn bare : Turn) : Prop :=
  ∀ stack others, StackErases source stack others →
    Erases source (turn.onto stack) (bare.onto others)

namespace ControlErases

theorem eval {id : ExprId} {env bound : Env} (covered : source.Covered id)
    (binds : EntriesErase source env bound) :
    ControlErases source (.eval id env) (.eval id bound) :=
  fun _ _ more => .eval covered rfl binds more

theorem force {promise bare : Promise} (erases : PromiseErases source promise bare) :
    ControlErases source (.force promise) (.force bare) :=
  fun _ _ more => .force erases more

theorem apply {func bare : Value} {arg other : Promise} (erases : ValueErases source func bare)
    (argument : PromiseErases source arg other) :
    ControlErases source (.apply func arg) (.apply bare other) :=
  fun _ _ more => .apply erases argument more

theorem run {op : Builtin} {args bares : List Promise}
    (promises : List.Forall₂ (PromiseErases source) args bares) :
    ControlErases source (.run op args) (.run op bares) :=
  fun _ _ more => .run promises more

theorem operate {op : BinaryOp} {left right leftBare rightBare : Value}
    (leftErases : ValueErases source left leftBare)
    (rightErases : ValueErases source right rightBare) :
    ControlErases source (.operate op left right) (.operate op leftBare rightBare) :=
  fun _ _ more => .operate leftErases rightErases more

/-- A walk that nothing is checked on. -/
theorem advance {items bares : List Segment} {consumer bare : Consumer}
    (listed : ListErases source items bares) (erases : ConsumerErases source consumer bare) :
    ControlErases source (.advance items consumer) (.advance bares bare) := by
  intro stack others more
  have walk := Erases.advance listed (.outermost erases) more
  rwa [List.nil_append, List.append_nil] at walk

theorem deepen {work bares : List Value} {whole bare : Value} (works : WorkErases source work bares)
    (erases : ValueErases source whole bare) :
    ControlErases source (.deepen work whole) (.deepen bares bare) :=
  fun _ _ more => .deepen works erases more

theorem compare {work bares : List (Value × Value)} (pairs : PairsErase source work bares) :
    ControlErases source (.compare work) (.compare bares) :=
  fun _ _ more => .compare pairs more

theorem give {value bare : Value} (erases : ValueErases source value bare) :
    ControlErases source (.give value) (.give bare) :=
  fun _ _ more => .give erases more

theorem raise (variant : Variant) : ControlErases source (.raise variant) (.raise variant) :=
  fun stack others _ => .raise variant stack others

/-- The result of an operator on values without their parts. -/
theorem ofScalar (result : Except Fault LazyConfig.Value) :
    ControlErases source (Control.ofScalar result) (Control.ofScalar result) := by
  cases result with
  | error fault => exact .raise fault.variant
  | ok value => cases value <;> exact .give (by constructor)

end ControlErases

namespace TurnErases

variable {control bare : Control}

/-- A rule that goes on without waiting. -/
theorem here (erases : ControlErases source control bare) :
    TurnErases source control.turn bare.turn :=
  erases

/-- A rule that waits for a value first. -/
theorem waits {frame other : Frame} (waits : FrameErases source frame other)
    (erases : ControlErases source control bare) :
    TurnErases source (control.before frame) (bare.before other) :=
  fun _ _ more => erases _ _ (.frame waits more)

/-- A rule that waits for a value twice. -/
theorem waitsTwice {first second other another : Frame} (top : FrameErases source first other)
    (next : FrameErases source second another) (erases : ControlErases source control bare) :
    TurnErases source ⟨control, [first, second]⟩ ⟨bare, [other, another]⟩ :=
  fun _ _ more => erases _ _ (.frame top (.frame next more))

/-- A rule that fails. -/
theorem fails (variant : Variant) :
    TurnErases source (Control.raise variant).turn (Control.raise variant).turn :=
  here (.raise variant)

end TurnErases

/-- Applying a value. -/
theorem applyTurn_erases {func bare : Value} {arg other : Promise}
    (erases : ValueErases source func bare) (argument : PromiseErases source arg other) :
    TurnErases source (applyTurn func arg) (applyTurn bare other) := by
  -- A function gets its argument bound, and a primitive holds it or runs with it.
  cases erases with
  | closure covered names promises =>
    exact .here (.eval covered (.cons ⟨rfl, argument⟩ (EntriesAgree.of_parts names promises)))
  | @builtin op held bares promises =>
    have all := List.rel_append promises (.cons argument .nil)
    simp only [applyTurn, all.length_eq]
    split
    · exact .here (.run all)
    · exact .here (.give (.builtin all))
  | _ => exact .fails .notCallable

/-- Running a primitive. -/
theorem runTurn_erases (op : Builtin) {args bares : List Promise}
    (promises : List.Forall₂ (PromiseErases source) args bares) :
    TurnErases source (runTurn op args) (runTurn op bares) := by
  -- The number of arguments decides between the rule of the primitive and a failure.
  match promises with
  | .nil => cases op <;> exact .fails .arityMismatch
  | .cons first .nil =>
    cases op with
    | fieldsOf => exact .waits .fieldNames (.force first)
    | head => exact .waits (.walk .head) (.force first)
    | tail => exact .waits (.walk .tail) (.force first)
    | length => exact .waits (.walk (.count 0)) (.force first)
    | range => exact .waits .bound (.force first)
    | isNum | isStr | isBool | isList | isRecord | isFun => exact .waits (.kindTest _) (.force first)
    | _ => exact .fails .arityMismatch
  | .cons first (.cons second .nil) =>
    cases op with
    | map => exact .waits (.mapOver first) (.force second)
    | hasField => exact .waits (.fieldName second) (.force first)
    | elemAt => exact .waits (.indexed second) (.force first)
    | seq => exact .waits (.thenForce second) (.force first)
    | deepSeq => exact .waitsTwice .deepen (.thenForce second) (.force first)
    | _ => exact .fails .arityMismatch
  | .cons _ (.cons _ (.cons _ _)) => cases op <;> exact .fails .arityMismatch

/-- Applying a strict operator. -/
theorem operateTurn_erases (op : BinaryOp) {left right leftBare rightBare : Value}
    (leftErases : ValueErases source left leftBare)
    (rightErases : ValueErases source right rightBare) :
    TurnErases source (operateTurn op left right) (operateTurn op leftBare rightBare) := by
  have leftOuter := leftErases.outer
  have rightOuter := rightErases.outer
  -- An operator reads its operands up to their outermost form, which the annotations leave alone.
  cases op with
  | eq => exact .here (.compare (.cons ⟨leftErases, rightErases⟩ .nil))
  | ne => exact .waits .negate (.compare (.cons ⟨leftErases, rightErases⟩ .nil))
  | add | sub | mul | div | rem | lt | le | gt | ge =>
    simp only [operateTurn, leftOuter, rightOuter]
    exact .here (.ofScalar _)
  | append =>
    cases leftErases with
    | str a =>
      cases rightErases with
      | str b => exact .here (.give (.str _))
      | _ => exact .fails .operandMismatch
    | _ => exact .fails .operandMismatch
  | and | or =>
    cases leftErases with
    | bool a =>
      cases rightErases with
      | bool b => exact .here (.give (.bool _))
      | _ => exact .fails .operandMismatch
    | _ => exact .fails .operandMismatch
  | concat =>
    cases leftErases with
    | list listed =>
      exact .here (.give (.list (listed.append (.joint (.ready rightErases) .nil))))
    | _ => exact .fails .notAList

/-- Handing an element, or the end of a walk, to what the walk is for. -/
theorem consumeTurn_erases (graph other : TypeGraph) {consumer bare : Consumer}
    (erases : ConsumerErases source consumer bare) {item bareItem : Option Promise}
    (element : Option.Rel (PromiseErases source) item bareItem) {rest others : List Segment}
    (listed : ListErases source rest others) :
    TurnErases source (consumeTurn graph consumer item rest)
      (consumeTurn other bare bareItem others) := by
  cases erases with
  | head =>
    cases element with
    | some first => exact .here (.force first)
    | none => exact .fails .emptyList
  | tail =>
    cases element with
    | some first => exact .here (.give (.list listed))
    | none => exact .fails .emptyList
  | count passed =>
    cases element with
    | some first => exact .here (.advance listed (.count _))
    | none =>
      simp only [consumeTurn]
      split
      · exact .here (.give (.int _))
      · exact .fails .domainError
  | elemAt index ahead whole =>
    cases element with
    | some first =>
      cases ahead with
      | zero => exact .here (.force first)
      | succ ahead => exact .here (.advance listed (.elemAt index ahead whole))
    -- Behind the end, the whole list is walked again for the message, on both sides.
    | none => cases ahead <;> exact .here (.advance whole (.outOfBounds index 0))
  | outOfBounds index passed =>
    cases element with
    | some first => exact .here (.advance listed (.outOfBounds index _))
    | none => exact .fails .indexOutOfBounds
  | deepen works whole =>
    cases element with
    | some first => exact .waits (.deepItem listed works whole) (.force first)
    | none => exact .here (.deepen works whole)
  -- The element of the left list is kept while the right list goes on by one.
  | compareLeft right pairs => exact .here (.advance right (.compareRight element listed pairs))
  | compareRight left lefts pairs =>
    cases left with
    | some first =>
      cases element with
      | some second => exact .waits (.compareItemLeft second lefts listed pairs) (.force first)
      | none => exact .here (.give (.bool false))
    | none =>
      cases element with
      | some second => exact .here (.give (.bool false))
      | none => exact .here (.compare pairs)

/-- Evaluating all parts of values. -/
theorem deepenTurn_erases {work bares : List Value} {whole bare : Value}
    (works : WorkErases source work bares) (erases : ValueErases source whole bare) :
    TurnErases source (deepenTurn work whole) (deepenTurn bares bare) := by
  -- Only lists and records have parts to walk along.
  cases works with
  | nil => exact .here (.give erases)
  | cons first rest =>
    cases first with
    | list listed => exact .here (.advance listed (.deepen rest erases))
    | record sorted names promises =>
      exact .here (.advance (.ofFields (.of_parts names promises)) (.deepen rest erases))
    | _ => exact .here (.deepen rest erases)

/-- Comparing values. -/
theorem compareTurn_erases {work bares : List (Value × Value)}
    (pairs : PairsErase source work bares) :
    TurnErases source (compareTurn work) (compareTurn bares) := by
  -- A pair of equal scalars is passed; anything else is decided here or part by part.
  have decides : ∀ (same : Bool) {rest others : List (Value × Value)},
      PairsErase source rest others →
      TurnErases source (if same then Control.compare rest else .give (.bool false)).turn
        (if same then Control.compare others else .give (.bool false)).turn := by
    intro same rest others pairs
    cases same with
    | true => exact .here (.compare pairs)
    | false => exact .here (.give (.bool false))
  cases pairs with
  | nil => exact .here (.give (.bool true))
  | @cons pair bare work bares same rest =>
    obtain ⟨left, right⟩ := pair
    obtain ⟨leftBare, rightBare⟩ := bare
    obtain ⟨leftErases, rightErases⟩ := same
    dsimp only at leftErases rightErases
    cases leftErases with
    | int a => cases rightErases <;> first | exact decides _ rest | exact .fails _
    | float a => cases rightErases <;> first | exact decides _ rest | exact .fails _
    | bool a => cases rightErases <;> first | exact decides _ rest | exact .fails _
    | str a => cases rightErases <;> first | exact decides _ rest | exact .fails _
    | list listed =>
      cases rightErases with
      | list other => exact .here (.advance listed (.compareLeft other rest))
      | closure | builtin => exact .fails _
      | _ => exact decides false rest
    | @record fields bares sorted names promises =>
      cases rightErases with
      | @record others otherBares ordered others_names others_promises =>
        simp only [compareTurn, names, others_names]
        split
        · exact .here (.advance (.ofFields (.of_parts names promises))
            (.compareLeft (.ofFields (.of_parts others_names others_promises)) rest))
        · exact .here (.give (.bool false))
      | closure | builtin => exact .fails _
      | _ => exact decides false rest
    | closure => cases rightErases <;> exact .fails _
    | builtin => cases rightErases <;> exact .fails _

end LazyConfig.ByName
