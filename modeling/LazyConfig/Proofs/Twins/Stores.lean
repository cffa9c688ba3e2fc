import LazyConfig.Machine.Suspend
import LazyConfig.Proofs.Twins.Relation
import LazyConfig.Value.Check

/-!
The operations on stores, on two stores of paired computations. What is added to both is paired; what
else is in the second store stays as it is.
-/

namespace LazyConfig

/-- Paired computations are there, each in one pair only, and have come equally far. -/
structure Twins (pairs : Pairing) (left right : Store) : Prop where
  inside : ∀ id other, pairs id other → id < left.cells.size ∧ other < right.cells.size
  matched : ∀ {id other first second}, pairs id other → pairs first second →
    (id = first ↔ other = second)
  cells : ∀ id other, pairs id other → CellTwin pairs (left.cell id) (right.cell other)

/-- New pairs are of new computations, and those in no pair are left alone. -/
structure Pairing.Grows (pairs : Pairing) (right : Store) (more : Pairing) (after : Store) :
    Prop where
  keeps : ∀ id other, pairs id other → more id other
  fresh : ∀ id other, more id other → pairs id other ∨ right.cells.size ≤ other
  size : right.cells.size ≤ after.cells.size
  alone : ∀ other < right.cells.size, (∀ id, ¬ pairs id other) → after.cell other = right.cell other

namespace Pairing.Grows

variable {pairs middle more : Pairing} {first second third : Store}

theorem refl (pairs : Pairing) (right : Store) : pairs.Grows right pairs right :=
  ⟨fun _ _ paired => paired, fun _ _ => .inl, Nat.le_refl _, fun _ _ _ => rfl⟩

/-- What is in no pair stays in none. -/
theorem single (grows : pairs.Grows first more second) {other : ThunkId}
    (inside : other < first.cells.size) (alone : ∀ id, ¬ pairs id other) (id : ThunkId) :
    ¬ more id other := by
  intro paired
  rcases grows.fresh id other paired with earlier | late
  · exact alone id earlier
  · exact absurd inside (Nat.not_lt.mpr late)

theorem trans (left : pairs.Grows first middle second) (right : middle.Grows second more third) :
    pairs.Grows first more third := by
  refine ⟨fun id other paired => right.keeps id other (left.keeps id other paired), ?_,
    Nat.le_trans left.size right.size, fun other inside alone => ?_⟩
  · intro id other paired
    rcases right.fresh id other paired with earlier | late
    · exact left.fresh id other earlier
    · exact .inr (Nat.le_trans left.size late)
  · -- What is in no pair at first is in none in between either, so that it is left alone twice.
    rw [right.alone other (Nat.lt_of_lt_of_le inside left.size) (left.single inside alone),
      left.alone other inside alone]

end Pairing.Grows

/-- After an operation on both stores they are twins for more pairs, of which something holds. -/
def TwinsAfter (pairs : Pairing) (right after later : Store) (holds : Pairing → Prop) : Prop :=
  ∃ more, pairs.Grows right more later ∧ Twins more after later ∧ holds more

namespace TwinsAfter

variable {pairs : Pairing} {left right after later last final : Store}
  {holds others : Pairing → Prop}

/-- An operation that does nothing to the computations. -/
theorem same (twins : Twins pairs left right) (true : holds pairs) :
    TwinsAfter pairs right left right holds :=
  ⟨pairs, .refl pairs right, twins, true⟩

/-- One operation after another. -/
theorem bind (first : TwinsAfter pairs right after later holds)
    (next : ∀ more, pairs.Grows right more later → Twins more after later → holds more →
      TwinsAfter more later last final others) : TwinsAfter pairs right last final others := by
  obtain ⟨middle, grown, twins, true⟩ := first
  obtain ⟨more, further, result⟩ := next middle grown twins true
  exact ⟨more, grown.trans further, result⟩

theorem imp (first : TwinsAfter pairs right after later holds)
    (follows : ∀ more, pairs.Grows right more later → holds more → others more) :
    TwinsAfter pairs right after later others := by
  obtain ⟨more, grown, twins, true⟩ := first
  exact ⟨more, grown, twins, follows more grown true⟩

end TwinsAfter

/-- Results of the same form, or the same fault. -/
inductive ResultTwin {α β : Type} (same : α → β → Prop) : Except Fault α → Except Fault β → Prop
  | ok {result : α} {other : β} (agree : same result other) : ResultTwin same (.ok result) (.ok other)
  | error (fault : Fault) : ResultTwin same (.error fault) (.error fault)

/-- Results that are made from results of the same form. -/
theorem ResultTwin.map {α β : Type} {same : α → β → Prop} {γ δ : Type} {alike : γ → δ → Prop}
    {result : Except Fault α} {other : Except Fault β} (agree : ResultTwin same result other)
    {make : α → γ} {makeOther : β → δ} (made : ∀ {value image}, same value image → alike (make value) (makeOther image)) :
    ResultTwin alike (result.map make) (other.map makeOther) := by
  cases agree with
  | ok agree => exact .ok (made agree)
  | error fault => exact .error fault

namespace Twins

variable {pairs : Pairing} {left right : Store}

/-- What is not paired yet can be. -/
theorem add_of_not_paired (twins : Twins pairs left right) {id other first second : ThunkId}
    (one : pairs.add left.cells.size right.cells.size id other)
    (two : pairs.add left.cells.size right.cells.size first second) :
    id = first ↔ other = second := by
  -- The place of a new computation is the size of the store, where no computation was before.
  rcases one with one | ⟨rfl, rfl⟩
  · rcases two with two | ⟨rfl, rfl⟩
    · exact twins.matched one two
    · have less := twins.inside id other one
      exact ⟨fun same => absurd same (Nat.ne_of_lt less.1), fun same => absurd same (Nat.ne_of_lt less.2)⟩
  · rcases two with two | ⟨rfl, rfl⟩
    · have less := twins.inside first second two
      exact ⟨fun same => absurd same (Nat.ne_of_gt less.1), fun same => absurd same (Nat.ne_of_gt less.2)⟩
    · exact ⟨fun _ => rfl, fun _ => rfl⟩

/-- New computations of the same kind are paired. -/
theorem alloc (twins : Twins pairs left right) {cell other : Cell}
    (same : CellTwin (pairs.add left.cells.size right.cells.size) cell other) :
    TwinsAfter pairs right (left.alloc cell).2 (right.alloc other).2 fun more =>
      more (left.alloc cell).1 (right.alloc other).1 := by
  refine ⟨pairs.add left.cells.size right.cells.size, ⟨fun _ _ => .inl, ?_, ?_, ?_⟩, ⟨?_, ?_, ?_⟩, ?_⟩
  · -- The only new pair is the one of the new computations.
    rintro id image (paired | ⟨rfl, rfl⟩)
    · exact .inl paired
    · exact .inr (Nat.le_refl _)
  · -- Both stores have become larger by one.
    rw [Store.alloc_size]
    exact Nat.le_succ _
  · exact fun image inside _ => (right.alloc_extends other).2 image inside
  · -- The pairs that were there lie below the places of the new ones.
    rintro id image (paired | ⟨rfl, rfl⟩)
    · have less := twins.inside id image paired
      rw [Store.alloc_size, Store.alloc_size]
      exact ⟨Nat.lt_succ_of_lt less.1, Nat.lt_succ_of_lt less.2⟩
    · rw [Store.alloc_size, Store.alloc_size]
      exact ⟨Nat.lt_succ_self _, Nat.lt_succ_self _⟩
  · exact twins.add_of_not_paired
  · -- The computations that were there have not changed, and the new ones are as they were added.
    rintro id image (paired | ⟨rfl, rfl⟩)
    · have less := twins.inside id image paired
      rw [(left.alloc_extends cell).2 id less.1, (right.alloc_extends other).2 image less.2]
      exact (twins.cells id image paired).mono fun _ _ => .inl
    · rw [Store.cell_alloc, Store.cell_alloc, if_pos rfl, if_pos rfl]
      exact same
  · rw [Store.alloc_fst, Store.alloc_fst]
    exact .inr ⟨rfl, rfl⟩

/-- Paired computations may come further together. -/
theorem set (twins : Twins pairs left right) {id other : ThunkId} (paired : pairs id other)
    {cell image : Cell} (same : CellTwin pairs cell image) :
    pairs.Grows right pairs (right.set other image) ∧
      Twins pairs (left.set id cell) (right.set other image) := by
  -- No pair is added, and the order of the stores is unchanged, so only the changed cells need a
  -- look.
  refine ⟨⟨fun _ _ paired => paired, fun _ _ => .inl, ?_, ?_⟩, ⟨?_, twins.matched, ?_⟩⟩
  · exact Nat.le_of_eq (Store.set_size ..).symm
  · -- A computation in no pair is another than the one that comes further.
    intro single _ alone
    refine Store.cell_set_of_ne (fun here => ?_) image
    rw [here] at alone
    exact alone id paired
  · intro first second paired
    rw [Store.set_size, Store.set_size]
    exact twins.inside first second paired
  · -- Since each is in one pair only, the two that come further are changed together.
    intro first second together
    have less := twins.inside id other paired
    by_cases here : first = id
    · obtain rfl := here
      obtain rfl := (twins.matched together paired).mp rfl
      rw [Store.cell_set_self less.1, Store.cell_set_self less.2]
      exact same
    · have there : second ≠ other := fun same => here ((twins.matched together paired).mpr same)
      rw [Store.cell_set_of_ne here, Store.cell_set_of_ne there]
      exact twins.cells first second together

/-- Only the computations of a store matter for twins. -/
theorem of_cells (twins : Twins pairs left right) {after later : Store}
    (same : after.cells = left.cells) (other : later.cells = right.cells) :
    pairs.Grows right pairs later ∧ Twins pairs after later := by
  have lefts (id : ThunkId) : after.cell id = left.cell id := by rw [Store.cell, Store.cell, same]
  have rights (id : ThunkId) : later.cell id = right.cell id := by rw [Store.cell, Store.cell, other]
  refine ⟨⟨fun _ _ paired => paired, fun _ _ => .inl, ?_, fun id _ _ => rights id⟩, ?_,
    twins.matched, ?_⟩
  · exact Nat.le_of_eq (congrArg Array.size other.symm)
  · intro id image paired
    rw [same, other]
    exact twins.inside id image paired
  · intro id image paired
    rw [lefts, rights]
    exact twins.cells id image paired

theorem ready (twins : Twins pairs left right) {value other : Value}
    (same : ValueTwin pairs value other) :
    TwinsAfter pairs right (left.ready value).2 (right.ready other).2 fun more =>
      more (left.ready value).1 (right.ready other).1 :=
  twins.alloc (.forced (same.mono fun _ _ => .inl))

theorem suspend (twins : Twins pairs left right) {work other : Suspension}
    (same : SuspensionTwin pairs work other) :
    TwinsAfter pairs right (left.suspend work).2 (right.suspend other).2 fun more =>
      more (left.suspend work).1 (right.suspend other).1 :=
  twins.alloc (.suspended (same.mono fun _ _ => .inl))

/-- Functions that are made in both stores have the same form. -/
theorem closure (twins : Twins pairs left right) (param : Name) (body : ExprId) {env bound : Env}
    (binds : EnvTwin pairs env bound) :
    TwinsAfter pairs right (left.closure param body env).2 (right.closure param body bound).2
      fun more => ValueTwin more (left.closure param body env).1 (right.closure param body bound).1 := by
  have both : pairs.Grows right pairs (right.closure param body bound).2 ∧
      Twins pairs (left.closure param body env).2 (right.closure param body bound).2 :=
    twins.of_cells rfl rfl
  exact ⟨pairs, both.1, both.2, .closure binds⟩

/-- Calls that are noted do not matter. -/
theorem record (twins : Twins pairs left right) (call other : HostCall) :
    pairs.Grows right pairs (right.record other) ∧ Twins pairs (left.record call) (right.record other) :=
  twins.of_cells rfl rfl

/-- Values that are the same in both stores. -/
theorem readyAll (twins : Twins pairs left right) {values others : List Value}
    (same : WorkTwin pairs values others) :
    TwinsAfter pairs right (left.readyAll values).2 (right.readyAll others).2 fun more =>
      List.Forall₂ more (left.readyAll values).1 (right.readyAll others).1 := by
  -- The others are added to the stores that the first value leaves.
  induction values generalizing pairs left right others with
  | nil =>
    cases same
    exact .same twins .nil
  | cons value rest ih =>
    cases same with
    | cons first works =>
      refine (twins.ready first).bind fun middle grown between here => ?_
      refine (ih between (WorkTwin.mono grown.keeps works)).imp fun more further others => ?_
      exact .cons (further.keeps _ _ here) others

theorem fieldsOf (twins : Twins pairs left right) {record other : Record}
    (same : RecordTwin pairs record other) :
    TwinsAfter pairs right (left.fieldsOf record).2 (right.fieldsOf other).2 fun more =>
      ListTwin more (left.fieldsOf record).1 (right.fieldsOf other).1 := by
  -- The fields become texts, and the two records have the same ones.
  have names : record.names = other.names := same.keys
  have texts : WorkTwin pairs (record.names.map .str) (other.names.map .str) := by
    rw [names, WorkTwin, List.forall₂_map_left_iff, List.forall₂_map_right_iff, List.forall₂_same]
    exact fun name _ => .str name
  exact (twins.readyAll texts).imp fun more _ paired => .ofThunks paired

theorem mapEntries (twins : Twins pairs left right) {func other : ThunkId} (paired : pairs func other)
    {entries others : List Entry} (same : EntriesAgree pairs entries others) :
    TwinsAfter pairs right (left.mapEntries func entries).2 (right.mapEntries other others).2
      fun more => EntriesAgree more (left.mapEntries func entries).1 (right.mapEntries other others).1 := by
  induction entries generalizing pairs left right others with
  | nil =>
    cases same
    exact .same twins .nil
  | cons entry rest ih =>
    cases same with
    | @cons _ image _ _ first agree =>
      obtain ⟨name, id⟩ := entry
      obtain ⟨_, field⟩ := image
      obtain ⟨rfl, here⟩ := first
      -- The name gets a place first, then the application of the function to it and to the field.
      refine (twins.ready (.str name)).bind fun middle grown between key => ?_
      have work : SuspensionTwin middle (.apply func [(left.ready (.str name)).1, id])
          (.apply other [(right.ready (.str name)).1, field]) :=
        .apply (grown.keeps _ _ paired) (.cons key (.cons (grown.keeps _ _ here) .nil))
      refine (between.suspend work).bind fun next further after mapped => ?_
      have both := grown.trans further
      refine (ih after (both.keeps _ _ paired) (agree_mono both.keeps agree)).imp
        fun more last others => ?_
      exact .cons ⟨rfl, last.keeps _ _ mapped⟩ others

theorem mapFields (twins : Twins pairs left right) {func other : ThunkId} (paired : pairs func other)
    {record image : Record} (same : RecordTwin pairs record image) :
    TwinsAfter pairs right (left.mapFields func record).2 (right.mapFields other image).2
      fun more => RecordTwin more (left.mapFields func record).1 (right.mapFields other image).1 :=
  (twins.mapEntries paired same).imp fun _ _ agree => .ofEntries agree

/-! Checks. -/

variable (graph : TypeGraph)

theorem wrap (twins : Twins pairs left right) {inner other : ThunkId} (paired : pairs inner other)
    (type : TypeId) (path : Path) :
    TwinsAfter pairs right (left.wrap graph inner type path).2 (right.wrap graph other type path).2
      fun more => more (left.wrap graph inner type path).1 (right.wrap graph other type path).1 := by
  unfold Store.wrap
  -- A type that accepts everything needs no check, whatever the computation.
  split
  · exact .same twins paired
  · exact twins.suspend (.check type path paired)

theorem wrapAll (twins : Twins pairs left right) (type : TypeId) (path : Path)
    {entries others : List Entry} (same : EntriesAgree pairs entries others) :
    TwinsAfter pairs right (left.wrapAll graph type path entries).2
      (right.wrapAll graph type path others).2 fun more =>
        EntriesAgree more (left.wrapAll graph type path entries).1
          (right.wrapAll graph type path others).1 := by
  induction entries generalizing pairs left right others with
  | nil =>
    cases same
    exact .same twins .nil
  | cons entry rest ih =>
    cases same with
    | @cons _ image _ _ first agree =>
      obtain ⟨name, id⟩ := entry
      obtain ⟨_, field⟩ := image
      obtain ⟨rfl, here⟩ := first
      refine (twins.wrap graph here type (path.field name)).bind fun middle grown between checked => ?_
      -- The first field is wrapped in both stores, and the others in what that leaves.
      refine (ih between (agree_mono grown.keeps agree)).imp fun more further others => ?_
      exact .cons ⟨rfl, further.keeps _ _ checked⟩ others

/-- The declared fields of both records are put off, or the same one is missing. -/
theorem wrapDeclared (twins : Twins pairs left right) (names : NameTable) {record other : Record}
    (same : RecordTwin pairs record other) (path : Path) (fields : List (Name × TypeId)) :
    TwinsAfter pairs right (left.wrapDeclared names graph record path fields).2
      (right.wrapDeclared names graph other path fields).2 fun more =>
        ResultTwin (EntriesAgree more) (left.wrapDeclared names graph record path fields).1
          (right.wrapDeclared names graph other path fields).1 := by
  induction fields generalizing pairs left right with
  | nil => exact .same twins (.ok .nil)
  | cons field rest ih =>
    obtain ⟨name, type⟩ := field
    -- A declared field is found in both records or is missing in both.
    have looked := same.lookup (names.lookup name)
    simp only [Store.wrapDeclared]
    rw [Record.get?, Record.get?]
    generalize record.entries.lookup (names.lookup name) = found at looked
    generalize other.entries.lookup (names.lookup name) = there at looked
    cases looked with
    | none => exact .same twins (.error _)
    | some paired =>
      dsimp only
      refine (twins.wrap graph paired type (path.field (names.lookup name))).bind
        fun middle grown between checked => ?_
      obtain ⟨more, further, still, results⟩ := ih between (agree_mono grown.keeps same)
      -- The whole comes to nothing where the later fields do.
      generalize Store.wrapDeclared _ names graph record path rest = outcome at further still results
      generalize Store.wrapDeclared _ names graph other path rest = result at further still results
      obtain ⟨outcome, after⟩ := outcome
      obtain ⟨result, later⟩ := result
      cases results with
      | error fault => exact ⟨more, further, still, .error fault⟩
      | ok agree => exact ⟨more, further, still, .ok (.cons ⟨rfl, further.keeps _ _ checked⟩ agree)⟩

/-- Both records pass a check, or both fail it for the same field. -/
theorem checkRecord (twins : Twins pairs left right) (names : NameTable) {record other : Record}
    (same : RecordTwin pairs record other) (fields : List (Name × TypeId)) (path : Path) :
    TwinsAfter pairs right (left.checkRecord names graph record fields path).2
      (right.checkRecord names graph other fields path).2 fun more =>
        ResultTwin (ValueTwin more) (left.checkRecord names graph record fields path).1
          (right.checkRecord names graph other fields path).1 := by
  obtain ⟨more, grown, still, results⟩ := twins.wrapDeclared graph names same path fields
  simp only [Store.checkRecord]
  generalize left.wrapDeclared names graph record path fields = outcome at grown still results
  generalize right.wrapDeclared names graph other path fields = result at grown still results
  obtain ⟨outcome, after⟩ := outcome
  obtain ⟨result, later⟩ := result
  cases results with
  | error fault => exact ⟨more, grown, still, .error fault⟩
  | @ok entries others agree =>
    -- The fields that are declared are the same for both, and so the undeclared ones are.
    have listed (name : String) : (others.any fun entry => entry.1 == name) =
        entries.any fun entry => entry.1 == name := by
      have both := congrArg (fun names => names.any (· == name)) agree.keys
      simpa only [List.any_map, Function.comp_def] using both.symm
    have names_same : record.names = other.names := same.keys
    simp only [listed, ← names_same]
    split
    · exact ⟨more, grown, still, .error _⟩
    · exact ⟨more, grown, still, .ok (.record (.ofEntries agree))⟩

/-- Both values pass a check, or both fail it in the same way. -/
theorem check (twins : Twins pairs left right) (names : NameTable) {value other : Value}
    (same : ValueTwin pairs value other) (type : TypeId) (path : Path) :
    TwinsAfter pairs right (left.check names graph value type path).2
      (right.check names graph other type path).2 fun more =>
        ResultTwin (ValueTwin more) (left.check names graph value type path).1
          (right.check names graph other type path).1 := by
  unfold Store.check
  dsimp only
  rw [← same.kind]
  -- A check that looks only at the kind of a value ends for both values alike.
  have accepts (kind : Kind) (fault : Fault) :
      TwinsAfter pairs right
        (if value.kind = kind then (Except.ok value, left) else (.error fault, left)).2
        (if value.kind = kind then (Except.ok other, right) else (.error fault, right)).2 fun more =>
          ResultTwin (ValueTwin more)
            (if value.kind = kind then (Except.ok value, left) else (.error fault, left)).1
            (if value.kind = kind then (Except.ok other, right) else (.error fault, right)).1 := by
    split
    · exact .same twins (.ok same)
    · exact .same twins (.error fault)
  cases graph.node (graph.shape type) with
  | dyn | var => exact .same twins (.ok same)
  -- A type that is read to its end is neither an alias nor a quantified type.
  | aliasSlot | forAll => exact .same twins (.error _)
  | num | str | bool | fn => exact accepts _ _
  | list elem =>
    cases same with
    | list items =>
      -- The elements are checked one by one, as they come to be looked at.
      refine (twins.suspend (.checkList elem path 0 items)).imp fun more _ paired => ?_
      exact .ok (.list (.concat (.range 0 0) paired))
    | _ => exact .same twins (.error _)
  | record fields =>
    cases same with
    | record same => exact twins.checkRecord graph names same fields path
    | _ => exact .same twins (.error _)
  | dict elem =>
    cases same with
    | record same =>
      -- All the fields are put off with one check.
      refine (twins.wrapAll graph elem path same).imp fun more _ agree => ?_
      exact .ok (.record (.ofEntries agree))
    | _ => exact .same twins (.error _)

theorem checkCell (twins : Twins pairs left right) {head first : ThunkId} (paired : pairs head first)
    {rest others : LazyList} (same : ListTwin pairs rest others) (elem : TypeId) (path : Path)
    (index : Nat) :
    TwinsAfter pairs right (left.checkCell graph head rest elem path index).2
      (right.checkCell graph first others elem path index).2 fun more =>
        ValueTwin more (left.checkCell graph head rest elem path index).1
          (right.checkCell graph first others elem path index).1 := by
  refine (twins.wrap graph paired elem (path.index index)).bind fun middle grown between here => ?_
  refine (between.suspend (.checkList elem path (index + 1) (same.mono grown.keeps))).imp
    fun more further there => ?_
  -- The cell holds the checked element, and the check of what is left.
  exact .list (.concat (.ofThunks (.cons (further.keeps _ _ here) .nil)) there)

/-! Putting off expressions. -/

variable (context : Context)

theorem suspendExpr (twins : Twins pairs left right) {env bound : Env} (binds : EnvTwin pairs env bound)
    (id : ExprId) :
    TwinsAfter pairs right (context.suspend left id env).2 (context.suspend right id bound).2
      fun more => more (context.suspend left id env).1 (context.suspend right id bound).1 := by
  unfold Context.suspend
  cases context.code.expr id with
  -- A name stands for the computation that it is bound to, where it is bound.
  | ident name =>
    have found := binds.lookup name
    dsimp only
    rw [Env.lookup, Env.lookup]
    generalize env.bindings.lookup name = first at found
    generalize bound.bindings.lookup name = second at found
    cases found with
    | none => exact twins.suspend (.expr binds)
    | some paired => exact .same twins paired
  -- Values need no evaluation and are put there at once.
  | int value => exact twins.ready (.int value)
  | float value => exact twins.ready (.float value)
  | bool value => exact twins.ready (.bool value)
  | str text => exact twins.ready (.str _)
  | lambda param body =>
    exact (twins.closure param body binds).bind fun _ _ between made => between.ready made
  | _ => exact twins.suspend (.expr binds)

theorem suspendAll (twins : Twins pairs left right) {env bound : Env} (binds : EnvTwin pairs env bound)
    (ids : List ExprId) :
    TwinsAfter pairs right (context.suspendAll env ids left).2 (context.suspendAll bound ids right).2
      fun more => List.Forall₂ more (context.suspendAll env ids left).1
        (context.suspendAll bound ids right).1 := by
  induction ids generalizing pairs left right with
  | nil => exact .same twins .nil
  | cons id rest ih =>
    refine (twins.suspendExpr context binds id).bind fun middle grown between first => ?_
    refine (ih between (agree_mono grown.keeps binds)).imp fun more further others => ?_
    exact .cons (further.keeps _ _ first) others

theorem bindRecursive (twins : Twins pairs left right) {env bound : Env}
    (binds : EnvTwin pairs env bound) (name : Name) (value : ExprId) :
    TwinsAfter pairs right (Context.bindRecursive left env name value).2
      (Context.bindRecursive right bound name value).2 fun more =>
        EnvTwin more (Context.bindRecursive left env name value).1
          (Context.bindRecursive right bound name value).1 := by
  rw [Context.bindRecursive_eq, Context.bindRecursive_eq]
  -- In the environment of the new computation its name stands for it.
  have inside : EnvTwin (pairs.add left.cells.size right.cells.size)
      (env.bind name left.cells.size) (bound.bind name right.cells.size) :=
    EnvTwin.bind (agree_mono (fun _ _ => .inl) binds) (.inr ⟨rfl, rfl⟩) name
  refine (twins.alloc (.suspended (.expr inside))).imp fun more grown paired => ?_
  rw [Store.alloc_fst, Store.alloc_fst] at paired
  exact EnvTwin.bind (agree_mono grown.keeps binds) paired name

/-- The fields of a record literal are put off in both stores, or that fails in both. -/
theorem suspendFields (twins : Twins pairs left right) {env bound : Env}
    (binds : EnvTwin pairs env bound) (fields : List Field) {record other : Record}
    (same : RecordTwin pairs record other) :
    TwinsAfter pairs right (context.suspendFields env fields record left).2
      (context.suspendFields bound fields other right).2 fun more =>
        ResultTwin (RecordTwin more) (context.suspendFields env fields record left).1
          (context.suspendFields bound fields other right).1 := by
  induction fields generalizing pairs left right record other with
  | nil => exact .same twins (.ok same)
  | cons field rest ih =>
    simp only [Context.suspendFields]
    generalize context.names.lookup field.name = name
    refine (twins.suspendExpr context binds field.value).bind fun middle grown between first => ?_
    -- Once the value is put off, perhaps with a check, its name must be new.
    have placed {more : Pairing} {next further : Store} {value image : ThunkId}
        (added : middle.Grows (context.suspend right field.value bound).2 more further)
        (still : Twins more next further) (paired : more value image) :
        TwinsAfter middle (context.suspend right field.value bound).2
          (if record.contains name then (Except.error (Fault.duplicateField name), next)
            else context.suspendFields env rest (record.insert name value) next).2
          (if other.contains name then (Except.error (Fault.duplicateField name), further)
            else context.suspendFields bound rest (other.insert name image) further).2 fun more =>
          ResultTwin (RecordTwin more)
            (if record.contains name then (Except.error (Fault.duplicateField name), next)
              else context.suspendFields env rest (record.insert name value) next).1
            (if other.contains name then (Except.error (Fault.duplicateField name), further)
              else context.suspendFields bound rest (other.insert name image) further).1 := by
      have contains : record.contains name = other.contains name := same.isSome_lookup name
      rw [← contains]
      have both := grown.trans added
      split
      · exact ⟨more, added, still, .error _⟩
      · have inserted : RecordTwin more (record.insert name value) (other.insert name image) :=
          (agree_mono both.keeps same).place paired
        obtain ⟨last, grows, twins, agree⟩ := ih still (agree_mono both.keeps binds) inserted
        exact ⟨last, added.trans grows, twins, agree⟩
    -- The field may be written with a type, which may not have been read.
    cases field.type with
    | none => exact placed (.refl _ _) between first
    | some type =>
      dsimp only
      cases context.annotations.get? type with
      | none => exact .same between (.error _)
      | some resolved =>
        obtain ⟨more, further, still, second⟩ :=
          between.suspend (.check resolved (Path.root.field name) first)
        exact placed further still second

end Twins

end LazyConfig
