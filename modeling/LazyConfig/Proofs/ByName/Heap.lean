import LazyConfig.Proofs.ByName.Mirror

/-!
Stores whose computations do what their meanings say. Everything that is put off or made gets a
meaning of its own, and the meanings of what is there stay.
-/

namespace LazyConfig.ByName

/--
What a promise comes to by name where its computation has failed: a failure of the same kind, or
nothing at all if the computation needs itself. A computation that was refused a level says nothing.
-/
inductive Promise.Fails (context : Context) (refused : Prop) (promise : Promise) : Fault → Prop
  | own {fault : Fault} (own : fault.ordinary = true)
    (leads : Leads context (.force promise) [] (.raise fault.variant) []) :
    Fails context refused promise fault
  | circle {fault : Fault} (cause : fault = .infiniteRecursion)
    (endless : ∀ stack, Diverges context ⟨.force promise, stack⟩) :
    Fails context refused promise fault
  | refused {fault : Fault} (cause : fault.variant = .stackOverflow) (may : refused) :
    Fails context refused promise fault

/-- The computations that are under way, and whether any may have been refused a level. -/
structure Busy where
  underway : List ThunkId
  refused : Prop

/--
A computation has come to where its meaning leads: it still is to do the same, it is under way, or
it has the value that the promise gives, or it has failed as the promise does.
-/
def CellMirrors (context : Context) (busy : Busy) (meaning : Meaning) (id : ThunkId)
    (promise : Promise) : Cell → Prop
  | .suspended work => SuspensionMirrors meaning work promise
  | .inProgress => id ∈ busy.underway
  | .forced value => ∃ named, Gives context promise named ∧ ValueMirrors meaning value named
  | .failed failure => promise.Fails context busy.refused failure.fault

/-- A store in which every computation has come to where its meaning leads. -/
structure Heap (context : Context) (busy : Busy) (meaning : Meaning) (store : Store) :
    Prop where
  size : meaning.size = store.cells.size
  cells : ∀ {id promise}, Stands meaning id promise →
    CellMirrors context busy meaning id promise (store.cell id)

/-- A store that is left behind, with meanings for what was added and a result that fits them. -/
def Leaves (context : Context) (busy : Busy) (before : Meaning) (store : Store)
    (result : Meaning → Prop) : Prop :=
  ∃ after, Grows before after ∧ Heap context busy after store ∧ result after

/-- A result of an operation stands for a result by name, and a failure for one of its kind. -/
inductive ResultMirrors {α β : Type} (mirrors : α → β → Prop) :
    Except Fault α → Except Variant β → Prop
  | ok {result : α} {named : β} (mirrored : mirrors result named) :
    ResultMirrors mirrors (.ok result) (.ok named)
  | error (fault : Fault) (own : fault.ordinary = true) :
    ResultMirrors mirrors (.error fault) (.error fault.variant)

/-- An operation that leaves a store behind, with a result that stands for a result by name. -/
def Results {α β : Type} (context : Context) (busy : Busy) (before : Meaning)
    (mirrors : Meaning → α → β → Prop) (outcome : Except Fault α × Store)
    (named : Except Variant β) : Prop :=
  Leaves context busy before outcome.2 fun after => ResultMirrors (mirrors after) outcome.1 named

namespace Grows

/-- A meaning says what it says. -/
theorem refl (meaning : Meaning) : Grows meaning meaning :=
  fun _ _ stands => stands

/-- Growing twice is growing once. -/
theorem trans {first middle last : Meaning} (left : Grows first middle)
    (right : Grows middle last) : Grows first last :=
  fun id promise stands => right id promise (left id promise stands)

/-- A meaning for one more computation. -/
theorem push (meaning : Meaning) (promise : Promise) : Grows meaning (meaning.push promise) := by
  intro id other stands
  have inside : id < meaning.size := (Array.getElem?_eq_some_iff.mp stands).1
  rw [Stands, Array.getElem?_push, if_neg (Nat.ne_of_lt inside)]
  exact stands

end Grows

/-- The last computation has the meaning that was added last. -/
theorem Stands.pushed (meaning : Meaning) (promise : Promise) :
    Stands (meaning.push promise) meaning.size promise := by
  simp [Stands]

/-- A computation has one meaning only. -/
theorem Stands.unique {meaning : Meaning} {id : ThunkId} {first second : Promise}
    (left : Stands meaning id first) (right : Stands meaning id second) : first = second :=
  Option.some.inj (left.symm.trans right)

/-- Where a computation has come does not change when meanings are added. -/
theorem CellMirrors.grow {context : Context} {busy : Busy} {before after : Meaning}
    (grown : Grows before after) {id : ThunkId} {promise : Promise} {cell : Cell}
    (mirrors : CellMirrors context busy before id promise cell) :
    CellMirrors context busy after id promise cell := by
  cases cell with
  | suspended work => exact SuspensionMirrors.grow grown mirrors
  | inProgress => exact mirrors
  | forced value =>
    obtain ⟨named, gives, same⟩ := mirrors
    exact ⟨named, gives, same.grow grown⟩
  | failed error => exact mirrors

namespace Leaves

variable {context : Context} {busy : Busy} {before : Meaning} {store : Store}

/-- A store that nothing was added to. -/
theorem same {result : Meaning → Prop} (heap : Heap context busy before store)
    (holds : result before) : Leaves context busy before store result :=
  ⟨before, .refl before, heap, holds⟩

/-- A result that follows from another one. -/
theorem imp {first second : Meaning → Prop} (left : Leaves context busy before store first)
    (follows : ∀ after, Grows before after → first after → second after) :
    Leaves context busy before store second := by
  obtain ⟨after, grown, heap, holds⟩ := left
  exact ⟨after, grown, heap, follows after grown holds⟩

/-- An operation that comes after another one. -/
theorem bind {next : Store} {first second : Meaning → Prop}
    (left : Leaves context busy before store first)
    (follows : ∀ after, Grows before after → Heap context busy after store → first after →
      Leaves context busy after next second) : Leaves context busy before next second := by
  obtain ⟨middle, grown, heap, holds⟩ := left
  obtain ⟨after, later, left, result⟩ := follows middle grown heap holds
  exact ⟨after, grown.trans later, left, result⟩

end Leaves

/-- Records built from entries that stand for entries. -/
theorem EntriesStand.ofEntries {meaning : Meaning} {entries : List Entry} {named : Fields}
    (stand : EntriesStand meaning entries named) :
    EntriesStand meaning (Record.ofEntries entries).entries (Fields.ofEntries named) := by
  -- Records are built by placing entry after entry, beginning with none.
  have none : EntriesStand meaning ([] : List Entry) ([] : Fields) := .nil
  rw [Record.entries_ofEntries]
  exact none.placeAll stand

/-- A value is of the same kind as what it stands for. -/
theorem ValueMirrors.kind {meaning : Meaning} {value : LazyConfig.Value} {named : Value}
    (mirrors : ValueMirrors meaning value named) : value.kind = named.kind := by
  cases mirrors <;> rfl

/-- A list is walked from its beginning. -/
theorem ListMirrors.cursor {meaning : Meaning} {items : LazyList} {segments : List Segment}
    (listed : ListMirrors meaning items segments) :
    CursorMirrors meaning items.cursor segments :=
  ⟨segments, [], listed, .nil, by simp⟩

/-- The list of what a cursor has not passed yet. -/
theorem CursorMirrors.rest {meaning : Meaning} {cursor : Cursor} {segments : List Segment}
    (ahead : CursorMirrors meaning cursor segments) :
    ListMirrors meaning cursor.rest segments := by
  -- Each right part that waits is joined to the list of what stands before it.
  obtain ⟨front, promises, listed, stand, rfl⟩ := ahead
  obtain ⟨tree, pending⟩ := cursor
  simp only [Cursor.rest] at listed stand ⊢
  induction stand generalizing tree front with
  | nil => simpa using listed
  | cons stands _ ih =>
    have joined := ih (front ++ [.joint _]) (.concat tree _) ⟨front, _, listed, stands, rfl⟩
    simpa using joined

/-- Taking a join apart leaves what comes after a position as it is. -/
theorem CursorMirrors.join {meaning : Meaning} {left : LazyList} {right : ThunkId}
    {pending : List ThunkId} {segments : List Segment}
    (ahead : CursorMirrors meaning ⟨.concat left right, pending⟩ segments) :
    CursorMirrors meaning ⟨left, right :: pending⟩ segments := by
  obtain ⟨stretches, promises, ⟨front, promise, listed, stands, rfl⟩, stand, rfl⟩ := ahead
  exact ⟨front, promise :: promises, listed, .cons stands stand, by simp⟩

/-- The list of given elements. -/
theorem ListMirrors.ofThunks {meaning : Meaning} {ids : List ThunkId} {promises : List Promise}
    (stand : AllStand meaning ids promises) :
    ListMirrors meaning (.ofThunks ids) (promises.map .item) :=
  ⟨promises, by simpa using stand, rfl⟩

/-- The list of a record's values. -/
theorem ListMirrors.ofFields {meaning : Meaning} {record : Record} {fields : Fields}
    (stand : EntriesStand meaning record.entries fields) :
    ListMirrors meaning (.ofThunks record.thunks) (Segment.ofFields fields) := by
  have listed := ListMirrors.ofThunks stand.values
  rwa [List.map_map] at listed

namespace Heap

variable {context : Context} {busy : Busy} {meaning : Meaning} {store : Store}

/-! Adding computations. -/

/-- A computation that is added fits a meaning of its own. -/
theorem added (heap : Heap context busy meaning store) {cell : Cell} {promise : Promise}
    (mirrors : CellMirrors context busy (meaning.push promise) meaning.size promise cell) :
    Heap context busy (meaning.push promise) (store.alloc cell).2 := by
  refine ⟨by simp [heap.size], ?_⟩
  intro id other stands
  rw [Store.cell_alloc, ← heap.size]
  -- Either the meaning is of the new computation, or of one that was there before.
  rw [Stands, Array.getElem?_push] at stands
  split at stands
  · rename_i same
    obtain rfl : promise = other := by simpa using stands
    rwa [if_pos same, same]
  · rename_i different
    rw [if_neg different]
    exact (heap.cells stands).grow (.push meaning promise)

/-- A computation is added along with a meaning of its own. -/
theorem alloc (heap : Heap context busy meaning store) (cell : Cell) {promise : Promise}
    (mirrors : CellMirrors context busy (meaning.push promise) meaning.size promise cell) :
    Leaves context busy meaning (store.alloc cell).2 fun after =>
      Stands after (store.alloc cell).1 promise := by
  refine ⟨meaning.push promise, .push meaning promise, heap.added mirrors, ?_⟩
  rw [Store.alloc_fst, ← heap.size]
  exact .pushed meaning promise

/-- A computation that has a value from the start. -/
theorem ready (heap : Heap context busy meaning store) {value : LazyConfig.Value} {named : Value}
    {promise : Promise} (gives : Gives context promise named)
    (mirrors : ValueMirrors meaning value named) :
    Leaves context busy meaning (store.ready value).2 fun after =>
      Stands after (store.ready value).1 promise :=
  heap.alloc (.forced value) ⟨named, gives, mirrors.grow (.push meaning promise)⟩

/-- A computation that is put off. -/
theorem suspend (heap : Heap context busy meaning store) {work : Suspension} {promise : Promise}
    (mirrors : SuspensionMirrors meaning work promise) :
    Leaves context busy meaning (store.suspend work).2 fun after =>
      Stands after (store.suspend work).1 promise :=
  heap.alloc (.suspended work) (mirrors.grow (.push meaning promise))

/-- Making a function adds no computation. -/
theorem closure (heap : Heap context busy meaning store) (param : Name) (body : ExprId)
    (env : LazyConfig.Env) : Heap context busy meaning (store.closure param body env).2 :=
  ⟨heap.size, heap.cells⟩

/-- A promise of a value that is there gives that value. -/
theorem gives_ready (value : Value) : Gives context (.ready value) value :=
  .of_step (Control.give value).turn fun _ => rfl

/-- A promise of an expression gives what the expression evaluates to at once. -/
theorem gives_expr {id : ExprId} {named : Env} {value : Value}
    (evaluates : evalTurn context id named = (Control.give value).turn) :
    Gives context (.expr id named) value := by
  -- Forcing such a promise takes one step to the expression, and its evaluation one to the value.
  have started : Leads context (.force (.expr id named)) [] (.eval id named) [] :=
    .of_step (Control.eval id named).turn fun _ => rfl
  refine started.trans (.of_step (Control.give value).turn fun stack => ?_)
  simp [step, evaluates]

end Heap

end LazyConfig.ByName
