import LazyConfig.Proofs.Lists.Productions
import LazyConfig.Proofs.Prelude.Members

/-!
Walks along lists that are made one cell at a time. From a cell that has just been made, a walk takes one look
after the other at what the list is made from; besides that nothing is evaluated but the list itself.
-/

namespace LazyConfig

/-- What is seen at a position, as a look there. -/
def Look.ofSight {Element Position : Type} : Option (Element × Position) → Look Element Position
  | some (element, rest) => .item element rest
  | none => .finished

/-- A walk from a cell with one element looks at nothing but the element, or asks for what is behind it. -/
theorem Sequence.of_cell {context : Context} {meter : DepthMeter} {store after : Store}
    {first others : ThunkId} {entries : List Visible} {closing : Closing}
    (walk : Sequence context meter store (.concat (.ofThunks [first]) others) entries closing after) :
    ∃ behind, entries = .thunk first :: behind ∧
      ((behind = [] ∧ closing = .more ∧ after = store) ∨
        (∃ items between, ForcesTo context meter store others (.list items) between ∧
          Sequence context meter between items behind closing after) ∨
        (∃ failure, FailsWith context meter store others failure after ∧ behind = [] ∧
          closing = .upset failure) ∨
        ∃ value, ForcesTo context meter store others value after ∧ value.kind ≠ .list) := by
  -- The front holds one element, so a walk along it passes that element and no other.
  have alone {found : List Visible} {ending : Closing} {last : Store}
      (front : Sequence context meter store (.ofThunks [first]) found ending last) :
      found = [.thunk first] ∧ last = store ∧ (ending = .more ∨ ending = .finished) := by
    cases front with
    | elemEnd none => simp at none
    | elemLast here =>
      obtain rfl := Option.some.inj here
      exact ⟨rfl, rfl, .inl rfl⟩
    | elemNext here rest =>
      obtain rfl := Option.some.inj here
      cases rest with
      | elemEnd none => exact ⟨rfl, rfl, .inr rfl⟩
      | elemLast none | elemNext none => simp at none
  -- What is behind the front is not asked for, gives another list, fails, or is no list.
  cases walk with
  | left front within =>
    obtain ⟨rfl, rfl, more | finished⟩ := alone front
    · exact ⟨[], rfl, .inl ⟨rfl, more, rfl⟩⟩
    · exact absurd finished within
  | right front forces back =>
    obtain ⟨rfl, rfl, -⟩ := alone front
    exact ⟨_, rfl, .inr (.inl ⟨_, _, forces, back⟩)⟩
  | fails front fails =>
    obtain ⟨rfl, rfl, -⟩ := alone front
    exact ⟨[], rfl, .inr (.inr (.inl ⟨_, fails, rfl, rfl⟩))⟩
  | noList front forces other =>
    obtain ⟨rfl, rfl, -⟩ := alone front
    exact ⟨[], rfl, .inr (.inr (.inr ⟨_, forces, other⟩))⟩

namespace Source

variable (source : Source)

/--
Looks at one position after the other, up to a closing. Before and after each look nothing changes but what is
behind the cell that it is made for, no function of the host is called, and the next cell is a new one.
-/
inductive Along (looks : Store → Store → source.Position → Look source.Element source.Position → Store → Prop) :
    ThunkId → Store → source.Position → List source.Element → Closing → Store → Prop
  /-- What is behind the last element has not been asked for. -/
  | more {own : ThunkId} {store : Store} {position : source.Position} :
    Along looks own store position [] .more store
  | finished {own : ThunkId} {store ready between after : Store} {position : source.Position}
    (begun : store.Spares own ready) (looked : looks store ready position .finished between)
    (kept : between.Spares own after) : Along looks own store position [] .finished after
  | upset {own : ThunkId} {store ready between after : Store} {position : source.Position} {failure : Upset}
    (begun : store.Spares own ready) (looked : looks store ready position (.upset failure) between)
    (kept : between.Spares own after) : Along looks own store position [] (.upset failure) after
  | item {own next : ThunkId} {store ready between middle after : Store} {position rest : source.Position}
    {element : source.Element} {elements : List source.Element} {closing : Closing}
    (begun : store.Spares own ready) (looked : looks store ready position (.item element rest) between)
    (kept : between.Spares own middle) (added : store.cells.size ≤ next)
    (others : Along looks next middle rest elements closing after) :
    Along looks own store position (element :: elements) closing after

/-- Asking for what is behind a cell takes a look of a given kind, for walks on a given level. -/
def TakesLooks (context : Context) (meter : DepthMeter)
    (looks : Store → Store → source.Position → Look source.Element source.Position → Store → Prop) : Prop :=
  ∀ {store position element rest first others work},
    source.Cell store position element rest first others → store.cell others = .suspended work →
    ∃ ready own, source.Advances context meter store others rest ready own ∧
      ∀ look between, own look between → looks store ready rest look between

/-- Where what is behind a cell is visible, asking for it calls nothing and evaluates nothing else. -/
structure Peeks (context : Context) (meter : DepthMeter)
    (sees : Store → source.Position → Option (source.Element × source.Position) → Prop) : Prop where
  later : ∀ {before after position sight}, before.Precedes after → sees before position sight →
    sees after position sight
  look : ∀ {store position element rest first others work sight},
    source.Cell store position element rest first others → store.cell others = .suspended work →
    sees store rest sight → ∃ ready own between,
      source.Advances context meter store others rest ready own ∧ own (Look.ofSight sight) between ∧
      store.Spares others between

/-- The elements from a position to the end, all of them visible. -/
inductive Seen (sees : Store → source.Position → Option (source.Element × source.Position) → Prop)
    (store : Store) : source.Position → List source.Element → Prop
  | finished {position : source.Position} (ends : sees store position none) : Seen sees store position []
  | item {position rest : source.Position} {element : source.Element} {elements : List source.Element}
    (here : sees store position (some (element, rest))) (others : Seen sees store rest elements) :
    Seen sees store position (element :: elements)

variable {source} {context : Context} {meter : DepthMeter} {store between after : Store}
  {position rest : source.Position} {element : source.Element} {first others : ThunkId} {work : Suspension}
  {elements : List source.Element} {closing : Closing}
  {looks : Store → Store → source.Position → Look source.Element source.Position → Store → Prop}
  {sees : Store → source.Position → Option (source.Element × source.Position) → Prop}

/-- Before a look only what is behind the cell is begun. -/
theorem Advances.spares {ready : Store} {own : Look source.Element source.Position → Store → Prop}
    (advances : source.Advances context meter store others rest ready own) : store.Spares others ready :=
  (Store.Spares.set store others .inProgress).trans (.of_extends advances.grown advances.calls)

/-- After a look a list is made of it, and what is behind the cell comes to it. -/
theorem Step.spares {look : Look source.Element source.Position} {outcome : Outcome} {before : Store}
    (step : source.Step before position look outcome after) (cell : LazyConfig.Cell) :
    before.Spares others (after.set others cell) :=
  (Store.Spares.of_extends step.grown.1 step.grown.2).trans (.set _ _ _)

/-- What a walk does behind a new cell: it takes a look, and goes on from the cell that is made of it. -/
theorem Along.of_walk (takes : source.TakesLooks context meter looks)
    (precedes : ∀ {store ready position look after}, looks store ready position look after → ready.Precedes after)
    (fresh : source.Fresh store position element rest first others) {entries : List Visible}
    (walk : Sequence context meter store (.concat (.ofThunks [first]) others) entries closing after) :
    ∃ (ids : List ThunkId) (elements : List source.Element), entries = (first :: ids).map .thunk ∧
      ids.length = elements.length ∧ source.Along looks others store rest elements closing after := by
  -- Each step of the walk leaves fewer entries for what is behind it.
  induction size : entries.length using Nat.strongRecOn
    generalizing store position element rest first others entries with
  | _ count ih =>
    obtain ⟨work, waits⟩ := fresh.others
    obtain ⟨ready, own, advances, kind⟩ := takes fresh.cell waits
    -- Behind the first element the walk stops, or it asks for what is behind, which takes one look.
    obtain ⟨behind, rfl, ⟨rfl, rfl, rfl⟩ | ⟨items, between, forces, back⟩ | ⟨failure, fails, rfl, rfl⟩ |
      ⟨value, forces, other⟩⟩ := walk.of_cell
    · exact ⟨[], [], rfl, rfl, .more⟩
    · have brings : Brings context meter store (.force others) (.ok (.list items)) between := forces
      obtain ⟨look, between', last, looked, step, order, rfl⟩ := advances.comes brings
      have inside : others < between'.cells.size := Nat.lt_of_lt_of_le
        (Store.lt_size_of_cell waits (by simp)) (Nat.le_trans advances.spares.size (precedes (kind _ _ looked)).1)
      cases look with
      | finished =>
        obtain ⟨same, rfl⟩ := Step.of_finished step
        obtain rfl := Value.list.inj (Except.ok.inj same)
        cases back with
        | elemEnd => exact ⟨[], [], rfl, rfl, .finished advances.spares (kind _ _ looked) (.set _ _ _)⟩
        | elemLast none | elemNext none => simp at none
      | upset failure => cases Step.of_upset step
      | item element' rest' =>
        obtain ⟨first', others', given, makes⟩ := Step.of_item step
        obtain rfl := Value.list.inj (Except.ok.inj given)
        obtain ⟨ids, elements, rfl, length, along⟩ := ih _ (by simp at size; omega)
          (makes.stays order inside) back rfl
        have added : store.cells.size ≤ others' :=
          Nat.le_trans advances.spares.size (Nat.le_trans (precedes (kind _ _ looked)).1 makes.added.2)
        exact ⟨first' :: ids, element' :: elements, rfl, congrArg Nat.succ length,
          .item advances.spares (kind _ _ looked) (step.spares _) added along⟩
    · have brings : Brings context meter store (.force others) (.error failure) after := fails
      obtain ⟨look, between, last, looked, step, -, rfl⟩ := advances.comes brings
      cases look with
      | finished => cases (Step.of_finished step).1
      | upset failure' =>
        obtain rfl := Except.error.inj (Step.of_upset step)
        exact ⟨[], [], rfl, rfl, .upset advances.spares (kind _ _ looked) (step.spares _)⟩
      | item => cases step
    · -- What is made is a list.
      have brings : Brings context meter store (.force others) (.ok value) after := forces
      obtain ⟨look, between, last, -, step, -, -⟩ := advances.comes brings
      cases step
      all_goals exact absurd rfl other

/-- What can be seen stays so. -/
theorem Seen.later (peeks : source.Peeks context meter sees) (order : store.Precedes after)
    (seen : source.Seen sees store position elements) : source.Seen sees after position elements := by
  induction seen with
  | finished ends => exact .finished (peeks.later order ends)
  | item here others ih => exact .item (peeks.later order here) ih

/-- A look at what is visible makes a list of it, and nothing else is evaluated. -/
theorem Peeks.forces (peeks : source.Peeks context meter sees) {sight : Option (source.Element × source.Position)}
    (cell : source.Cell store position element rest first others) (waits : store.cell others = .suspended work)
    (here : sees store rest sight) :
    ∃ before outcome after, source.Step before rest (Look.ofSight sight) outcome after ∧
      after.Precedes (after.set others (.ended outcome)) ∧
      Brings context meter store (.force others) outcome (after.set others (.ended outcome)) ∧
      store.Spares others before ∧ store.Spares others (after.set others (.ended outcome)) := by
  obtain ⟨ready, own, before, advances, looked, spares⟩ := peeks.look cell waits here
  obtain ⟨outcome, after, step, order, brings⟩ := advances.brings looked
  exact ⟨before, outcome, after, step, order, brings, spares, spares.trans (step.spares _)⟩

/--
Where all that a list is made from is visible from a cell on, a walk comes to its end. It comes to as many
elements, which are put off, and evaluates nothing but the list itself.
-/
theorem Seen.walk_behind (peeks : source.Peeks context meter sees)
    (cell : source.Cell store position element rest first others) (waits : store.cell others = .suspended work)
    (seen : source.Seen sees store rest elements) :
    ∃ (items : LazyList) (between : Store) (ids : List ThunkId) (after : Store),
      ForcesTo context meter store others (.list items) between ∧
      Sequence context meter between items (ids.map .thunk) .finished after ∧ ids.length = elements.length ∧
      (∀ id ∈ ids, ∃ work, after.cell id = .suspended work) ∧ store.Spares others after := by
  -- By induction on what is visible: each sight is one more cell, and the walk behind it sees one
  -- element less.
  induction elements generalizing store position element rest first others work with
  | nil =>
    cases seen with
    | finished ends =>
      obtain ⟨before, outcome, after, step, -, brings, -, spares⟩ := peeks.forces cell waits ends
      obtain ⟨rfl, rfl⟩ := Step.of_finished step
      exact ⟨_, _, [], _, brings, .elemEnd rfl, rfl, by simp, spares⟩
  | cons other elements ih =>
    cases seen with
    | item here behind =>
      obtain ⟨before, outcome, between, step, order, brings, early, spares⟩ := peeks.forces cell waits here
      obtain ⟨first', others', rfl, makes⟩ := Step.of_item step
      have inside : others < before.cells.size :=
        Nat.lt_of_lt_of_le (Store.lt_size_of_cell waits (by simp)) early.size
      have fresh := makes.stays order inside
      have added : store.cells.size ≤ others' := Nat.le_trans early.size makes.added.2
      obtain ⟨work', own⟩ := fresh.first
      obtain ⟨work'', waits'⟩ := fresh.others
      obtain ⟨items, middle, ids, after, forces, sequence, count, idle, spares'⟩ :=
        ih fresh.cell waits' (behind.later peeks brings.precedes)
      refine ⟨_, _, first' :: ids, after, brings, .right (.elemNext rfl (.elemEnd rfl)) forces sequence,
        congrArg Nat.succ count, List.forall_mem_cons.mpr ⟨⟨work', ?_⟩, idle⟩, spares.trans_added spares' added⟩
      rw [spares'.cells first' (Store.lt_size_of_cell own (by simp)) makes.apart, own]

/-- A walk from the cell itself comes to its element first. -/
theorem Seen.walk (peeks : source.Peeks context meter sees)
    (cell : source.Cell store position element rest first others) (waits : store.cell others = .suspended work)
    (seen : source.Seen sees store rest elements) :
    ∃ (ids : List ThunkId) (after : Store), Sequence context meter store (.concat (.ofThunks [first]) others)
        ((first :: ids).map .thunk) .finished after ∧
      ids.length = elements.length ∧ store.Spares others after ∧
      ∀ id ∈ ids, ∃ work, after.cell id = .suspended work := by
  obtain ⟨items, between, ids, after, forces, sequence, count, idle, spares⟩ :=
    seen.walk_behind peeks cell waits
  exact ⟨ids, after, .right (.elemNext rfl (.elemEnd rfl)) forces sequence, count, spares, idle⟩

end Source

end LazyConfig
