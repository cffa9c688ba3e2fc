import LazyConfig.Proofs.Conformance.Parts

/-!
The walk along the parts of a checked value, next to the walk along the parts of the value itself. Each
element of the one is the check of an element of the other, and they come to their ends together.
-/

namespace LazyConfig

/-! Steps along lists that do not depend on what the walk is for. -/

section

variable {context : Context} {store : Store} {meter : DepthMeter} {consumer : Consumer}
  {stack : List Frame} {front : LazyList} {pending : List ThunkId}

/-- The tail of a checked list starts with the next step along the list that is checked. -/
theorem run_tail {tail : ThunkId} {ahead : Cursor} {elem : TypeId} {path : Path} {index : Nat}
    (used : front.UsedUp)
    (waits : store.cell tail = .suspended (.checkList ahead.rest elem path index)) :
    State.run context (2 + ahead.pending.length)
        ⟨store, meter, .advance ⟨front, [tail]⟩ consumer, stack⟩ =
      ⟨store.set tail .inProgress, meter, .advance ahead (.checkCell elem path index),
        .update tail :: .spine [] consumer :: stack⟩ := by
  -- The front is used up, so that the tail is asked for, which starts to check what is ahead.
  have opened : State.run context 2 ⟨store, meter, .advance ⟨front, [tail]⟩ consumer, stack⟩ =
      ⟨store.set tail .inProgress, meter, .advance ⟨ahead.rest, []⟩ (.checkCell elem path index),
        .update tail :: .spine [] consumer :: stack⟩ := by
    rw [State.run_succ, used.step, State.run_succ]
    simp [State.run, State.step, Context.crossStep, Context.forceStep, Context.resumeStep, waits,
      LazyList.cursor]
  rw [State.run_add, opened, run_rest ahead.pending [] ahead.front, List.append_nil]

end

/-- How the walk along a checked value goes. -/
inductive Course
  /-- Along elements that may be anything. -/
  | free (demand : Demand)
  /-- Along a checked list, of which a computation produces the rest, from an index on. -/
  | list (tail : ThunkId) (elem : TypeId) (path : Path) (index : Nat)
  /-- Along the fields of a checked record. -/
  | record (parts : List Part)

namespace Course

/-- The computations that check what comes. -/
def cells : Course → List ThunkId
  | free _ => []
  | list tail _ _ _ => [tail]
  | record parts => parts.filterMap Part.cell?

/-- The elements that come belong to the types that are asked of them. -/
def Asks (names : NameTable) (graph : TypeGraph) : Course → List Data → Prop
  | free _, _ => True
  | list _ elem _ _, data => ∀ part ∈ data, Conforms names graph elem part
  | record parts, data => List.Forall₂ (fun part data => Conforms names graph part.demand.type data) parts data

/-- A failure reports rightly where one of the elements that come differs from what is asked of it. -/
def Blames (names : NameTable) (graph : TypeGraph) : Course → List Data → Fault → Prop
  | free _, _, _ => False
  | list _ elem path index, data, fault => ∃ position part, data[position]? = some part ∧
    Demand.Blames names graph ⟨path.index (index + position), elem⟩ part fault
  | record parts, data, fault => Demand.BlamesOne names graph (parts.map Part.demand) data fault

/-- What has been walked along in the end. -/
def Holds (store : Store) : Course → List Data → Prop
  | free _, _ => True
  | list tail _ _ _, data => ∃ items, store.cell tail = .forced (.list items) ∧ store.ListHolds items data
  | record parts, data => store.PartsHold (parts.map Part.outer) data

/-- Where the walk along a checked value is, next to that along the value itself. -/
inductive Follows (names : NameTable) (graph : TypeGraph) (pairs : Pairing) (right : Store) :
    Course → Cursor → Cursor → Prop
  | free {demand : Demand} {cursor other : Cursor} (accepts : ∀ data, Conforms names graph demand.type data)
    (same : CursorTwin pairs cursor other) : Follows names graph pairs right (.free demand) cursor other
  | list {tail : ThunkId} {elem : TypeId} {cursor ahead : Cursor} {front : LazyList} {path : Path}
    {index : Nat} (used : front.UsedUp)
    (waits : right.cell tail = .suspended (.checkList ahead.rest elem path index))
    (same : CursorTwin pairs cursor ahead) :
    Follows names graph pairs right (.list tail elem path index) cursor ⟨front, [tail]⟩
  | record {parts : List Part} {items others : Array ThunkId} {start begin : Nat}
    (inner : List.Forall₂ pairs (items.toList.drop start) (parts.map Part.inner))
    (outer : others.toList.drop begin = parts.map Part.outer)
    (stand : ∀ part ∈ parts, part.Stands names graph right) :
    Follows names graph pairs right (.record parts) ⟨.elems items start, []⟩ ⟨.elems others begin, []⟩

/-- What the next step along a checked value comes to, next to that along the value itself. -/
inductive Turns (context : Context) (pairs : Pairing) (right : Store) (start : DepthMeter)
    (course : Course) (other : Cursor) (after : Store) (meter : DepthMeter) :
    Option ThunkId → Cursor → Prop
  | ended {more : Pairing} {later : Store} (count : Nat) (rest : Cursor) (twins : Twins more after later)
    (moves : Moves pairs right course.cells more later [])
    (asks : course.Asks context.names context.annotations.graph [])
    (holds : ∀ last, later.Precedes last → course.Holds last [])
    (reached : ∀ work whole,
      State.run context count ⟨right, start, .advance other (.deepen work whole), []⟩ =
        ⟨later, meter, .deepen work whole, []⟩) :
    Turns context pairs right start course other after meter none rest
  | goes {more : Pairing} {later : Store} {id : ThunkId} {rest ahead : Cursor} (count : Nat) (part : Part)
    (further : Course) (twins : Twins more after later) (paired : more id part.inner)
    (stands : part.Stands context.names context.annotations.graph later)
    (follows : further.Follows context.names context.annotations.graph more later rest ahead)
    (moves : Moves pairs right course.cells more later (part.cell?.toList ++ further.cells))
    (asks : ∀ first data, course.Asks context.names context.annotations.graph (first :: data) ↔
      Conforms context.names context.annotations.graph part.demand.type first ∧
        further.Asks context.names context.annotations.graph data)
    (blames : ∀ first data fault, part.demand.Blames context.names context.annotations.graph first fault ∨
      further.Blames context.names context.annotations.graph data fault →
        course.Blames context.names context.annotations.graph (first :: data) fault)
    (holds : ∀ last first data, later.Precedes last → last.PartsHold [part.outer] [first] →
      further.Holds last data → course.Holds last (first :: data))
    (reached : ∀ work whole,
      State.run context count ⟨right, start, .advance other (.deepen work whole), []⟩ =
        ⟨later, meter, .force part.outer, [.deepItem ahead work whole]⟩) :
    Turns context pairs right start course other after meter (some id) rest

variable {context : Context} {pairs : Pairing} {right after : Store} {start meter : DepthMeter}
  {cursor other rest : Cursor} {item : Option ThunkId} {steps : Nat}

/-- Along elements that may be anything, both walks do the same. -/
theorem Turns.of_free {demand : Demand}
    (accepts : ∀ data, Conforms context.names context.annotations.graph demand.type data)
    (finds : FindsTwin context pairs right start other steps after meter item rest) :
    Turns context pairs right start (.free demand) other after meter item rest := by
  obtain ⟨more, later, image, ahead, grows, twins, rel, cursors, found⟩ := finds
  have moves : Moves pairs right [] more later [] := .of_grows grows .nil
  cases rel with
  -- Both walks have come to their ends.
  | none => exact .ended steps rest twins moves trivial (fun _ _ => trivial) fun work whole => found _ _
  -- The element is left as it is, and anything belongs to its type.
  | @some id inner paired =>
    refine .goes steps (.free inner demand) (.free demand) twins paired accepts (.free accepts cursors) moves
      (fun first data => ?_) (fun first data fault => ?_) (fun _ _ _ _ _ _ => trivial) fun work whole => found _ _
    · exact ⟨fun _ => ⟨accepts first, trivial⟩, fun _ => trivial⟩
    · -- What may be anything cannot be blamed.
      rintro (blames | blames)
      · exact blames.refuses (accepts first)
      · exact blames

/-- The end of a checked list. -/
theorem Turns.list_ended {more : Pairing} {later : Store} {tail : ThunkId} {elem : TypeId} {path : Path}
    {index count : Nat} {next : Cursor} (twins : Twins more after later)
    (moves : Moves pairs right [tail] more later [tail])
    (reached : ∀ consumer, State.run context count ⟨right, start, .advance other consumer, []⟩ =
      Context.consumeStep context.annotations.graph later meter (.checkCell elem path index) none next
        [.update tail, .spine [] consumer]) :
    Turns context pairs right start (.list tail elem path index) other after meter none rest := by
  -- The computation of the rest gets an empty list, and the walk is over when it has gone along it.
  obtain ⟨twins, moves, found, -⟩ := moves.settle twins (.refl later) List.nodup_nil nofun
    (.forced (.list .empty))
  refine .ended (count + 3) rest twins moves nofun (fun last order => ?_) fun work whole => ?_
  · exact ⟨.empty, order.forced found, .rangeEnd (by decide)⟩
  · rw [State.run_add, reached]
    rfl

/-- An element of a checked list is checked, and so is the rest when it is asked for. -/
theorem Turns.list_goes (sound : context.annotations.graph.Sound) {more : Pairing} {later : Store}
    {tail id inner : ThunkId} {elem : TypeId} {path : Path} {index count : Nat} {next : Cursor}
    (twins : Twins more after later) (moves : Moves pairs right [tail] more later [tail])
    (paired : more id inner) (cursors : CursorTwin more rest next)
    (reached : ∀ consumer, State.run context count ⟨right, start, .advance other consumer, []⟩ =
      Context.consumeStep context.annotations.graph later meter (.checkCell elem path index)
        (some inner) next [.update tail, .spine [] consumer]) :
    Turns context pairs right start (.list tail elem path index) other after meter (some id) rest := by
  -- The element is put off with its check, unless it may be anything.
  obtain ⟨part, own, asked, outer, stands, fresh⟩ := Store.wrap_part context.names sound later inner elem
    (path.index index)
  have wrapped := later.wrap_extends context.annotations.graph inner elem (path.index index)
  generalize answer : later.wrap context.annotations.graph inner elem (path.index index) = result
    at outer stands fresh wrapped
  obtain ⟨checked, middle⟩ := result
  dsimp only at outer stands fresh wrapped
  -- The check of the element, if there is one, and the computation of the rest are new.
  let work := Suspension.checkList next.rest elem path (index + 1)
  have grown : middle.Extends (middle.suspend work).2 := middle.suspend_extends work
  have size : (middle.suspend work).2.cells.size = middle.cells.size + 1 := middle.alloc_size _
  have new_nodup : (part.cell?.toList ++ [middle.cells.size]).Nodup := by
    -- The check of the element is another computation than the rest, since it is made before.
    cases found : part.cell? with
    | none => simp
    | some cell => simp [Nat.ne_of_lt (fresh cell found).2]
  have new_fresh : ∀ cell ∈ part.cell?.toList ++ [middle.cells.size],
      later.cells.size ≤ cell ∧ cell < (middle.suspend work).2.cells.size := by
    intro cell member
    rw [size]
    rcases List.mem_append.mp member with check | last
    · have bounds := fresh cell (by simpa using check)
      exact ⟨bounds.1, Nat.lt_succ_of_lt bounds.2⟩
    · rw [List.mem_singleton.mp last]
      exact ⟨wrapped.1, Nat.lt_succ_self _⟩
  let value := Value.list (.concat (.ofThunks [checked]) middle.cells.size)
  obtain ⟨twins, moves, found, alone⟩ := moves.settle twins (wrapped.trans grown) new_nodup new_fresh
    (.forced value)
  have waits : ((middle.suspend work).2.set tail (.forced value)).cell middle.cells.size =
      .suspended work := by
    rw [alone _ wrapped.1, Store.suspend, Store.cell_alloc, if_pos rfl]
  have passed : (LazyList.elems #[checked] 1).UsedUp := rfl
  refine .goes (count + 4) part (.list middle.cells.size elem path (index + 1)) twins (own ▸ paired) ?_
    (.list passed waits cursors) moves (fun first data => ?_) (fun first data fault => ?_)
    (fun last first data order hold rest => ?_) fun purpose whole => ?_
  · -- The check of the element stays put off when the rest is added and settled.
    exact (stands.extend grown).keep fun cell check => alone cell (fresh cell check).1
  · rw [asked]
    exact List.forall_mem_cons
  · -- The element is the first one that is left, and those behind it are counted from the next index.
    rw [asked]
    rintro (blames | ⟨position, other, listed, blames⟩)
    · exact ⟨0, first, rfl, blames⟩
    · refine ⟨position + 1, other, listed, ?_⟩
      rwa [← Nat.add_right_comm, Nat.add_assoc] at blames
  · -- What the rest holds in the end comes after what the element holds.
    obtain ⟨items, rest_found, listed⟩ := rest
    rw [outer] at hold
    exact ⟨_, order.forced found, .concat (Store.ListHolds.of_thunks.mpr hold) rest_found listed⟩
  · rw [State.run_add, reached, outer]
    simp [Context.consumeStep, Store.checkCell, answer, State.run, State.step, Context.giveStep,
      Context.advanceStep, LazyList.ofThunks]
    exact ⟨rfl, rfl⟩

/-- Along a checked list, each step asks for the next part of the computation that checks it. -/
theorem Turns.of_list (sound : context.annotations.graph.Sound) {tail : ThunkId} {elem : TypeId}
    {ahead : Cursor} {front : LazyList} {path : Path} {index : Nat} (used : front.UsedUp)
    (waits : right.cell tail = .suspended (.checkList ahead.rest elem path index))
    (apart : Apart pairs right [tail])
    (finds : FindsTwin context pairs (right.set tail .inProgress) start ahead steps after meter item rest) :
    Turns context pairs right start (.list tail elem path index) ⟨front, [tail]⟩ after meter item rest := by
  obtain ⟨more, later, image, next, grows, twins, rel, cursors, found⟩ := finds
  -- The computation of the rest is marked as started, and then the list that is checked is walked
  -- along.
  have started : Moves pairs right [tail] pairs (right.set tail .inProgress) [tail] :=
    .set apart List.mem_cons_self _
  have moves := started.trans (.of_grows grows started.apart)
  have reached (consumer : Consumer) : State.run context (2 + ahead.pending.length + steps)
      ⟨right, start, .advance ⟨front, [tail]⟩ consumer, []⟩ =
        Context.consumeStep context.annotations.graph later meter (.checkCell elem path index) image next
          [.update tail, .spine [] consumer] := by
    rw [State.run_add, run_tail used waits, found]
  cases rel with
  | none => exact .list_ended twins moves reached
  | some paired => exact .list_goes sound twins moves paired cursors reached

/-- Along the fields of a checked record, each field has its check. -/
theorem Turns.of_record {left : Store} {parts : List Part} {part : Part} {others : Array ThunkId}
    {begin : Nat} {id : ThunkId} (twins : Twins pairs left right) (paired : pairs id part.inner)
    (further : (Course.record parts).Follows context.names context.annotations.graph pairs right rest
      ⟨.elems others (begin + 1), []⟩)
    (outer : others[begin]? = some part.outer)
    (stands : part.Stands context.names context.annotations.graph right)
    (apart : Apart pairs right (Course.record (part :: parts)).cells) :
    Turns context pairs right start (.record (part :: parts)) ⟨.elems others begin, []⟩ left start
      (some id) rest := by
  -- The computations of the parts are those of the first and those of the others.
  have cells : (Course.record (part :: parts)).cells =
      part.cell?.toList ++ (Course.record parts).cells := by
    rw [Course.cells, Course.cells, List.filterMap_cons]
    cases part.cell? <;> rfl
  refine .goes 1 part (.record parts) twins paired stands further
    (cells ▸ .of_grows (.refl _ _) apart) (fun first data => List.forall₂_cons)
    (fun first data fault => Demand.blamesOne_cons.mpr) ?_ fun work whole => ?_
  · intro last first data _ hold rest
    cases hold with
    | cons found holds _ => exact .cons found holds rest
  · simp [State.run, State.step, Context.advanceStep, Context.consumeStep, outer]

end Course

variable {context : Context} {pairs : Pairing} {left right last : Store} {start lastMeter : DepthMeter}
  {cursor other : Cursor} {work : List Value} {whole result : Value} {steps : Nat}

/-- The step along the fields of a record and the one along those of the checked record. -/
theorem Course.turns_fields (twins : Twins pairs left right) {parts : List Part}
    {items others : Array ThunkId} {first begin : Nat}
    (inner : List.Forall₂ pairs (items.toList.drop first) (parts.map Part.inner))
    (outer : others.toList.drop begin = parts.map Part.outer)
    (stand : ∀ part ∈ parts, part.Stands context.names context.annotations.graph right)
    (apart : Apart pairs right (Course.record parts).cells) :
    ∃ item rest,
      (∀ work whole,
        State.run context 1 ⟨left, start, .advance ⟨.elems items first, []⟩ (.deepen work whole), []⟩ =
          Context.consumeStep context.annotations.graph left start (.deepen work whole) item rest []) ∧
      (∀ parts, last.ListHolds (Cursor.rest ⟨.elems items first, []⟩) parts →
        last.Meets item rest parts) ∧
      Turns context pairs right start (.record parts) ⟨.elems others begin, []⟩ left start item rest := by
  cases parts with
  | nil =>
    -- Without further parts both records have come to their ends.
    have left_end : items[first]? = none := by
      rw [← Array.getElem?_toList, ← List.head?_drop]
      rw [List.map_nil, List.forall₂_nil_right_iff] at inner
      rw [inner]
      rfl
    have right_end : others[begin]? = none := by
      rw [← Array.getElem?_toList, ← List.head?_drop, outer]
      rfl
    refine ⟨none, .before [], fun work whole => ?_, fun parts hold => hold.of_usedUp left_end,
      .ended 1 _ twins (.of_grows (.refl _ _) .nil) .nil (fun _ _ => .nil) fun work whole => ?_⟩
    · simp [State.run, State.step, Context.advanceStep, Context.crossStep, left_end]
    · simp [State.run, State.step, Context.advanceStep, Context.crossStep, Context.consumeStep, right_end]
  | cons part rest =>
    rw [List.map_cons] at inner outer
    -- The next field of the record goes with the next part.
    obtain ⟨id, remaining, paired, listed, split⟩ := List.forall₂_cons_right_iff.mp inner
    have found : items[first]? = some id := by
      rw [← Array.getElem?_toList, ← List.head?_drop, split]
      rfl
    have found_twin : others[begin]? = some part.outer := by
      rw [← Array.getElem?_toList, ← List.head?_drop, outer]
      rfl
    have further : (Course.record rest).Follows context.names context.annotations.graph pairs right
        ⟨.elems items (first + 1), []⟩ ⟨.elems others (begin + 1), []⟩ := by
      refine .record ?_ ?_ fun part member => stand part (List.mem_cons_of_mem _ member)
      · rw [← List.drop_drop, split]
        exact listed
      · rw [← List.drop_drop, outer]
        rfl
    refine ⟨some id, ⟨.elems items (first + 1), []⟩, fun work whole => ?_,
      fun parts hold => hold.meets_elem found,
      .of_record twins paired further found_twin (stand part List.mem_cons_self) apart⟩
    simp [State.run, State.step, Context.advanceStep, found]

/-- A step along a value and the step along the checked value that goes with it. -/
theorem Course.turns (sound : context.annotations.graph.Sound) {course : Course}
    (twins : Twins pairs left right)
    (follows : course.Follows context.names context.annotations.graph pairs right cursor other)
    (apart : Apart pairs right course.cells)
    (ended : State.run context steps ⟨left, start, .advance cursor (.deepen work whole), []⟩ =
      ⟨last, lastMeter, .done (.value result), []⟩) :
    ∃ before ≤ steps, ∃ after meter item rest, 0 < before ∧
      State.run context before ⟨left, start, .advance cursor (.deepen work whole), []⟩ =
        Context.consumeStep context.annotations.graph after meter (.deepen work whole) item rest [] ∧
      (∀ parts, last.ListHolds cursor.rest parts → last.Meets item rest parts) ∧
      course.Turns context pairs right start other after meter item rest := by
  cases follows with
  | free accepts same =>
    -- Both walks do the same, one step after another.
    obtain ⟨before, less, after, meter, item, rest, positive, reached, meets, finds⟩ :=
      twins.advance_finds same (.nil left) ended
    exact ⟨before, less, after, meter, item, rest, positive, reached, meets, .of_free accepts finds⟩
  | @list tail elem _ ahead front path index used waits same =>
    -- The rest of the checked list is in no pair, so that it may start before the walk goes on.
    have single := twins.set_single (apart.single tail List.mem_cons_self) .inProgress
    obtain ⟨before, less, after, meter, item, rest, positive, reached, meets, finds⟩ :=
      single.advance_finds same (.nil left) ended
    exact ⟨before, less, after, meter, item, rest, positive, reached, meets,
      .of_list sound used waits apart finds⟩
  | record inner outer stand =>
    -- The walk has not ended yet, and there is a step left.
    have some_steps : 1 ≤ steps := by
      rcases Nat.eq_zero_or_pos steps with rfl | positive
      · cases congrArg State.control ended
      · exact positive
    obtain ⟨item, rest, reached, meets, turns⟩ := turns_fields twins inner outer stand apart
    exact ⟨1, some_steps, left, start, item, rest, Nat.one_pos, reached _ _, meets, turns⟩

end LazyConfig
