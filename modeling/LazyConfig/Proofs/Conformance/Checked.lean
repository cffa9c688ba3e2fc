import LazyConfig.Proofs.Conformance.Courses

/-!
Evaluating all parts of a checked value, next to the same for the value itself. It comes to the same data
if these belong to the type, and to a mismatch that blames them otherwise.
-/

namespace LazyConfig

/-- Values, what stands in their places after checks, and the computations that check their parts. -/
inductive Guarded (names : NameTable) (graph : TypeGraph) (pairs : Pairing) (right : Store) :
    List Value → List Value → List Demand → List ThunkId → Prop
  | nil : Guarded names graph pairs right [] [] [] []
  | cons {value image checked : Value} {demand : Demand} {work others : List Value} {demands : List Demand}
    {cells more : List ThunkId} (same : ValueTwin pairs value image)
    (guards : Guards names graph right demand image checked cells)
    (rest : Guarded names graph pairs right work others demands more) :
    Guarded names graph pairs right (value :: work) (checked :: others) (demand :: demands) (cells ++ more)

section Keep

variable {names : NameTable} {graph : TypeGraph} {pairs more : Pairing} {right after : Store}

/-- What is guarded stays so as long as the computations that guard it are left alone. -/
theorem Guarded.keep {work others : List Value} {demands : List Demand} {cells : List ThunkId}
    (guarded : Guarded names graph pairs right work others demands cells)
    (keeps : ∀ id other, pairs id other → more id other)
    (same : ∀ cell ∈ cells, after.cell cell = right.cell cell) :
    Guarded names graph more after work others demands cells := by
  -- Both the pairs and the guards of what is left are kept.
  induction guarded with
  | nil => exact .nil
  | cons twin guards _ ih =>
    exact .cons (twin.mono keeps) (guards.keep fun cell member => same cell (List.mem_append_left _ member))
      (ih fun cell member => same cell (List.mem_append_right _ member))

/-- A walk stays where it is as long as the computations that check what comes are left alone. -/
theorem Course.Follows.keep {course : Course} {cursor other : Cursor}
    (follows : course.Follows names graph pairs right cursor other)
    (keeps : ∀ id other, pairs id other → more id other)
    (same : ∀ cell ∈ course.cells, after.cell cell = right.cell cell) :
    course.Follows names graph more after cursor other := by
  cases follows with
  | free accepts twin => exact .free accepts (twin.mono keeps)
  | list used waits twin =>
    exact .list used ((same _ List.mem_cons_self).trans waits) (twin.mono keeps)
  -- The parts that are still to come are guarded by the computations of the course.
  | record inner outer stand =>
    refine .record (inner.imp keeps) outer fun part member => (stand part member).keep fun cell found => ?_
    exact same cell (List.mem_filterMap.mpr ⟨part, member, found⟩)

theorem Apart.perm {cells others : List ThunkId} (apart : Apart pairs right cells)
    (order : cells.Perm others) : Apart pairs right others :=
  ⟨order.nodup_iff.mp apart.nodup, fun cell member => apart.inside cell (order.mem_iff.mpr member),
    fun cell member => apart.single cell (order.mem_iff.mpr member)⟩

end Keep

/-! Values without parts. -/

section Leaf

variable {value : Value} {data : Data}

theorem Value.Leaf.holds (leaf : value.Leaf data) (store : Store) : store.Holds value data := by
  cases leaf with
  | int value => exact .int value
  | float value => exact .float value
  | bool value => exact .bool value
  | str text => exact .str text
  | closure function => exact .closure function
  | builtin op held => exact .builtin op held
  | host function => exact .host function

/-- There is nothing to be evaluated in a value without parts. -/
theorem Value.Leaf.step {context : Context} {store : Store} {meter : DepthMeter} {work : List Value}
    {whole : Value} {stack : List Frame} (leaf : value.Leaf data) :
    State.step context ⟨store, meter, .deepen (value :: work) whole, stack⟩ =
      ⟨store, meter, .deepen work whole, stack⟩ := by
  cases leaf <;> rfl

/-- A value without parts that has passed a check belongs to the type. -/
theorem Guards.of_leaf {names : NameTable} {graph : TypeGraph} {store : Store} {demand : Demand}
    {checked : Value} {cells : List ThunkId} (leaf : value.Leaf data)
    (guards : Guards names graph store demand value checked cells) :
    checked = value ∧ cells = [] ∧ Conforms names graph demand.type data := by
  cases guards with
  | free _ accepts => exact ⟨rfl, rfl, accepts data⟩
  | leaf other conforms =>
    -- There is one tree of data only.
    have same := (leaf.holds store).unique (other.holds store)
    exact ⟨rfl, rfl, same ▸ conforms⟩
  | list _ _ _ | record _ _ _ _ _ _ => cases leaf

end Leaf

/-- What evaluating all parts of a checked value comes to. -/
inductive Resolves (context : Context) (pairs : Pairing) (last : Store) (start : State) (whole : Value)
    (conforms : Prop) (blames : Fault → Prop) (holds : Store → Prop) : Prop
  | passes {more : Pairing} {final : Store} {meter : DepthMeter} (count : Nat) (conform : conforms)
    (reached : start.run context count = ⟨final, meter, .give whole, []⟩)
    (keeps : ∀ id other, pairs id other → more id other) (twins : Twins more last final)
    (hold : holds final) : Resolves context pairs last start whole conforms blames holds
  | fails (count : Nat) (failure : EvalError) (blame : blames failure.fault)
    (raised : (start.run context count).control = .raise (.error failure)) :
    Resolves context pairs last start whole conforms blames holds

variable {context : Context} {pairs more : Pairing} {left right last : Store}
  {meter lastMeter : DepthMeter} {work checked : List Value} {demands : List Demand} {cells : List ThunkId}
  {whole other result : Value} {data : List Data} {steps : Nat}

/-- What a later state comes to. -/
theorem Resolves.of_run {start middle : State} {first second : Prop} {blames blamed : Fault → Prop}
    {holds others : Store → Prop} (resolves : Resolves context more last middle whole first blames holds)
    (count : Nat) (nested : WellNested start.store start.stack) (reached : start.run context count = middle)
    (keeps : ∀ id other, pairs id other → more id other) (same : first → second)
    (passed : ∀ fault, blames fault → blamed fault)
    (follows : ∀ further final, (∀ id other, more id other → further id other) →
      Twins further last final → middle.store.Precedes final → holds final → others final) :
    Resolves context pairs last start whole second blamed others := by
  cases resolves with
  | @passes further final meter after conform arrived grows twins hold =>
    -- The later state has come further along the same run, in which no computation goes back.
    have arrived_nested := (nested.run context count start).1
    rw [reached] at arrived_nested
    have order := (arrived_nested.run context after middle).2
    rw [arrived] at order
    have whole_run : start.run context (count + after) = ⟨final, meter, .give whole, []⟩ := by
      rw [State.run_add, reached, arrived]
    exact .passes (count + after) (same conform) whole_run
      (fun id other paired => grows _ _ (keeps _ _ paired)) twins (follows further final grows twins order hold)
  | fails after failure blame raised =>
    -- A failure of the later state is one of the whole run.
    refine .fails (count + after) failure (passed _ blame) ?_
    rw [State.run_add, reached, raised]

/-- The two ways in which evaluating all parts goes on, for runs of a given length. -/
structure Checks (context : Context) (last : Store) (lastMeter : DepthMeter) (result : Value)
    (steps : Nat) : Prop where
  work : ∀ {pairs left right meter work checked demands cells whole other data}, Twins pairs left right →
    Guarded context.names context.annotations.graph pairs right work checked demands cells →
    Apart pairs right cells →
    State.run context steps ⟨left, meter, .deepen work whole, []⟩ =
      ⟨last, lastMeter, .done (.value result), []⟩ →
    List.Forall₂ last.Holds work data →
    Resolves context pairs last ⟨right, meter, .deepen checked other, []⟩ other
      (List.Forall₂ (Demand.Met context.names context.annotations.graph) demands data)
      (Demand.BlamesOne context.names context.annotations.graph demands data)
      fun final => List.Forall₂ final.Holds checked data
  walk : ∀ {pairs left right meter course cursor ahead work checked demands cells whole other parts data},
    Twins pairs left right →
    Course.Follows context.names context.annotations.graph pairs right course cursor ahead →
    Guarded context.names context.annotations.graph pairs right work checked demands cells →
    Apart pairs right (course.cells ++ cells) →
    State.run context steps ⟨left, meter, .advance cursor (.deepen work whole), []⟩ =
      ⟨last, lastMeter, .done (.value result), []⟩ →
    last.ListHolds cursor.rest parts → List.Forall₂ last.Holds work data →
    Resolves context pairs last ⟨right, meter, .advance ahead (.deepen checked other), []⟩ other
      (course.Asks context.names context.annotations.graph parts ∧
        List.Forall₂ (Demand.Met context.names context.annotations.graph) demands data)
      (fun fault => course.Blames context.names context.annotations.graph parts fault ∨
        Demand.BlamesOne context.names context.annotations.graph demands data fault)
      fun final => course.Holds final parts ∧ List.Forall₂ final.Holds checked data

/-- An element is evaluated in both walks, and joins what is left to be done. -/
theorem Checks.item (sound : context.annotations.graph.Sound)
    (shorter : ∀ fewer < steps, Checks context last lastMeter result fewer) {part : Part}
    {further : Course} {id : ThunkId} {rest ahead : Cursor} {first : Data} {others : List Data}
    (twins : Twins pairs left right) (paired : pairs id part.inner)
    (stands : part.Stands context.names context.annotations.graph right)
    (follows : further.Follows context.names context.annotations.graph pairs right rest ahead)
    (guarded : Guarded context.names context.annotations.graph pairs right work checked demands cells)
    (apart : Apart pairs right (part.cell?.toList ++ (further.cells ++ cells)))
    (ended : State.run context steps ⟨left, meter, .force id, [.deepItem rest work whole]⟩ =
      ⟨last, lastMeter, .done (.value result), []⟩)
    (hold : last.PartsHold [id] [first]) (listed : last.ListHolds rest.rest others)
    (works : List.Forall₂ last.Holds work data) :
    Resolves context pairs last ⟨right, meter, .force part.outer, [.deepItem ahead checked other]⟩ other
      (Conforms context.names context.annotations.graph part.demand.type first ∧
        further.Asks context.names context.annotations.graph others ∧
        List.Forall₂ (Demand.Met context.names context.annotations.graph) demands data)
      (fun fault => part.demand.Blames context.names context.annotations.graph first fault ∨
        further.Blames context.names context.annotations.graph others fault ∨
        Demand.BlamesOne context.names context.annotations.graph demands data fault)
      fun final => final.PartsHold [part.outer] [first] ∧ further.Holds final others ∧
        List.Forall₂ final.Holds checked data := by
  have nested : WellNested left [.deepItem rest work whole] := (WellNested.nil left).extend (.refl _) rfl
  -- The walk along the value gives the element a value first.
  obtain ⟨before, less, after, meter', given, positive, reached, holds, comes⟩ :=
    part.comes sound twins paired stands (apart.sublist (List.sublist_append_left _ _)) nested ended hold
  -- The frame that waits for the element has not been passed.
  obtain ⟨room, -, remains⟩ :=
    State.run_next less reached (State.not_ended_of_give rfl) ⟨_, rfl⟩ ended
  cases comes with
  | fails count failure blames raised =>
    -- The check of the element has failed, and so does the whole.
    exact .fails count failure (.inl blames) (raised _)
  | @passes more later image value guards_cells count twins moves same guards settled arrived =>
    -- What checks the rest has been left alone.
    obtain ⟨apart, alone⟩ := moves.beside apart
    have follows : further.Follows context.names context.annotations.graph more later rest ahead :=
      follows.keep moves.keeps fun cell member => alone cell (List.mem_append_left _ member)
    have guarded : Guarded context.names context.annotations.graph more later work checked demands cells :=
      guarded.keep moves.keeps fun cell member => alone cell (List.mem_append_right _ member)
    have reordered : Apart more later (further.cells ++ (guards_cells ++ cells)) :=
      apart.perm (List.perm_append_comm_assoc guards_cells further.cells cells)
    -- With the parts of the element in front, the walk goes on in a shorter run.
    refine ((shorter _ (by omega)).walk twins follows (.cons same guards guarded) reordered remains listed
      (.cons holds works)).of_run (count + 1) ((WellNested.nil right).extend (.refl _) rfl) ?_ moves.keeps
      ?_ ?_ ?_
    · rw [State.run_last, arrived]
      rfl
    · rintro ⟨rest, all⟩
      cases all with
      | cons first works => exact ⟨first, rest, works⟩
    · -- Blame of the parts of the element is blame of the element.
      intro fault blamed
      rw [Demand.blamesOne_cons] at blamed
      tauto
    · rintro further' final - - order ⟨rest_holds, works⟩
      cases works with
      | cons first works => exact ⟨.cons (order.forced settled) first .nil, rest_holds, works⟩

/-- A walk goes on with its next element, or with the rest of the work at its end. -/
theorem Checks.course (sound : context.annotations.graph.Sound)
    (shorter : ∀ fewer < steps, Checks context last lastMeter result fewer) {course : Course}
    {cursor ahead : Cursor} {parts : List Data} (twins : Twins pairs left right)
    (follows : course.Follows context.names context.annotations.graph pairs right cursor ahead)
    (guarded : Guarded context.names context.annotations.graph pairs right work checked demands cells)
    (apart : Apart pairs right (course.cells ++ cells))
    (ended : State.run context steps ⟨left, meter, .advance cursor (.deepen work whole), []⟩ =
      ⟨last, lastMeter, .done (.value result), []⟩)
    (listed : last.ListHolds cursor.rest parts) (works : List.Forall₂ last.Holds work data) :
    Resolves context pairs last ⟨right, meter, .advance ahead (.deepen checked other), []⟩ other
      (course.Asks context.names context.annotations.graph parts ∧
        List.Forall₂ (Demand.Met context.names context.annotations.graph) demands data)
      (fun fault => course.Blames context.names context.annotations.graph parts fault ∨
        Demand.BlamesOne context.names context.annotations.graph demands data fault)
      fun final => course.Holds final parts ∧ List.Forall₂ final.Holds checked data := by
  -- A run that ends with a value has come to an element or to the end of the list before.
  obtain ⟨before, less, after, meter', item, rest, positive, reached, meets, turns⟩ :=
    course.turns sound twins follows (apart.sublist (List.sublist_append_left _ _)) ended
  have remains := State.run_sub less reached ended
  have met := meets parts listed
  have nested := WellNested.nil right
  cases turns with
  | ended count rest twins moves asks holds arrived =>
    obtain rfl : parts = [] := met
    -- The walk is over, and the computations that guard the rest of the work are left.
    obtain ⟨apart, alone⟩ := moves.beside apart
    refine ((shorter _ (by omega)).work twins (guarded.keep moves.keeps alone) apart remains works).of_run
      count nested (arrived _ _) moves.keeps ?_ (fun _ => .inr) ?_
    · exact fun conform => ⟨asks, conform⟩
    · exact fun _ final _ _ order hold => ⟨holds final order, hold⟩
  | @goes more later id rest next count part further twins paired stands follows moves asks blames holds
      arrived =>
    obtain ⟨first, others, rfl, hold, listed⟩ := met
    -- The next element is given to both, and what guards the rest has been left alone.
    obtain ⟨apart, alone⟩ := moves.beside apart
    rw [List.append_assoc] at apart
    have fewer : ∀ less < steps - before, Checks context last lastMeter result less :=
      fun less bound => shorter less (by omega)
    refine (Checks.item sound fewer twins paired stands follows (guarded.keep moves.keeps alone) apart
      remains hold listed works).of_run count nested (arrived _ _) moves.keeps ?_ ?_ ?_
    · rw [asks, and_assoc]
      exact fun conform => conform
    · -- What is blamed is in the element, in the elements after it or in the rest of the work.
      rintro fault (blamed | blamed | blamed)
      · exact .inl (blames first others fault (.inl blamed))
      · exact .inl (blames first others fault (.inr blamed))
      · exact .inr blamed
    · exact fun _ final _ _ order hold => ⟨holds final first others order hold.1 hold.2.1, hold.2.2⟩

section Values

variable {value image shown : Value} {demand : Demand} {own : List ThunkId}
  (shorter : ∀ fewer < steps, Checks context last lastMeter result fewer)
  (twins : Twins pairs left right) (same : ValueTwin pairs value image)
  (guards : Guards context.names context.annotations.graph right demand image shown own)
  (guarded : Guarded context.names context.annotations.graph pairs right work checked demands cells)
  (apart : Apart pairs right (own ++ cells))
  (ended : State.run context steps ⟨left, meter, .deepen (value :: work) whole, []⟩ =
    ⟨last, lastMeter, .done (.value result), []⟩)
  (works : List.Forall₂ last.Holds work data)
include shorter twins same guards guarded apart ended works

/-- A value without parts is passed. -/
theorem Checks.leaf {first : Data} (leaf : value.Leaf first) :
    Resolves context pairs last ⟨right, meter, .deepen (shown :: checked) other, []⟩ other
      (List.Forall₂ (Demand.Met context.names context.annotations.graph) (demand :: demands) (first :: data))
      (Demand.BlamesOne context.names context.annotations.graph (demand :: demands) (first :: data))
      fun final => List.Forall₂ final.Holds (shown :: checked) (first :: data) := by
  -- A value that has passed without parts is unchanged, and both are passed at once.
  have image_leaf := same.leaf leaf
  obtain ⟨rfl, rfl, conforms⟩ := guards.of_leaf image_leaf
  obtain _ | steps := steps
  · cases congrArg State.control ended
  rw [State.run_succ, leaf.step] at ended
  refine ((shorter steps (by omega)).work twins guarded apart ended works).of_run 1 (.nil right) ?_
    (fun _ _ => id) (.cons conforms) ?_ ?_
  · rw [State.run_succ, image_leaf.step]
    rfl
  · exact fun fault blamed => Demand.blamesOne_cons.mpr (.inr blamed)
  · exact fun _ final _ _ _ hold => .cons (image_leaf.holds final) hold

omit same guards in
/-- The parts of a value are walked along before the rest of the work. -/
theorem Checks.parts {course : Course} {cursor ahead : Cursor} {first : Data} {parts : List Data}
    (count : Nat)
    (opened : State.step context ⟨left, meter, .deepen (value :: work) whole, []⟩ =
      ⟨left, meter, .advance cursor (.deepen work whole), []⟩)
    (opened_twin : State.run context count ⟨right, meter, .deepen (shown :: checked) other, []⟩ =
      ⟨right, meter, .advance ahead (.deepen checked other), []⟩)
    (follows : course.Follows context.names context.annotations.graph pairs right cursor ahead)
    (cells_same : own = course.cells) (listed : last.ListHolds cursor.rest parts)
    (asks : Conforms context.names context.annotations.graph demand.type first ↔
      course.Asks context.names context.annotations.graph parts)
    (blames : ∀ fault, course.Blames context.names context.annotations.graph parts fault →
      demand.Blames context.names context.annotations.graph first fault)
    (holds : ∀ more final, (∀ id other, pairs id other → more id other) → Twins more last final →
      course.Holds final parts → final.Holds shown first) :
    Resolves context pairs last ⟨right, meter, .deepen (shown :: checked) other, []⟩ other
      (List.Forall₂ (Demand.Met context.names context.annotations.graph) (demand :: demands) (first :: data))
      (Demand.BlamesOne context.names context.annotations.graph (demand :: demands) (first :: data))
      fun final => List.Forall₂ final.Holds (shown :: checked) (first :: data) := by
  subst cells_same
  -- The step that opens the value leaves a shorter run, along its parts.
  obtain _ | steps := steps
  · cases congrArg State.control ended
  rw [State.run_succ, opened] at ended
  refine ((shorter steps (by omega)).walk twins follows guarded apart ended listed works).of_run count
    (.nil right) opened_twin (fun _ _ => id) ?_ ?_ ?_
  · exact fun conform => .cons (asks.mpr conform.1) conform.2
  · exact fun fault blamed => Demand.blamesOne_cons.mpr (blamed.imp_left (blames fault))
  · exact fun more final keeps twins _ hold => .cons (holds more final keeps twins hold.1) hold.2

/-- The elements of a list are walked along. -/
theorem Checks.list {items : LazyList} {parts : List Data} (form : value = .list items)
    (hold : last.ListHolds items parts) :
    Resolves context pairs last ⟨right, meter, .deepen (shown :: checked) other, []⟩ other
      (List.Forall₂ (Demand.Met context.names context.annotations.graph) (demand :: demands)
        (.list parts :: data))
      (Demand.BlamesOne context.names context.annotations.graph (demand :: demands) (.list parts :: data))
      fun final => List.Forall₂ final.Holds (shown :: checked) (.list parts :: data) := by
  subst form
  cases same with
  | @list _ others equal =>
    cases guards with
    -- Anything may be in the list, and both lists are walked along as they are.
    | free _ accepts =>
      refine Checks.parts shorter twins guarded apart ended works 1 rfl rfl (.free accepts equal.cursor) rfl
        hold ⟨fun _ => trivial, fun _ => accepts _⟩ (fun _ => False.elim) fun more final keeps twins _ => ?_
      exact .list (hold.twin twins (equal.mono keeps))
    | leaf leaf => cases leaf
    | list reads blames waits =>
      -- The checked list starts with nothing, and its rest is the computation of the check.
      have unused : LazyList.empty.UsedUp := by
        show ¬ (0 : Int64) < 0
        decide
      have waits : right.cell _ = .suspended (.checkList others.cursor.rest _ _ _) := waits
      refine Checks.parts shorter twins guarded apart ended works 2 rfl rfl
        (.list unused waits equal.cursor) rfl hold (reads parts) ?_ fun more final _ _ found => ?_
      · rintro fault ⟨position, part, listed, blamed⟩
        rw [Nat.zero_add] at blamed
        exact blames listed blamed
      obtain ⟨items, found, listed⟩ := found
      exact .list (.concat (.rangeEnd unused) found listed)

/-- The fields of a record are walked along. -/
theorem Checks.record {fields : Record} {named : List (String × Data)} (form : value = .record fields)
    (hold : last.FieldsHold fields.entries named) :
    Resolves context pairs last ⟨right, meter, .deepen (shown :: checked) other, []⟩ other
      (List.Forall₂ (Demand.Met context.names context.annotations.graph) (demand :: demands)
        (.record named :: data))
      (Demand.BlamesOne context.names context.annotations.graph (demand :: demands) (.record named :: data))
      fun final => List.Forall₂ final.Holds (shown :: checked) (.record named :: data) := by
  subst form
  have listed : last.ListHolds (LazyList.ofThunks fields.thunks) (named.map Prod.snd) :=
    Store.ListHolds.of_thunks.mpr ((Store.fieldsHold_iff hold.names).mp hold)
  cases same with
  | @record _ others equal =>
    cases guards with
    -- Any fields may be in the record, and both records are walked along as they are.
    | free _ accepts =>
      refine Checks.parts shorter twins guarded apart ended works 1 rfl rfl
        (.free accepts (ListTwin.ofThunks equal.values).cursor) rfl listed
        ⟨fun _ => trivial, fun _ => accepts _⟩ (fun _ => False.elim) fun more final keeps twins _ => ?_
      exact .record (hold.twin twins (agree_mono keeps equal))
    | leaf leaf => cases leaf
    | @record _ record parts inner outer stand reads blames =>
      -- Each field of the one record is the check of the field of the other in the same place.
      have together : named.map Prod.fst = others.names := hold.names.trans equal.keys
      have inner_ids : others.entries.map Prod.snd = (parts.map Prod.snd).map Part.inner := by
        rw [inner, List.map_map, List.map_map]
        rfl
      have outer_ids : record.entries.map Prod.snd = (parts.map Prod.snd).map Part.outer := by
        rw [outer, List.map_map, List.map_map]
        rfl
      have names : named.map Prod.fst = record.entries.map Prod.fst := by
        rw [together, Record.names, inner, outer, List.map_map, List.map_map]
        rfl
      have follows : (Course.record (parts.map Prod.snd)).Follows context.names
          context.annotations.graph pairs right (LazyList.ofThunks fields.thunks).cursor
          (LazyList.ofThunks record.thunks).cursor := by
        refine .record ?_ outer_ids fun part member => ?_
        · rw [← inner_ids]
          exact equal.values
        · obtain ⟨entry, among, rfl⟩ := List.mem_map.mp member
          exact stand entry among
      refine Checks.parts shorter twins guarded apart ended works 1 rfl rfl follows ?_ listed ?_
        (fun fault blamed => ?_) fun more final _ _ found => ?_
      · rw [Course.cells, List.filterMap_map]
        rfl
      · rw [reads named together, Course.Asks, List.forall₂_map_left_iff]
      · refine blames named fault together ?_
        have parted : Demand.BlamesOne context.names context.annotations.graph _ (named.map Prod.snd) fault := blamed
        rwa [List.map_map] at parted
      · refine .record ((Store.fieldsHold_iff names).mpr ?_)
        rw [outer_ids]
        exact found

/-- A value is evaluated in all its parts before the rest of the work. -/
theorem Checks.cons {first : Data} (holds : last.Holds value first) :
    Resolves context pairs last ⟨right, meter, .deepen (shown :: checked) other, []⟩ other
      (List.Forall₂ (Demand.Met context.names context.annotations.graph) (demand :: demands) (first :: data))
      (Demand.BlamesOne context.names context.annotations.graph (demand :: demands) (first :: data))
      fun final => List.Forall₂ final.Holds (shown :: checked) (first :: data) := by
  -- Lists and records are walked; all other values have no parts and pass as they are.
  cases holds with
  | list hold => exact Checks.list shorter twins same guards guarded apart ended works rfl hold
  | record hold => exact Checks.record shorter twins same guards guarded apart ended works rfl hold
  | int value => exact Checks.leaf shorter twins same guards guarded apart ended works (.int value)
  | float value => exact Checks.leaf shorter twins same guards guarded apart ended works (.float value)
  | bool value => exact Checks.leaf shorter twins same guards guarded apart ended works (.bool value)
  | str text => exact Checks.leaf shorter twins same guards guarded apart ended works (.str text)
  | closure function =>
    exact Checks.leaf shorter twins same guards guarded apart ended works (.closure function)
  | builtin op held => exact Checks.leaf shorter twins same guards guarded apart ended works (.builtin op held)
  | host function => exact Checks.leaf shorter twins same guards guarded apart ended works (.host function)

end Values

/-- Evaluating all parts of checked values comes to what the values themselves come to. -/
theorem checks (sound : context.annotations.graph.Sound) (steps : Nat) :
    Checks context last lastMeter result steps := by
  -- Each step leaves a shorter run of one of the two kinds.
  induction steps using Nat.strongRecOn with
  | ind steps shorter =>
  constructor
  · intro pairs left right meter work checked demands cells whole other data twins guarded apart ended works
    cases guarded with
    | nil =>
      cases works
      -- Nothing is left to be done, and the first store is the last one.
      have short : State.run context 2 ⟨left, meter, .deepen [] whole, []⟩ =
          ⟨left, meter, .done (.value whole), []⟩ := rfl
      have same := State.Ended.unique ⟨_, congrArg State.control short⟩ ⟨_, congrArg State.control ended⟩
      rw [short, ended] at same
      obtain rfl : left = last := congrArg State.store same
      exact .passes 1 .nil rfl (fun _ _ => id) twins .nil
    | cons same guards rest =>
      cases works with
      | cons holds works => exact Checks.cons shorter twins same guards rest apart ended works holds
  · intro pairs left right meter course cursor ahead work checked demands cells whole other parts data twins
      follows guarded apart ended listed works
    exact Checks.course sound shorter twins follows guarded apart ended listed works

end LazyConfig
