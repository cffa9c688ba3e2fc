import LazyConfig.Proofs.Lists.Sights
import LazyConfig.Proofs.Machine.History

/-!
Lists that are made one cell at a time. A cell puts off its element and what is behind it. Whatever else
happens in a session, the part of such a list that is evaluated shows what it is made from, and each of its
elements was put off when its cell was made.
-/

namespace LazyConfig

/-- What a look at a position comes to: an element and the position behind it, the end, or a failure. -/
inductive Look (Element Position : Type)
  | item (element : Element) (rest : Position)
  | finished
  | upset (failure : Upset)

/-- What a list is made from: positions, each at its end or with an element and a position behind it. -/
structure Source where
  Position : Type
  Element : Type
  /-- What a look at a position comes to, and the store after it. -/
  Looks : Context → DepthMeter → Store → Position → Look Element Position → Store → Prop
  /-- There is nothing behind a position, as far as a store shows. -/
  Ends : Store → Position → Prop
  /-- An element and the position behind it stand for two parts of a cell: its element and the rest. -/
  Cell : Store → Position → Element → Position → ThunkId → ThunkId → Prop
  looks_precedes : ∀ {context meter before position look after},
    Looks context meter before position look after → before.Precedes after
  ends_of_looks : ∀ {context meter before position after},
    Looks context meter before position .finished after → Ends after position
  ends_later : ∀ {before after position}, before.Precedes after → Ends before position → Ends after position
  cell_later : ∀ {before after position element rest first others}, before.Precedes after →
    Cell before position element rest first others → Cell after position element rest first others

/-- A failure that says that a limit of levels was reached. -/
def EvalError.Overflowed (failure : EvalError) : Prop :=
  ∃ limit, failure.fault = .depthExceeded limit

namespace Source

variable (source : Source)

/-- A cell that has just been made: its element and what is behind it are put off. -/
structure Fresh (store : Store) (position : source.Position) (element : source.Element)
    (rest : source.Position) (first others : ThunkId) : Prop where
  cell : source.Cell store position element rest first others
  first : ∃ work, store.cell first = .suspended work
  others : ∃ work, store.cell others = .suspended work

/-- A new cell is made, for which nothing is evaluated. -/
structure Makes (before : Store) (position : source.Position) (element : source.Element)
    (rest : source.Position) (first others : ThunkId) (after : Store) : Prop where
  fresh : source.Fresh after position element rest first others
  grown : before.Extends after
  calls : after.calls = before.calls
  apart : first ≠ others
  added : before.cells.size ≤ first ∧ before.cells.size ≤ others

/-- What a list comes to when a look at its position has come to something. -/
inductive Step (before : Store) (position : source.Position) :
    Look source.Element source.Position → Outcome → Store → Prop
  | item {element : source.Element} {rest : source.Position} {first others : ThunkId} {after : Store}
    (makes : source.Makes before position element rest first others after) :
    Step before position (.item element rest) (.ok (.list (.concat (.ofThunks [first]) others))) after
  | finished : Step before position .finished (.ok (.list (.ofThunks []))) before
  | upset {failure : Upset} : Step before position (.upset failure) (.error failure) before

/--
Asking for what is behind a cell takes a look at the position there and gives the next cell or the end of
the list, or fails where the look does. Nothing else is evaluated.
-/
structure Advances (context : Context) (meter : DepthMeter) (store : Store) (others : ThunkId)
    (position : source.Position) (ready : Store)
    (looks : Look source.Element source.Position → Store → Prop) : Prop where
  grown : (store.set others .inProgress).Extends ready
  calls : ready.calls = store.calls
  brings : ∀ {look between}, looks look between → ∃ outcome after,
    source.Step between position look outcome after ∧ after.Precedes (after.set others (.ended outcome)) ∧
    Brings context meter store (.force others) outcome (after.set others (.ended outcome))
  looked : ∀ {outcome after}, Brings context meter store (.force others) outcome after →
    ∃ look between, looks look between

/-- What goes wrong when the list behind a position is asked for: the look there, or there are no levels left. -/
def Breaks (context : Context) (position : source.Position) (failure : EvalError) : Prop :=
  failure.Overflowed ∨ ∃ meter before upset after,
    source.Looks context meter before position (.upset upset) after ∧ failure = upset.remembered

/-- A value that the list behind a position comes to. -/
inductive Gives (before after : Store) (position : source.Position) : Value → Prop
  | nil (ends : source.Ends after position) : Gives before after position (.list (.ofThunks []))
  | cell {element : source.Element} {rest : source.Position} {first others : ThunkId}
    (fresh : source.Fresh after position element rest first others)
    (added : before.cells.size ≤ others) :
    Gives before after position (.list (.concat (.ofThunks [first]) others))

/-- An outcome that the list behind a position comes to. -/
def Yields (context : Context) (before after : Store) (position : source.Position) : Outcome → Prop
  | .ok value => source.Gives before after position value
  | .error upset => source.Breaks context position upset.remembered

/-- The program makes the list: asking for what is behind an element comes to what is behind its position. -/
def MadeBy (context : Context) : Prop :=
  ∀ {store after position element rest first others work meter outcome},
    source.Cell store position element rest first others → store.cell others = .suspended work →
    Brings context meter store (.force others) outcome after → source.Yields context store after rest outcome

/-- How far a list is evaluated. -/
inductive Extent (Position : Type)
  /-- To its end. -/
  | whole
  /-- Up to a right part that is put off, under way, or has gone wrong. -/
  | upTo (others : ThunkId) (position : Position)

/-- How a look at the evaluated part ends. -/
def Extent.closing {Position : Type} : Extent Position → Closing
  | whole => .finished
  | upTo _ _ => .more

/-- What is behind the evaluated part has not been asked for. -/
def Extent.Open {Position : Type} (store : Store) : Extent Position → Prop
  | whole => True
  | upTo others _ => ∃ work, store.cell others = .suspended work

/-- The position at which the evaluated part ends: nothing is behind it, or it is what the rest is made from. -/
def Reaches (store : Store) (last : source.Position) : Extent source.Position → Prop
  | .whole => source.Ends store last
  | .upTo _ position => last = position

/-- The part of a list that is evaluated: the elements that it is made from, and what stands for each. -/
inductive Image (context : Context) (store : Store) :
    LazyList → source.Position → List (source.Element × ThunkId) → Extent source.Position → Prop
  | nil {position : source.Position} (ends : source.Ends store position) :
    Image context store (.ofThunks []) position [] .whole
  | last {position rest : source.Position} {element : source.Element} {first others : ThunkId}
    (cell : source.Cell store position element rest first others)
    (unknown : ∀ value, store.cell others ≠ .forced value)
    (broken : ∀ error, store.cell others = .failed error → source.Breaks context rest error) :
    Image context store (.concat (.ofThunks [first]) others) position [(element, first)] (.upTo others rest)
  | next {position rest : source.Position} {element : source.Element} {first others : ThunkId}
    {items : LazyList} {pairs : List (source.Element × ThunkId)} {extent : Extent source.Position}
    (cell : source.Cell store position element rest first others)
    (found : store.cell others = .forced (.list items)) (image : Image context store items rest pairs extent) :
    Image context store (.concat (.ofThunks [first]) others) position ((element, first) :: pairs) extent

/-- Between two moments there is one at which an element is put off in a cell that has just been made. -/
def PutOff (moment later : Moment) (element : source.Element) (first : ThunkId) : Prop :=
  ∃ start : Moment, ∃ position rest others, moment.Onward start ∧ start.Onward later ∧
    WellNested start.store start.state.stack ∧
    source.Fresh start.store position element rest first others

variable {source : Source} {context : Context}

/-- A new cell stays so when another computation comes to something. -/
theorem Fresh.set {store : Store} {position rest : source.Position} {element : source.Element}
    {first others id : ThunkId} {state : LazyConfig.Cell}
    (fresh : source.Fresh store position element rest first others)
    (order : store.Precedes (store.set id state)) (apart : first ≠ id) (apart' : others ≠ id) :
    source.Fresh (store.set id state) position element rest first others :=
  ⟨source.cell_later order fresh.cell, by rw [Store.cell_set_of_ne apart]; exact fresh.first,
    by rw [Store.cell_set_of_ne apart']; exact fresh.others⟩

/-- What a look has come to is made into a list without evaluating anything. -/
theorem Step.grown {before after : Store} {position : source.Position}
    {look : Look source.Element source.Position} {outcome : Outcome}
    (step : source.Step before position look outcome after) :
    before.Extends after ∧ after.calls = before.calls := by
  cases step with
  | item makes => exact ⟨makes.grown, makes.calls⟩
  | finished | upset => exact ⟨.refl _, rfl⟩

section

variable {before after : Store} {position rest : source.Position} {element : source.Element}
  {outcome : Outcome}

/-- A look that has come to an element is made into a new cell. -/
theorem Step.of_item (step : source.Step before position (.item element rest) outcome after) :
    ∃ first others, outcome = .ok (.list (.concat (.ofThunks [first]) others)) ∧
      source.Makes before position element rest first others after := by
  cases step with
  | item makes => exact ⟨_, _, rfl, makes⟩

/-- A look that has come to the end is made into the empty list. -/
theorem Step.of_finished (step : source.Step before position .finished outcome after) :
    outcome = .ok (.list (.ofThunks [])) ∧ after = before := by
  cases step with
  | finished => exact ⟨rfl, rfl⟩

/-- A look that has gone wrong is what the list goes wrong with. -/
theorem Step.of_upset {failure : Upset} (step : source.Step before position (.upset failure) outcome after) :
    outcome = .error failure := by
  cases step with
  | upset => rfl

/-- A cell that a look has made is still new when what is behind the cell before it has come to it. -/
theorem Makes.stays {first others behind : ThunkId} {state : LazyConfig.Cell}
    (makes : source.Makes before position element rest first behind after)
    (order : after.Precedes (after.set others state)) (inside : others < before.cells.size) :
    source.Fresh (after.set others state) position element rest first behind := by
  have apart {id : ThunkId} (late : before.cells.size ≤ id) : id ≠ others :=
    (Nat.ne_of_lt (Nat.lt_of_lt_of_le inside late)).symm
  exact makes.fresh.set order (apart makes.added.1) (apart makes.added.2)

end

section

variable {meter : DepthMeter} {store ready : Store} {others : ThunkId} {position : source.Position}
  {looks : Look source.Element source.Position → Store → Prop}

/-- Whatever comes of asking for what is behind a cell, a look has come to it. -/
theorem Advances.comes {after : Store} {outcome : Outcome}
    (advances : source.Advances context meter store others position ready looks)
    (brings : Brings context meter store (.force others) outcome after) :
    ∃ look between last, looks look between ∧ source.Step between position look outcome last ∧
      last.Precedes after ∧ after = last.set others (.ended outcome) := by
  obtain ⟨look, between, looked⟩ := advances.looked brings
  obtain ⟨outcome', last, step, order, brings'⟩ := advances.brings looked
  obtain ⟨rfl, rfl⟩ := brings.unique brings'
  exact ⟨look, between, last, looked, step, order, rfl⟩

/-- What waits behind a cell is asked for by evaluating it, one level deeper. -/
theorem Advances.of_entered {body : ExprId} {env : Env} (waits : store.cell others = .suspended (.expr body env))
    (room : meter.current < meter.limit) (grown : (store.set others .inProgress).Extends ready)
    (calls : ready.calls = store.calls)
    (brings : ∀ {look between}, looks look between → ∃ outcome after,
      source.Step between position look outcome after ∧
        Brings context (meter.below 1) (store.set others .inProgress) (.eval body env) outcome after)
    (looked : ∀ {outcome after},
      Brings context (meter.below 1) (store.set others .inProgress) (.eval body env) outcome after →
        ∃ look between, looks look between) :
    source.Advances context meter store others position ready looks where
  grown := grown
  calls := calls
  brings found := by
    obtain ⟨outcome, after, step, inner⟩ := brings found
    obtain ⟨kept, whole⟩ := inner.of_entered waits room
    exact ⟨outcome, after, step, kept, whole⟩
  looked asked := by
    obtain ⟨last, inner, rfl⟩ := asked.to_entered waits room
    exact looked inner

end

/-- A program makes a list when it takes a look for each cell, wherever there are levels enough. -/
theorem madeBy_of_advances (gap : Nat)
    (advances : ∀ {store position element rest first others work meter},
      source.Cell store position element rest first others → store.cell others = .suspended work →
      meter.current + gap ≤ meter.limit → ∃ level ready looks,
        (∀ look between, looks look between → source.Looks context level ready rest look between) ∧
        source.Advances context meter store others rest ready looks) : source.MadeBy context := by
  intro store after position element rest first others work meter outcome cell waits brings
  by_cases fits : outcome.Fits meter.limit
  · -- With more levels left the outcome is the same, and there are levels enough for a look.
    let high : DepthMeter := ⟨meter.limit + meter.current + gap, meter.current⟩
    have higher : Brings context high store (.force others) outcome after :=
      brings.shift fits (by simp only [high]; omega)
    obtain ⟨level, ready, looks, own, all⟩ := @advances _ _ _ _ _ _ _ high cell waits
      (by simp only [high]; omega)
    -- What the program comes to with these levels follows from one look at what the list is made
    -- from.
    obtain ⟨look, between, last, looked, step, order, rfl⟩ := all.comes higher
    have looked := own _ _ looked
    have further := (source.looks_precedes looked).1
    have size : (store.set others .inProgress).cells.size = store.cells.size := store.set_size _ _
    have grown : store.cells.size ≤ between.cells.size :=
      Nat.le_trans (Nat.le_of_eq size.symm) (Nat.le_trans all.grown.1 further)
    cases step with
    | finished => exact .nil (source.ends_later order (source.ends_of_looks looked))
    | upset => exact .inr ⟨_, _, _, _, looked, rfl⟩
    | item makes =>
      have inside : others < between.cells.size := Nat.lt_of_lt_of_le (Store.lt_size_of_cell waits nofun) grown
      exact .cell (makes.stays order inside) (Nat.le_trans grown makes.added.2)
  · obtain ⟨upset, rfl, overflows⟩ := Outcome.overflows_of_not_fits fits
    refine .inl ⟨meter.limit, ?_⟩
    cases upset with
    | error failure => exact Except.ok.inj overflows
    | panic host => cases overflows

/-- The elements in the evaluated part of a list are found without evaluating anything. -/
theorem Image.sequence {meter : DepthMeter} {store : Store} {list : LazyList} {position : source.Position}
    {pairs : List (source.Element × ThunkId)} {extent : Extent source.Position}
    (image : source.Image context store list position pairs extent) :
    Sequence context meter store list (pairs.map fun pair => .thunk pair.2) extent.closing store := by
  induction image with
  | nil ends => exact .elemEnd rfl
  | last cell unknown broken => exact .left (.elemLast rfl) nofun
  | next cell found image ih =>
    exact .right (.elemNext rfl (.elemEnd rfl)) (.of_forced found) ih

/-- At every later moment of a session, a new cell is the first one of an image of what it is made from. -/
theorem image_of_fresh (made : source.MadeBy context) {later : Moment} (size : Nat) {moment : Moment}
    (same : moment.context = context) (onward : moment.Onward later)
    (nested : WellNested moment.store moment.state.stack) {position rest : source.Position}
    {element : source.Element} {first others : ThunkId}
    (fresh : source.Fresh moment.store position element rest first others)
    (measure : later.store.cells.size ≤ others + size) :
    ∃ pairs extent,
      source.Image context later.store (.concat (.ofThunks [first]) others) position pairs extent ∧
      ∀ pair ∈ pairs, source.PutOff moment later pair.1 pair.2 := by
  -- By induction on the room behind the cell; what it is read off is what the cell has come to by
  -- now.
  induction size generalizing moment position rest element first others with
  | zero =>
    obtain ⟨work, waits⟩ := fresh.others
    have inside := Nat.lt_of_lt_of_le (Store.lt_size_of_cell waits nofun) (onward.precedes nested).2.1
    exact absurd inside (Nat.not_lt.mpr measure)
  | succ size ih =>
    have own : source.PutOff moment later element first := ⟨_, _, _, _, .refl, onward, nested, fresh⟩
    have now := source.cell_later (onward.precedes nested).2 fresh.cell
    have single : ∀ pair ∈ [(element, first)], source.PutOff moment later pair.1 pair.2 :=
      List.forall_mem_singleton.mpr own
    obtain ⟨work, waits⟩ := fresh.others
    rcases onward.history nested waits with still | busy | ⟨before, after, outcome, ahead, between, beyond, -,
      asked, brings, nested', kept⟩
    · exact ⟨_, _, .last now (fun value found => nomatch still.symm.trans found)
        (fun error found => nomatch still.symm.trans found), single⟩
    · exact ⟨_, _, .last now (fun value found => nomatch busy.symm.trans found)
        (fun error found => nomatch busy.symm.trans found), single⟩
    · have yields := made (source.cell_later (ahead.precedes nested).2 fresh.cell) asked (same ▸ brings)
      cases outcome with
      | error upset =>
        refine ⟨_, _, .last now (fun value found => nomatch kept.symm.trans found) fun error found => ?_,
          single⟩
        obtain rfl : upset.remembered = error := Cell.failed.inj (kept.symm.trans found)
        exact yields
      | ok value =>
        have yields : source.Gives before.store after.store rest value := yields
        cases yields with
        | nil ends =>
          exact ⟨_, _, .next now kept (.nil (source.ends_later (beyond.precedes nested').2 ends)), single⟩
        | @cell element' rest' first' others' fresh' added =>
          -- The next cell comes later in the store, so that there are fewer places behind it.
          have behind : Nat.succ others ≤ others' :=
            Nat.lt_of_lt_of_le (Store.lt_size_of_cell asked nofun) added
          have less : later.store.cells.size ≤ others' + size := by
            have shifted := Nat.add_le_add_right behind size
            rw [Nat.succ_add] at shifted
            exact Nat.le_trans measure shifted
          have program : after.context = context :=
            beyond.context_eq.symm.trans (onward.context_eq.trans same)
          obtain ⟨pairs, extent, image, each⟩ := ih program beyond nested' fresh' less
          refine ⟨_, _, .next now kept image, List.forall_mem_cons.mpr ⟨own, fun pair member => ?_⟩⟩
          obtain ⟨start, place, more, right, reach, others⟩ := each pair member
          exact ⟨start, place, more, right, (ahead.trans between).trans reach, others⟩

end Source

end LazyConfig
