import LazyConfig.Proofs.Lists.Checked
import LazyConfig.Proofs.Lists.Failures
import LazyConfig.Proofs.Twins.Asides
import LazyConfig.Proofs.Twins.Turns

/-!
A walk along a checked list, next to a walk along the list that is checked in another store. Up to the first failure
they give the same, step by step: the same right parts are asked for, each element is the check of an element, and
both come to their ends together. Behind a failure nothing of the checked list is left.
-/

namespace LazyConfig

variable {context : Context} {meter : DepthMeter} {pairs more most : Pairing}
  {left right between after later middle : Store} {elem : TypeId} {path : Path} {index : Nat} {tail : ThunkId}
  {cursor other : Cursor} {stop image given : Stop}

/-! One step of both walks. -/

/--
What stands for an element of a checked list: the element itself where anything is accepted, or else a computation
of its own that checks it.
-/
inductive Store.Checks (store : Store) (graph : TypeGraph) (pairs : Pairing) (elem : TypeId) (path : Path)
    (own : ThunkId) : ThunkId → Prop
  | same (accepts : graph.acceptsAll elem = true) : store.Checks graph pairs elem path own own
  | check {given : ThunkId} (asks : graph.acceptsAll elem = false)
    (waits : store.cell given = .suspended (.check own elem path)) (single : ∀ id, ¬ pairs id given) :
    store.Checks graph pairs elem path own given

/-- Where a walk along a checked list is, next to the walk along the list that is checked. -/
inductive Ahead (pairs : Pairing) (right : Store) (elem : TypeId) (path : Path) (index : Nat) :
    Cursor → LazyList → Prop
  | cell {cursor ahead : Cursor} {front : LazyList} {tail : ThunkId} (same : CursorTwin pairs cursor ahead)
    (used : front.UsedUp) (waits : right.cell tail = .suspended (.checkList ahead.rest elem path index))
    (single : ∀ id, ¬ pairs id tail) : Ahead pairs right elem path index cursor (.concat front tail)
  | nothing : Ahead pairs right elem path index (.before []) .empty

/-- What is ahead is what is left of a checked list. -/
theorem Ahead.continues {rest : LazyList} (ahead : Ahead pairs right elem path index cursor rest) :
    right.Continues elem path index rest := by
  cases ahead with
  | cell same used waits single => exact .cell used waits
  | nothing => exact .nothing

/-- What steps along a list and along the checked list come to. -/
inductive SameStop (graph : TypeGraph) (pairs : Pairing) (later : Store) (elem : TypeId) (path : Path)
    (index : Nat) : Stop → Stop → Prop
  | item {element image : Visible} {id own given : ThunkId} {rest ahead : Cursor} (paired : pairs id own)
    (checks : later.Checks graph pairs elem (path.index index) own given)
    (further : Ahead pairs later elem path (index + 1) rest ahead.rest) :
    SameStop graph pairs later elem path index (.item element id rest) (.item image given ahead)
  | finished : SameStop graph pairs later elem path index .finished .finished
  | upset (failure : Upset) (left others : List ThunkId) :
    SameStop graph pairs later elem path index (.upset failure left) (.upset failure others)

/-- Checks that are in no pair stay put off, and in no pair. -/
def ChecksStay (pairs : Pairing) (right : Store) (more : Pairing) (later : Store) : Prop :=
  ∀ given inner type path, right.cell given = .suspended (.check inner type path) → (∀ id, ¬ pairs id given) →
    later.cell given = .suspended (.check inner type path) ∧ ∀ id, ¬ more id given

/-- Steps along a list and along the checked list, and how far the computations have come then. -/
structure StepsTwin (graph : TypeGraph) (elem : TypeId) (path : Path) (index : Nat) (pairs : Pairing)
    (left right : Store) (stop given : Stop) (after later : Store) (more : Pairing) : Prop where
  keeps : ∀ id other, pairs id other → more id other
  twins : Twins more after later
  stay : ChecksStay pairs right more later
  calls : SameCalls left after right later
  stops : SameStop graph more later elem path index stop given

/-- An element is checked in a store of which nothing else changes. -/
theorem Store.wrap_checks {graph : TypeGraph} {own checked : ThunkId} (twins : Twins pairs left between)
    (wraps : between.wrap graph own elem path = (checked, middle)) :
    between.Extends middle ∧ middle.Checks graph pairs elem path own checked := by
  have extended := between.wrap_extends graph own elem path
  rw [wraps] at extended
  refine ⟨extended, ?_⟩
  unfold Store.wrap at wraps
  split at wraps
  · rename_i accepts
    cases wraps
    exact .same accepts
  · rename_i asks
    cases wraps
    -- The check is new, and so in no pair.
    exact .check (by simpa using asks) (between.suspend_cell _)
      fun id paired => Nat.lt_irrefl _ (twins.inside _ _ paired).2

/-- A cell that takes the step of the other walk comes to the check of what that comes to. -/
theorem CellStep.twin {graph : TypeGraph} {source : LazyList}
    (cell : CellStep graph elem path index tail between image given later)
    (waits : right.cell tail = .suspended (.checkList source elem path index)) (single : ∀ id, ¬ pairs id tail)
    (stops : StopsTwin pairs left (right.set tail .inProgress) stop image after between more) :
    StepsTwin graph elem path index pairs left right stop given after later more := by
  have inside : tail < (right.set tail .inProgress).cells.size := by
    rw [Store.set_size]
    exact Store.lt_size_of_cell waits nofun
  have alone : ∀ id, ¬ more id tail := stops.grows.single inside single
  -- Whatever the cell adds and keeps, checks that were there are not touched.
  have stay {last : Store} (extended : between.Extends last) (state : Cell) :
      ChecksStay pairs right more (last.set tail state) := by
    intro check inner type place found none
    have apart : check ≠ tail := by
      rintro rfl
      cases found.symm.trans waits
    have there : check < (right.set tail .inProgress).cells.size := by
      rw [Store.set_size]
      exact Store.lt_size_of_cell found nofun
    refine ⟨?_, stops.grows.single there none⟩
    have kept := stops.grows.alone check there none
    rw [Store.cell_set_of_ne apart, extended.2 check (Nat.lt_of_lt_of_le there stops.grows.size), kept,
      Store.cell_set_of_ne apart, found]
  have calls {last : Store} (quiet : last.calls = between.calls) (state : Cell) :
      SameCalls left after right (last.set tail state) :=
    stops.calls.of_calls rfl rfl (Store.set_calls ..).symm ((Store.set_calls ..).trans quiet)
  have twins {last : Store} (extended : between.Extends last) (state : Cell) :
      Twins more after (last.set tail state) := (stops.twins.extend extended).set_single alone state
  -- What the cell does with the answer decides what both walks stop with.
  have both := stops.stops
  cases cell with
  | @item _ own checked next ahead middle last wraps puts =>
    cases both with
    | item paired cursors =>
      obtain ⟨wrapped, checks⟩ := Store.wrap_checks stops.twins wraps
      have quiet := between.wrap_calls graph own elem (path.index index)
      rw [wraps] at quiet
      obtain ⟨rfl, rfl⟩ : middle.cells.size = next ∧ (middle.suspend _).2 = last := Prod.mk.inj puts
      have grown := middle.suspend_extends (.checkList ahead.rest elem path (index + 1))
      -- The cell itself is under way all the time, while the check of the element and the next cell wait.
      have busy : middle.cell tail = .inProgress := by
        have kept := stops.grows.alone tail inside single
        rw [wrapped.2 tail (Nat.lt_of_lt_of_le inside stops.grows.size), kept]
        exact Store.cell_set_self (Store.lt_size_of_cell waits nofun) _
      have all := wrapped.trans grown
      let state : Cell := .forced (.list (.concat (.ofThunks [checked]) middle.cells.size))
      refine ⟨stops.grows.keeps, twins all state, stay all state, calls quiet state, .item paired ?_ ?_⟩
      · cases checks with
        | same accepts => exact .same accepts
        | check asks waiting alone =>
          have apart : checked ≠ tail := by
            rintro rfl
            cases busy.symm.trans waiting
          refine .check asks ?_ alone
          rw [Store.cell_set_of_ne apart, grown.2 checked (Store.lt_size_of_cell waiting nofun), waiting]
      · have fresh : middle.cells.size ≠ tail :=
          Nat.ne_of_gt (Nat.lt_of_lt_of_le inside (Nat.le_trans stops.grows.size wrapped.1))
        have used : (LazyList.elems #[checked] 1).UsedUp := rfl
        refine .cell cursors used ((Store.cell_set_of_ne fresh _).trans (middle.suspend_cell _)) fun id paired => ?_
        have bound := (stops.twins.inside _ _ paired).2
        exact Nat.lt_irrefl _ (Nat.lt_of_lt_of_le bound wrapped.1)
  | finished =>
    cases both
    exact ⟨stops.grows.keeps, twins (.refl _) _, stay (.refl _) _, calls rfl _, .finished⟩
  | upset failure left =>
    cases both
    exact ⟨stops.grows.keeps, twins (.refl _) _, stay (.refl _) _, calls rfl _, .upset _ _ _⟩

section

variable {rest : LazyList}

/-- The end of a list, which is that of the checked list. -/
theorem StepsTwin.nothing {graph : TypeGraph} (twins : Twins pairs left right) :
    StepsTwin graph elem path index pairs left right .finished .finished left right pairs :=
  ⟨fun _ _ paired => paired, twins, fun _ _ _ _ found none => ⟨found, none⟩, .refl _ _, .finished⟩

/-- For a step along the list there is one along the checked list. -/
theorem Ahead.forth (ahead : Ahead pairs right elem path index cursor other.rest) (twins : Twins pairs left right)
    (turn : Turn context meter left cursor stop after) :
    ∃ more given later, Turn context meter right other given later ∧
      StepsTwin context.annotations.graph elem path index pairs left right stop given after later more := by
  generalize shape : other.rest = rest at ahead
  cases ahead with
  | @cell _ position front tail same used waits single =>
    -- Once the cell is under way, it takes the same step.
    obtain ⟨more, image, between, own, stops⟩ := (twins.set_single single .inProgress).turn same turn
    obtain ⟨given, later, here, cell⟩ := own.to_rest.cell used waits
    have alike : other.rest = Cursor.rest ⟨front, [tail]⟩ := shape
    exact ⟨more, given, later, here.of_same_rest alike, cell.twin waits single stops⟩
  | nothing =>
    obtain ⟨rfl, rfl⟩ := turn.unique (.finished LazyList.empty_usedUp)
    have here : Turn context meter right (.before []) .finished right := .finished LazyList.empty_usedUp
    have alike : other.rest = Cursor.rest (.before []) := shape
    exact ⟨pairs, .finished, right, here.of_same_rest alike, .nothing twins⟩

/-- For a step along the checked list there is one along the list. -/
theorem Ahead.back (ahead : Ahead pairs right elem path index cursor other.rest) (twins : Twins pairs left right)
    (turn : Turn context meter right other given later) :
    ∃ more stop after, Turn context meter left cursor stop after ∧
      StepsTwin context.annotations.graph elem path index pairs left right stop given after later more := by
  generalize shape : other.rest = rest at ahead
  cases ahead with
  | @cell _ position front tail same used waits single =>
    have here : Turn context meter right ⟨front, [tail]⟩ given later := turn.of_same_rest shape.symm
    obtain ⟨image, between, own, cell⟩ := here.of_cell used waits
    -- The step of the cell is one along the list as well.
    have alike : position.rest = position.rest.cursor.rest := rfl
    have walked := own.of_same_rest alike
    obtain ⟨more, stop, after, back, stops⟩ := (twins.set_single single .inProgress).turn_back same walked
    exact ⟨more, stop, after, back, cell.twin waits single stops⟩
  | nothing =>
    have here : Turn context meter right (.before []) .finished right := .finished LazyList.empty_usedUp
    have alike : other.rest = Cursor.rest (.before []) := shape
    obtain ⟨rfl, rfl⟩ := turn.unique (here.of_same_rest alike)
    exact ⟨pairs, .finished, left, .finished LazyList.empty_usedUp, .nothing twins⟩

end

/-! All steps of both walks. -/

/-- What a step along a list and one along the checked list give. -/
inductive SameStep (graph : TypeGraph) (pairs : Pairing) (later : Store) (elem : TypeId) (path : Path)
    (index : Nat) : Except Upset (Option ThunkId) → Except Upset (Option ThunkId) → Prop
  /-- An element, and what stands for it. -/
  | item {id own given : ThunkId} (paired : pairs id own)
    (checks : later.Checks graph pairs elem (path.index index) own given) :
    SameStep graph pairs later elem path index (.ok (some id)) (.ok (some given))
  /-- The end of both lists. -/
  | ended : SameStep graph pairs later elem path index (.ok none) (.ok none)
  /-- The same failure. -/
  | upset (failure : Upset) : SameStep graph pairs later elem path index (.error failure) (.error failure)

/-- What several steps along a list and along the checked list give. -/
inductive SameSteps (graph : TypeGraph) (pairs : Pairing) (later : Store) (elem : TypeId) (path : Path) :
    Nat → List (Except Upset (Option ThunkId)) → List (Except Upset (Option ThunkId)) → Prop
  | none {index : Nat} : SameSteps graph pairs later elem path index [] []
  | next {index : Nat} {result other : Except Upset (Option ThunkId)}
    {results others : List (Except Upset (Option ThunkId))}
    (first : SameStep graph pairs later elem path index result other)
    (further : SameSteps graph pairs later elem path (index + 1) results others) :
    SameSteps graph pairs later elem path index (result :: results) (other :: others)

/-- No step but the last one fails. -/
def FailsLast (results : List (Except Upset (Option ThunkId))) : Prop :=
  ∀ result ∈ results.dropLast, ∃ item, result = .ok item

/-- Walks along a list and along the checked list, and how far the computations have come then. -/
structure WalksTwin (graph : TypeGraph) (elem : TypeId) (path : Path) (index : Nat) (pairs : Pairing)
    (left right : Store) (results others : List (Except Upset (Option ThunkId))) (after later : Store)
    (more : Pairing) : Prop where
  keeps : ∀ id other, pairs id other → more id other
  twins : Twins more after later
  stay : ChecksStay pairs right more later
  calls : SameCalls left after right later
  steps : SameSteps graph more later elem path index results others

/-- Both walks stand in their stores. -/
structure Stand (left right : Store) (cursor other : Cursor) : Prop where
  closed : left.Closed
  within : cursor.Within left.cells.size
  known : right.Closed
  inside : other.Within right.cells.size

section

variable {graph : TypeGraph} {last : Store} {result image : Except Upset (Option ThunkId)}
  {results others : List (Except Upset (Option ThunkId))}

theorem FailsLast.behind (fails : FailsLast (result :: results)) : FailsLast results := by
  intro other member
  cases results with
  | nil => cases member
  | cons first rest => exact fails other (List.mem_cons_of_mem _ member)

/-- Only the last step may fail, so that there is no further one behind a failure. -/
theorem FailsLast.alone {failure : Upset} (fails : FailsLast (.error failure :: results)) : results = [] := by
  cases results with
  | nil => rfl
  | cons first rest =>
    obtain ⟨item, same⟩ := fails (.error failure) List.mem_cons_self
    cases same

/-- The check of an element stands for it as long as it is left alone. -/
theorem Store.Checks.stays {own given : ThunkId} (checks : right.Checks graph pairs elem path own given)
    (stay : ChecksStay pairs right more later) : later.Checks graph more elem path own given := by
  cases checks with
  | same accepts => exact .same accepts
  | check asks waits single =>
    obtain ⟨kept, alone⟩ := stay given own elem path waits single
    exact .check asks kept alone

theorem ChecksStay.trans (first : ChecksStay pairs left more right) (second : ChecksStay more right most later) :
    ChecksStay pairs left most later := by
  intro given inner type place found single
  obtain ⟨kept, alone⟩ := first given inner type place found single
  exact second given inner type place kept alone

/-- What is given in steps that come to the same. -/
theorem SameStop.step (stops : SameStop graph more later elem path index stop given)
    (stay : ChecksStay more later most last) (keeps : ∀ id other, more id other → most id other) :
    SameStep graph most last elem path index (stop.reply after).result (given.reply later).result := by
  cases stops with
  | item paired checks further => exact .item (keeps _ _ paired) (checks.stays stay)
  | finished => exact .ended
  | upset failure left others => exact .upset failure

/-- Behind steps that come to the same but do not fail, both walks stand next to each other again. -/
theorem SameStop.ahead (stops : SameStop graph more later elem path index stop given)
    (fine : ∃ item, (stop.reply after).result = .ok item) :
    Ahead more later elem path (index + 1) (stop.reply after).cursor (given.reply later).cursor.rest ∧
      ∃ item, (given.reply later).result = .ok item := by
  cases stops with
  | item paired checks further => exact ⟨further, _, rfl⟩
  | finished => exact ⟨.nothing, _, rfl⟩
  | upset failure =>
    obtain ⟨item, same⟩ := fine
    cases same

/-- Steps that come to the same fail together. -/
theorem SameStop.fine (stops : SameStop graph more later elem path index stop given)
    (fine : ∃ item, (given.reply later).result = .ok item) : ∃ item, (stop.reply after).result = .ok item := by
  cases stops with
  | item | finished => exact ⟨_, rfl⟩
  | upset failure =>
    obtain ⟨item, same⟩ := fine
    cases same

/-- A step and the others, as one walk. -/
theorem WalksTwin.next (first : StepsTwin graph elem path index pairs left right stop given after later more)
    (further : WalksTwin graph elem path (index + 1) more after later results others between last most) :
    WalksTwin graph elem path index pairs left right ((stop.reply after).result :: results)
      ((given.reply later).result :: others) between last most :=
  ⟨fun id other paired => further.keeps id other (first.keeps id other paired), further.twins,
    first.stay.trans further.stay, first.calls.trans further.calls,
    .next (first.stops.step further.stay further.keeps) further.steps⟩

/-- A walk without steps. -/
theorem WalksTwin.none (twins : Twins pairs left right) :
    WalksTwin graph elem path index pairs left right [] [] left right pairs :=
  ⟨fun _ _ paired => paired, twins, fun _ _ _ _ found none => ⟨found, none⟩, .refl _ _, .none⟩

variable {evaluator : Evaluator} {place : Cursor}

/-- For a walk along the list there is one along the checked list. -/
theorem Ahead.walks (walks : evaluator.Walks left cursor results place after)
    (ahead : Ahead pairs right elem path index cursor other.rest) (twins : Twins pairs left right)
    (stand : Stand left right cursor other) (fails : FailsLast results) :
    ∃ more others place later, evaluator.Walks right other others place later ∧
      WalksTwin evaluator.context.annotations.graph elem path index pairs left right results others after later
        more := by
  induction walks generalizing pairs right other index with
  | none => exact ⟨pairs, [], other, right, .none, .none twins⟩
  | @next store middle last cursor rest place result results fuel here others ih =>
    obtain ⟨stop, turn, reply⟩ := Evaluator.turn_of_answer stand.closed stand.within here
    obtain ⟨more, given, between, image, steps⟩ := ahead.forth twins turn
    obtain ⟨enough, there⟩ := Evaluator.answer_of_turn image
    obtain ⟨same, rfl⟩ : (stop.reply middle).result = result ∧ (stop.reply middle).cursor = rest := by
      -- What the two walks answer has to be compared, as only answers of elements let them go on.
      rw [reply]
      exact ⟨rfl, rfl⟩
    cases result with
    | error failure =>
      -- The walk ends with a failure, and so does the other one.
      obtain rfl := fails.alone
      cases others
      have whole := WalksTwin.next steps (.none steps.twins)
      rw [same] at whole
      exact ⟨more, _, _, between, .next there .none, whole⟩
    | ok item =>
      obtain ⟨further, image_item, image_same⟩ := steps.stops.ahead ⟨item, same⟩
      obtain ⟨closed, within⟩ := Evaluator.next_within stand.closed stand.within here (.inr ⟨item, rfl⟩)
      obtain ⟨known, inside⟩ := Evaluator.next_within stand.known stand.inside there (.inr ⟨image_item, image_same⟩)
      obtain ⟨most, images, last_place, final, walk, whole⟩ :=
        ih further steps.twins ⟨closed, within, known, inside⟩ fails.behind
      have all := WalksTwin.next steps whole
      rw [same] at all
      exact ⟨most, _, last_place, final, .next there walk, all⟩

/-- For a walk along the checked list there is one along the list. -/
theorem Ahead.walks_back (walks : evaluator.Walks right other others place later)
    (ahead : Ahead pairs right elem path index cursor other.rest) (twins : Twins pairs left right)
    (stand : Stand left right cursor other) (fails : FailsLast others) :
    ∃ more results place after, evaluator.Walks left cursor results place after ∧
      WalksTwin evaluator.context.annotations.graph elem path index pairs left right results others after later
        more := by
  induction walks generalizing pairs left cursor index with
  | none => exact ⟨pairs, [], cursor, left, .none, .none twins⟩
  | @next store middle last other rest place result others fuel here further ih =>
    -- The other direction is the same walk from the side of the checked list.
    obtain ⟨given, turn, reply⟩ := Evaluator.turn_of_answer stand.known stand.inside here
    obtain ⟨more, stop, between, own, steps⟩ := ahead.back twins turn
    obtain ⟨enough, there⟩ := Evaluator.answer_of_turn own
    obtain ⟨same, rfl⟩ : (given.reply middle).result = result ∧ (given.reply middle).cursor = rest := by
      rw [reply]
      exact ⟨rfl, rfl⟩
    cases result with
    | error failure =>
      obtain rfl := fails.alone
      cases further
      have whole := WalksTwin.next steps (.none steps.twins)
      rw [same] at whole
      exact ⟨more, _, _, between, .next there .none, whole⟩
    | ok item =>
      obtain ⟨own_item, own_same⟩ := steps.stops.fine ⟨item, same⟩
      obtain ⟨onward, -⟩ := steps.stops.ahead ⟨own_item, own_same⟩
      obtain ⟨known, inside⟩ := Evaluator.next_within stand.known stand.inside here (.inr ⟨item, rfl⟩)
      obtain ⟨closed, within⟩ := Evaluator.next_within stand.closed stand.within there (.inr ⟨own_item, own_same⟩)
      obtain ⟨most, results, last_place, final, walk, whole⟩ :=
        ih onward steps.twins ⟨closed, within, known, inside⟩ fails.behind
      have all := WalksTwin.next steps whole
      rw [same] at all
      exact ⟨most, _, last_place, final, .next there walk, all⟩

end

/-! The list that a check makes of a list. -/

/-- What a walk along a list and one along its checked list have in common. -/
structure StayAbreast (graph : TypeGraph) (before : Store) (elem : TypeId) (path : Path) (pairs : Pairing)
    (results others : List (Except Upset (Option ThunkId))) (after later : Store) : Prop where
  /-- The computations that were there stand for themselves. -/
  known : ∀ id < before.cells.size, pairs id id
  /-- Computations that stand for each other have come as far, and to the same. -/
  twins : Twins pairs after later
  /-- So they have been asked for on both walks, or on none of them. -/
  asked : ∀ id other, pairs id other →
    ((∃ work, after.cell id = .suspended work) ↔ ∃ work, later.cell other = .suspended work)
  /-- The same host functions have been called, in the same order. -/
  calls : after.calls = later.calls
  /-- An element, the end or a failure is given exactly where the other walk gives one. -/
  steps : SameSteps graph pairs later elem path 0 results others

/-- What walks along a list and along the list that is made of it are to each other. -/
structure KeepsAbreast (evaluator : Evaluator) (elem : TypeId) (path : Path) (before : Store) (source : LazyList)
    (made : Store) (checked : LazyList) : Prop where
  /-- For a walk along the list there is one along the checked list, -/
  forth : ∀ {results place after}, evaluator.Walks before source.cursor results place after → FailsLast results →
    ∃ pairs others there later, evaluator.Walks made checked.cursor others there later ∧
      StayAbreast evaluator.context.annotations.graph before elem path pairs results others after later
  /-- and the other way round. -/
  back : ∀ {others place later}, evaluator.Walks made checked.cursor others place later → FailsLast others →
    ∃ pairs results there after, evaluator.Walks before source.cursor results there after ∧
      StayAbreast evaluator.context.annotations.graph before elem path pairs results others after later
  /-- From the head or from any rest, whoever walks again gets the same, and nothing happens then. -/
  again : ∀ {first place middle others last later}, evaluator.Walks made checked.cursor first place middle →
    evaluator.Walks middle place others last later → ∀ (anyone : Evaluator) final, later.Precedes final →
      ∀ start ∈ [place, place.rest.cursor], ∃ there, anyone.Walks final start (others.map recalled) there final
  /-- Behind a failure, the end of the checked list is reported. -/
  lost : ∀ {others place middle fuel failure left later}, evaluator.Walks made checked.cursor others place middle →
    evaluator.next fuel place middle = some ⟨.error failure, left, later⟩ →
      ∀ enough, 1 ≤ enough → evaluator.next enough left later = some ⟨.ok none, left, later⟩
  /-- The check of an element forces the element, and checks what that comes to. -/
  guards : ∀ {later given own type place}, later.cell given = .suspended (.check own type place) →
    ∀ meter outcome after, Brings evaluator.context meter later (.force given) outcome after ↔
      ∃ result between, Brings evaluator.context meter (later.set given .inProgress) (.force own) result between ∧
        let checked := result.checked evaluator.context type place between
        outcome = checked.1 ∧ after = checked.2.set given (.ended checked.1)

/-- The walks begin next to each other. -/
theorem Store.Closed.abreast {store : Store} {source : LazyList} (closed : store.Closed)
    (within : source.Within store.cells.size) (elem : TypeId) (path : Path) :
    let made := store.suspend (.checkList source elem path 0)
    let checked : LazyList := .concat .empty made.1
    Twins (.below store.cells.size) store made.2 ∧
      Ahead (.below store.cells.size) made.2 elem path 0 source.cursor checked.cursor.rest ∧
      Stand store made.2 source.cursor checked.cursor := by
  intro made checked
  have start : source.cursor.Within store.cells.size := ⟨within, nofun⟩
  have work : Suspension.Within .all store.cells.size (.checkList source elem path 0) := within
  obtain ⟨grows, there⟩ := Store.suspend_grows work
  refine ⟨Store.Within.twins closed (store.suspend_extends _), ?_, closed, start, grows.within closed, ?_⟩
  · -- The first cell waits, and it is in no pair because it is new.
    refine .cell ⟨LazyList.Within.twin within, .nil⟩ LazyList.empty_usedUp (store.suspend_cell _) ?_
    rintro id ⟨inside, rfl⟩
    exact Nat.lt_irrefl _ inside
  · exact ⟨⟨trivial, there⟩, nofun⟩

/-- Walks that come as far, from the beginning of a list and of its checked list. -/
theorem WalksTwin.abreast {graph : TypeGraph} {store : Store} {work : Suspension}
    {results others : List (Except Upset (Option ThunkId))}
    (walks : WalksTwin graph elem path 0 (.below store.cells.size) store (store.suspend work).2 results others
      after later more) : StayAbreast graph store elem path more results others after later where
  known id inside := walks.keeps id id ⟨inside, rfl⟩
  twins := walks.twins
  asked id other paired := by
    have cells := walks.twins.cells id other paired
    generalize after.cell id = cell at cells
    generalize later.cell other = image at cells
    cases cells <;> simp
  calls := by
    obtain ⟨calls, first, second⟩ := walks.calls
    rw [first, second, Store.suspend_calls]
  steps := walks.steps

/--
Up to the first failure, the list that a check makes of a list is walked abreast with it. Behind a failure, nothing of
the checked list is left.
-/
theorem checked_list_abreast (evaluator : Evaluator) {store : Store} {source : LazyList} {type elem : TypeId}
    (path : Path) (closed : store.Closed) (within : source.Within store.cells.size)
    (typed : evaluator.context.annotations.graph.node (evaluator.context.annotations.graph.shape type) = .list elem) :
    ∃ checked made, store.check evaluator.context.names evaluator.context.annotations.graph (.list source) type path =
        (.ok (.list checked), made) ∧ KeepsAbreast evaluator elem path store source made checked := by
  let made := store.suspend (.checkList source elem path 0)
  -- The checked list is one cell that waits for the whole check.
  obtain ⟨twins, ahead, stand⟩ := closed.abreast within elem path
  refine ⟨.concat .empty made.1, made.2, ?_, ?_⟩
  · simp only [Store.check, typed]
    rfl
  constructor
  case forth =>
    intro results place after walks fails
    obtain ⟨more, others, last, later, walked, both⟩ := ahead.walks walks twins stand fails
    exact ⟨more, others, last, later, walked, both.abreast⟩
  case back =>
    intro others place later walks fails
    obtain ⟨more, results, last, after, walked, both⟩ := ahead.walks_back walks twins stand fails
    exact ⟨more, results, last, after, walked, both.abreast⟩
  case again =>
    intro first place middle others last later walked further anyone final order start member
    obtain ⟨-, known, inside, index, left⟩ := walked.continues stand.known stand.inside ahead.continues
    -- Of the position and of its list the same is left.
    refine further.again known inside left anyone order ?_
    simp only [List.mem_cons, List.not_mem_nil, or_false] at member
    rcases member with rfl | rfl <;> rfl
  case lost =>
    intro others place middle fuel failure left later walked failed enough least
    obtain ⟨-, known, inside, index, rest⟩ := walked.continues stand.known stand.inside ahead.continues
    obtain rfl := Evaluator.nothing_behind_failure known inside rest failed
    exact evaluator.next_before_nil later least
  case guards =>
    intro later given own type place waits meter outcome after
    exact Brings.check_iff waits

/-- The type of lists of numbers. -/
def numbersTypes : Annotations :=
  ⟨⟨#[.list 1, .num]⟩, #[]⟩

/-- The list `[] @ 1 / 0 @ [0]`, checked as a list of numbers. -/
theorem checked_list_abreast_brokenBeforeList :
    let evaluator : Evaluator := ⟨⟨{}, brokenAndList, numbersTypes⟩, {}⟩
    let source : LazyList := .concat (.concat .empty 0) 1
    ∃ checked made, brokenBeforeList.check {} numbersTypes.graph (.list source) 0 .root = (.ok (.list checked), made) ∧
      KeepsAbreast evaluator 1 .root brokenBeforeList source made checked := by
  intro evaluator source
  have closed : brokenBeforeList.Closed := by
    -- Both right parts are expressions that are put off, in no scope.
    intro id inside
    obtain rfl | rfl : id = 0 ∨ id = 1 := by
      have bound : id < 2 := inside
      omega
    all_goals exact ⟨trivial, nofun⟩
  have within : source.Within brokenBeforeList.cells.size := ⟨⟨trivial, by decide⟩, by decide⟩
  exact checked_list_abreast evaluator .root closed within rfl

/--
Behind the failure of `[] @ 1 / 0 @ [0]` the second step gives the element, while the second step along the checked list
reports the end.
-/
theorem element_lost_from_checked_list :
    let evaluator : Evaluator := ⟨⟨{}, brokenAndList, numbersTypes⟩, {}⟩
    let source : LazyList := .concat (.concat .empty 0) 1
    ∃ checked made, brokenBeforeList.check {} numbersTypes.graph (.list source) 0 .root = (.ok (.list checked), made) ∧
      ∃ failure item, (∃ place after,
          evaluator.Walks brokenBeforeList source.cursor [.error failure, .ok (some item)] place after) ∧
        ∃ place after, evaluator.Walks made checked.cursor [.error failure, .ok none] place after := by
  intro evaluator source
  let checked : LazyList := .concat .empty 2
  let made := (brokenBeforeList.suspend (.checkList source 1 .root 0)).2
  -- Both walks begin with the same failure.
  have failed : evaluator.next 20 source.cursor brokenBeforeList =
    some ⟨.error (.error ⟨.divisionByZero, []⟩), .before [1], _⟩ := rfl
  have also : evaluator.next 30 checked.cursor made =
    some ⟨.error (.error ⟨.divisionByZero, []⟩), .before [], _⟩ := rfl
  have element : ∃ id rest after, evaluator.next 20 (.before [1]) listBehindBroken =
    some ⟨.ok (some id), rest, after⟩ := ⟨2, _, _, rfl⟩
  obtain ⟨item, rest, after, found⟩ := element
  exact ⟨checked, made, rfl, _, item, ⟨rest, after, .next failed (.next found .none)⟩, _, _,
    .next also (.next (evaluator.next_before_nil _ (Nat.le_refl 1)) .none)⟩

end LazyConfig
