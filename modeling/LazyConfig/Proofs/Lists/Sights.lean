import LazyConfig.Proofs.Lists.Sequence
import LazyConfig.Proofs.Machine.Outcomes

/-!
What is there at a position of a list without evaluating anything. A step that has come to an element or to
the end has made it visible, and a later step on any level comes to the same without evaluating anything.
-/

namespace LazyConfig

/-- The computation that stands for an element; an integer of a range gets one of its own. -/
def Store.reveal (store : Store) : Visible → ThunkId × Store
  | .thunk id => (id, store)
  | .int value => store.ready (.int value)

/-- What a step comes to, other than that a limit of levels was reached. -/
def Stop.Fits (stop : Stop) (limit : Nat) : Prop :=
  ∀ upset left, stop = .upset upset left → ¬ upset.Overflows limit

/-- A step to an element has reached no limit. -/
theorem Stop.item_fits (element : Visible) (own : ThunkId) (rest : Cursor) (limit : Nat) :
    (item element own rest).Fits limit := by
  simp [Fits]

/-- A step to the end has reached no limit. -/
theorem Stop.finished_fits (limit : Nat) : finished.Fits limit := by
  simp [Fits]

/-- The next element and the position behind it, or the end, where all right parts on the way are evaluated. -/
inductive Store.Sees (store : Store) : Cursor → Option (Visible × Cursor) → Prop
  | elem {items : Array ThunkId} {start : Nat} {id : ThunkId} {pending : List ThunkId}
    (found : items[start]? = some id) :
    Sees store ⟨.elems items start, pending⟩ (some (.thunk id, ⟨.elems items (start + 1), pending⟩))
  | int {next stop : Int64} {pending : List ThunkId} (more : next < stop) :
    Sees store ⟨.range next stop, pending⟩ (some (.int next, ⟨.range (next + 1) stop, pending⟩))
  | concat {left : LazyList} {right : ThunkId} {pending : List ThunkId} {sight : Option (Visible × Cursor)}
    (sees : Sees store ⟨left, right :: pending⟩ sight) : Sees store ⟨.concat left right, pending⟩ sight
  | finished {front : LazyList} (used : front.UsedUp) : Sees store ⟨front, []⟩ none
  | cross {front items : LazyList} {right : ThunkId} {pending : List ThunkId}
    {sight : Option (Visible × Cursor)} (used : front.UsedUp)
    (found : store.cell right = .forced (.list items)) (sees : Sees store ⟨items, pending⟩ sight) :
    Sees store ⟨front, right :: pending⟩ sight

/-- The elements between two positions of a list, where all right parts on the way are evaluated. -/
inductive Store.Passes (store : Store) : Cursor → List Visible → Cursor → Prop
  | here {cursor : Cursor} : Passes store cursor [] cursor
  | next {cursor rest last : Cursor} {element : Visible} {elements : List Visible}
    (sees : store.Sees cursor (some (element, rest))) (others : Passes store rest elements last) :
    Passes store cursor (element :: elements) last

variable {context : Context} {meter : DepthMeter} {store after : Store} {cursor rest last : Cursor}
  {element : Visible} {id : ThunkId} {stop : Stop}

/-- A new computation for an element stands for it. -/
theorem Store.reveal_extends (store : Store) (element : Visible) :
    store.Extends (store.reveal element).2 := by
  cases element with
  | thunk id => exact .refl store
  | int value => exact store.ready_extends _

namespace Store.Sees

/-- What is visible stays visible. -/
theorem later {sight : Option (Visible × Cursor)} (sees : store.Sees cursor sight)
    (order : store.Precedes after) : after.Sees cursor sight := by
  induction sees with
  | elem found => exact .elem found
  | int more => exact .int more
  | concat _ ih => exact .concat ih
  | finished used => exact .finished used
  | cross used found _ ih => exact .cross used (order.forced found) ih

/-- A step to a visible element evaluates nothing. -/
theorem turn (sees : store.Sees cursor (some (element, rest))) :
    Turn context meter store cursor (.item element (store.reveal element).1 rest)
      (store.reveal element).2 := by
  generalize looked : some (element, rest) = sight at sees
  induction sees with
  | elem found =>
    obtain ⟨rfl, rfl⟩ := Prod.mk.inj (Option.some.inj looked)
    exact .elem found
  | int more =>
    obtain ⟨rfl, rfl⟩ := Prod.mk.inj (Option.some.inj looked)
    exact .int more
  | concat _ ih => exact .concat (ih looked)
  | finished used => cases looked
  | cross used found _ ih => exact .cross used (.of_forced found) (ih looked)

/-- A step to a visible end evaluates nothing. -/
theorem turn_finished (sees : store.Sees cursor none) : Turn context meter store cursor .finished store := by
  generalize looked : none = sight at sees
  induction sees with
  | elem found | int more => cases looked
  | concat _ ih => exact .concat (ih looked)
  | finished used => exact .finished used
  | cross used found _ ih => exact .cross used (.of_forced found) (ih looked)

/-- There is one thing to be seen at a position. -/
theorem unique {sight other : Option (Visible × Cursor)} (left : store.Sees cursor sight)
    (right : store.Sees cursor other) : sight = other := by
  -- The steps that the two stand for come to one thing only.
  cases sight with
  | none =>
    cases other with
    | none => rfl
    | some pair => cases (@turn_finished default default _ _ left).unique right.turn |>.1
  | some pair =>
    cases other with
    | none => cases (@turn default default _ _ _ _ left).unique right.turn_finished |>.1
    | some pair' =>
      have same := (@turn default default _ _ _ _ left).unique right.turn |>.1
      obtain ⟨here, -, there⟩ := Stop.item.inj same
      exact congrArg some (Prod.ext here there)

end Store.Sees

namespace Store.Passes

variable {elements : List Visible}

/-- The first of several visible elements, and the others. -/
theorem uncons (passes : store.Passes cursor (element :: elements) last) :
    ∃ rest, store.Sees cursor (some (element, rest)) ∧ store.Passes rest elements last := by
  cases passes with
  | next sees others => exact ⟨_, sees, others⟩

/-- A list whose end is visible has the elements on the way to it, now and later. -/
theorem sequence (passes : store.Passes cursor elements last) (ends : store.Sees last none)
    (order : store.Precedes after) :
    ∃ late, Sequence context meter after cursor.rest elements .finished late := by
  induction passes generalizing after with
  | here => exact ⟨after, (ends.later order).turn_finished.reads⟩
  | @next cursor rest last element elements sees others ih =>
    -- An integer of a range gets a computation of its own, so that the store is another one.
    have turn := @Sees.turn context meter _ _ _ _ (sees.later order)
    obtain ⟨late, sequence⟩ := ih ends (order.trans turn.precedes)
    exact ⟨late, turn.reads.2 _ _ _ sequence⟩

/-- A list with visible elements in front has the others behind them. -/
theorem behind {all : List Visible} {late : Store} (passes : store.Passes cursor elements last)
    (order : store.Precedes after) (sequence : Sequence context meter after cursor.rest all .finished late) :
    ∃ more middle, all = elements ++ more ∧ store.Precedes middle ∧
      Sequence context meter middle last.rest more .finished late := by
  -- By induction on what is passed: each element in sight is the one that the walk comes to next.
  induction passes generalizing after all with
  | here => exact ⟨all, after, rfl, order, sequence⟩
  | @next cursor rest last element elements sees others ih =>
    have turn := @Sees.turn context meter _ _ _ _ (sees.later order)
    obtain ⟨found, rfl, visits⟩ := sequence_rest_iff.mp sequence
    cases visits with
    | finished other => cases (turn.unique other).1
    | next other visits =>
      obtain ⟨same, rfl⟩ := turn.unique other
      obtain ⟨rfl, -, rfl⟩ := Stop.item.inj same
      obtain ⟨more, middle, all, order, sequence⟩ := ih (order.trans turn.precedes) (.of_visits visits)
      exact ⟨more, middle, by simp [all], order, sequence⟩

/-- Where the end is visible, the visible elements are all elements. -/
theorem length_eq {all : List Visible} {late : Store} (passes : store.Passes cursor elements last)
    (ends : store.Sees last none) (order : store.Precedes after)
    (sequence : Sequence context meter after cursor.rest all .finished late) :
    all.length = elements.length := by
  obtain ⟨more, middle, rfl, further, rest⟩ := passes.behind order sequence
  obtain ⟨rfl, -⟩ := rest.unique (ends.later further).turn_finished.reads nofun nofun
  simp

/-- Where one more element is visible, there are more elements. -/
theorem length_lt {all : List Visible} {late : Store} (passes : store.Passes cursor elements last)
    {sight : Visible × Cursor} (sees : store.Sees last (some sight)) (order : store.Precedes after)
    (sequence : Sequence context meter after cursor.rest all .finished late) :
    elements.length < all.length := by
  obtain ⟨more, middle, rfl, further, rest⟩ := passes.behind order sequence
  obtain ⟨rest', last', same, -, -⟩ := Passes.behind (.next sees .here) further rest
  simp [same]

/-- There are at least as many elements as are visible. -/
theorem length_le {all : List Visible} {late : Store} (passes : store.Passes cursor elements last)
    (order : store.Precedes after) (sequence : Sequence context meter after cursor.rest all .finished late) :
    elements.length ≤ all.length := by
  obtain ⟨more, middle, rfl, -⟩ := passes.behind order sequence
  simp

end Store.Passes

namespace Turn

/-- A step that has come to an element has made it visible. -/
theorem sees (turn : Turn context meter store cursor (.item element id rest) after) :
    after.Sees cursor (some (element, rest)) := by
  generalize reached : Stop.item element id rest = stop at turn
  induction turn with
  | elem found =>
    obtain ⟨rfl, rfl, rfl⟩ := Stop.item.inj reached
    exact .elem found
  | int more =>
    obtain ⟨rfl, rfl, rfl⟩ := Stop.item.inj reached
    exact .int more
  | concat _ ih => exact .concat (ih reached)
  | cross used forces turn ih => exact .cross used (turn.precedes.forced forces.forced.1) (ih reached)
  | finished used | fails used fails | noList used forces other => cases reached

/-- A step that has come to the end has made it visible. -/
theorem sees_finished (turn : Turn context meter store cursor .finished after) : after.Sees cursor none := by
  generalize reached : Stop.finished = stop at turn
  induction turn with
  | finished used => exact .finished used
  | concat _ ih => exact .concat (ih reached)
  | cross used forces turn ih => exact .cross used (turn.precedes.forced forces.forced.1) (ih reached)
  | elem found | int more | fails used fails | noList used forces other => cases reached

/-- A step along a list comes to the same on any level with as many levels left. -/
theorem shift {low high : DepthMeter} (turn : Turn context low store cursor stop after)
    (fits : stop.Fits low.limit) (room : low.limit + high.current ≤ high.limit + low.current) :
    Turn context high store cursor stop after := by
  induction turn with
  | elem found => exact .elem found
  | int more => exact .int more
  | concat _ ih => exact .concat (ih fits)
  | finished used => exact .finished used
  | cross used forces _ ih => exact .cross used (forces.shift room) (ih fits)
  | fails used fails => exact .fails used (fails.shift (fits _ _ rfl) room)
  | noList used forces other => exact .noList used (forces.shift room) other

/-- A walk on the way to an outcome that is handed to the host takes a step. -/
theorem of_hands {consumer : Consumer} {stack : List Frame} (steps : Nat)
    (hands : (State.run context steps ⟨store, meter, .advance cursor consumer, stack⟩).Hands) :
    ∃ stop after, Turn context meter store cursor stop after := by
  -- A right part may take any number of steps, so that the claim is assumed for all shorter walks.
  induction steps using Nat.strongRecOn generalizing store cursor with
  | _ steps ih =>
    obtain _ | steps := steps
    · obtain ⟨-, ⟨value, given⟩ | ⟨upset, raised⟩⟩ := hands
      · cases given
      · cases raised
    obtain ⟨front, pending⟩ := cursor
    rw [State.run_succ] at hands
    have crosses (used : front.UsedUp) :
        ∃ stop after, Turn context meter store ⟨front, pending⟩ stop after := by
      rw [used.step] at hands
      cases pending with
      | nil => exact ⟨.finished, store, .finished used⟩
      | cons right pending =>
        obtain ⟨outcome, between, brings, more, less, rest⟩ := brings_then hands
        cases outcome with
        | error upset => exact ⟨_, _, .fails used brings⟩
        | ok value =>
          by_cases list : value.kind = .list
          · cases value with
            | list items =>
              -- The walk goes on with the elements of the right part.
              have hands := rest.symm ▸ hands
              obtain ⟨stop, after, turn⟩ := ih more (by omega) hands
              exact ⟨stop, after, .cross used brings turn⟩
            | _ => cases list
          · exact ⟨_, _, .noList used brings list⟩
    cases front with
    | elems items start =>
      cases found : items[start]? with
      | some id => exact ⟨_, _, .elem found⟩
      | none => exact crosses found
    | range first last =>
      by_cases more : first < last
      · exact ⟨_, _, .int more⟩
      · exact crosses more
    | concat left right =>
      obtain ⟨stop, after, turn⟩ := ih steps (Nat.lt_succ_self steps) hands
      exact ⟨stop, after, .concat turn⟩

end Turn

end LazyConfig
