import LazyConfig.Proofs.Lists.Sights
import LazyConfig.Proofs.Twins.Outcomes
import LazyConfig.Proofs.Twins.Walks

/-!
Steps along lists in two stores of paired computations, whatever they come to: the same right parts are asked for
on the way, and where one step goes wrong so does the other.
-/

namespace LazyConfig

/-- What steps along lists of the same form come to. -/
inductive StopTwin (pairs : Pairing) : Stop → Stop → Prop
  | item {element image : Visible} {id other : ThunkId} {rest ahead : Cursor} (paired : pairs id other)
    (cursors : CursorTwin pairs rest ahead) : StopTwin pairs (.item element id rest) (.item image other ahead)
  | finished : StopTwin pairs .finished .finished
  | upset (failure : Upset) {left others : List ThunkId} (paired : List.Forall₂ pairs left others) :
    StopTwin pairs (.upset failure left) (.upset failure others)

/-- A step in both stores, and how far the computations have come then. -/
structure StopsTwin (pairs : Pairing) (left right : Store) (stop image : Stop) (after later : Store)
    (more : Pairing) : Prop where
  grows : pairs.Grows right more later
  twins : Twins more after later
  stops : StopTwin more stop image
  calls : SameCalls left after right later

variable {context : Context} {pairs more : Pairing} {left right middle after between later : Store}
  {meter : DepthMeter} {cursor ahead : Cursor} {stop image : Stop}

/-- A step after right parts have been asked for. -/
theorem StopsTwin.behind (stops : StopsTwin more middle between stop image after later pairs)
    {known : Pairing} (grows : known.Grows right more between) (calls : SameCalls left middle right between) :
    StopsTwin known left right stop image after later pairs :=
  ⟨grows.trans stops.grows, stops.twins, stops.stops, calls.trans stops.calls⟩

/-- A step along a list in the first store is one along the list of the same form in the second. -/
theorem Twins.turn (twins : Twins pairs left right) (same : CursorTwin pairs cursor ahead)
    (turn : Turn context meter left cursor stop after) :
    ∃ more image later, Turn context meter right ahead image later ∧
      StopsTwin pairs left right stop image after later more := by
  obtain ⟨front, pending⟩ := ahead
  -- The induction is on the step; the forms of the lists agree with each way to take it.
  induction turn generalizing pairs right front pending with
  | @elem store items start id rest found =>
    obtain ⟨fronts, behind⟩ := same
    cases fronts with
    | @elems _ others _ paired =>
      -- The element stands at the same position in both lists.
      have item := paired_getElem? paired start
      rw [found] at item
      obtain ⟨other, listed, found_twin⟩ : ∃ other, pairs id other ∧ others[start]? = some other := by
        generalize others[start]? = entry at item
        cases item with
        | some paired => exact ⟨_, paired, rfl⟩
      exact ⟨pairs, _, right, .elem found_twin, .refl _ _, twins, .item listed ⟨.elems _ paired, behind⟩,
        .refl _ _⟩
  | @int store next last rest further =>
    obtain ⟨fronts, behind⟩ := same
    cases fronts
    obtain ⟨more, grows, alike, paired⟩ := twins.ready (.int next)
    exact ⟨more, _, _, .int further, grows, alike,
      .item paired ⟨.range _ _, paired_mono grows.keeps behind⟩, .refl _ _⟩
  | concat turn ih =>
    obtain ⟨fronts, behind⟩ := same
    cases fronts with
    | concat inner back =>
      obtain ⟨more, image, later, step, stops⟩ := ih twins _ _ ⟨inner, .cons back behind⟩
      exact ⟨more, image, later, .concat step, stops⟩
  | @finished store first used =>
    obtain ⟨fronts, behind⟩ := same
    cases behind
    exact ⟨pairs, _, right, .finished (fronts.usedUp used), .refl _ _, twins, .finished, .refl _ _⟩
  | @cross store middle _ _ items back rest _ used forces turn ih =>
    -- The right part is a list in both stores, so both cross into it.
    have given : Brings context meter store (.force back) (.ok (.list items)) middle := forces
    obtain ⟨fronts, behind⟩ := same
    cases behind with
    | cons paired behind =>
      obtain ⟨more, result, between, brings, alike⟩ := twins.brings (.force paired) given
      have outcomes := alike.outcomes
      cases outcomes with
      | ok value =>
        cases value with
        | list items =>
          obtain ⟨most, image, later, step, stops⟩ :=
            ih alike.twins _ _ ⟨items, paired_mono alike.grows.keeps behind⟩
          exact ⟨most, image, later, .cross (fronts.usedUp used) brings step, stops.behind alike.grows alike.calls⟩
  | @fails store last _ back rest failure used fails =>
    -- The right part fails in both stores, for the same reason.
    have given : Brings context meter store (.force back) (.error failure) last := fails
    obtain ⟨fronts, behind⟩ := same
    cases behind with
    | cons paired behind =>
      obtain ⟨more, result, later, brings, alike⟩ := twins.brings (.force paired) given
      have outcomes := alike.outcomes
      cases outcomes
      exact ⟨more, _, later, .fails (fronts.usedUp used) brings, alike.grows, alike.twins,
        .upset _ (paired_mono alike.grows.keeps behind), alike.calls⟩
  | @noList store last _ back rest value used forces other =>
    -- The right part is no list in both stores, since both values are of one kind.
    have given : Brings context meter store (.force back) (.ok value) last := forces
    obtain ⟨fronts, behind⟩ := same
    cases behind with
    | cons paired behind =>
      obtain ⟨more, result, later, brings, alike⟩ := twins.brings (.force paired) given
      have outcomes := alike.outcomes
      cases outcomes with
      | ok value =>
        rw [value.kind] at other ⊢
        exact ⟨more, _, later, .noList (fronts.usedUp used) brings other, alike.grows, alike.twins,
          .upset _ (paired_mono alike.grows.keeps behind), alike.calls⟩

/-- Wherever a step comes to something, a walk for the second element comes to an outcome. -/
theorem Turn.brings (turn : Turn context meter right ahead image later) :
    ∃ outcome, Brings context meter right (.advance ahead .tail) outcome later := by
  have goes := turn.goesTo .tail []
  cases image with
  | item element id rest => exact ⟨.ok (.list rest.rest), goes⟩
  | finished => exact ⟨.error (.fault (.emptyList .tail)), goes⟩
  | upset failure left => exact ⟨.error failure, goes.trans (.step rfl (.refl _))⟩

/-- A step along a list in the second store is one along the list of the same form in the first. -/
theorem Twins.turn_back (twins : Twins pairs left right) (same : CursorTwin pairs cursor ahead)
    (turn : Turn context meter right ahead image later) :
    ∃ more stop after, Turn context meter left cursor stop after ∧
      StopsTwin pairs left right stop image after later more := by
  -- The walk in the first store comes to something too, and what that is has been seen above.
  obtain ⟨outcome, brings⟩ := turn.brings
  obtain ⟨-, result, last, ⟨steps, ran⟩, -⟩ := twins.brings_back (.advance same .tail) brings
  have hands : (State.run context steps ⟨left, meter, .advance cursor .tail, []⟩).Hands := by
    rw [ran]
    exact State.hands_passing
  obtain ⟨stop, after, own⟩ := Turn.of_hands steps hands
  obtain ⟨more, other, there, also, stops⟩ := twins.turn same own
  obtain ⟨rfl, rfl⟩ := turn.unique also
  exact ⟨more, stop, after, own, stops⟩

end LazyConfig
