import LazyConfig.Proofs.Equality.Compare

/-! Values that are evaluated throughout have data that can be obtained. -/

namespace LazyConfig

variable {context : Context} {meter : DepthMeter} {store : Store} {data : Data} {value : Value}
  {parts : List (Store → Value → Prop)} {pending : List ThunkId}

/-- An element that is there has a value of which something holds, now and later. -/
def Store.Offers (store : Store) (element : Visible) (part : Store → Value → Prop) : Prop :=
  ∃ inner, store.visible? element = some inner ∧ ∀ later, store.Precedes later → part later inner

/-- An element that is there is evaluated, wherever it stands. -/
theorem Store.Offers.force {element : Visible} {part : Store → Value → Prop} (offers : store.Offers element part)
    {after last : Store} {id : ThunkId} (order : store.Precedes after) (shows : after.Shows element id)
    (further : after.Precedes last) : ∃ inner final, ForcesTo context meter last id inner final ∧ part final inner := by
  obtain ⟨inner, shown, holds⟩ := offers
  refine ⟨inner, last, .of_forced (further.forced ?_), holds last (order.trans further)⟩
  cases element with
  | int value =>
    obtain rfl := Option.some.inj shown
    exact shows
  | thunk own =>
    obtain rfl : id = own := shows
    exact order.forced (Store.forced_of_visible shown)

namespace Supplies

/-- What is behind a right part that is evaluated is supplied from in front of it. -/
theorem cross {front items : LazyList} {right : ThunkId} (used : front.UsedUp)
    (found : store.cell right = .forced (.list items)) (supplies : Supplies context meter parts store ⟨items, pending⟩) :
    Supplies context meter parts store ⟨front, right :: pending⟩ := by
  have crosses {later after : Store} {stop : Stop} (asked : Asked context meter store later)
      (turn : Turn context meter later ⟨items, pending⟩ stop after) :
      Turn context meter later ⟨front, right :: pending⟩ stop after :=
    .cross used (.of_forced (asked.precedes.forced found)) turn
  -- Each step that is supplied behind the right part is a step across it.
  cases parts with
  | nil =>
    intro later asked
    obtain ⟨after, turn⟩ := supplies later asked
    exact ⟨after, crosses asked turn⟩
  | cons part parts =>
    intro later asked
    obtain ⟨element, id, rest, after, turn, others⟩ := supplies later asked
    exact ⟨element, id, rest, after, crosses asked turn, others⟩

/-- A join supplies what its left part does in front of the right part. -/
theorem concat {left : LazyList} {right : ThunkId} (supplies : Supplies context meter parts store ⟨left, right :: pending⟩) :
    Supplies context meter parts store ⟨.concat left right, pending⟩ := by
  cases parts with
  | nil =>
    intro later asked
    obtain ⟨after, turn⟩ := supplies later asked
    exact ⟨after, .concat turn⟩
  | cons part parts =>
    intro later asked
    obtain ⟨element, id, rest, after, turn, others⟩ := supplies later asked
    exact ⟨element, id, rest, after, .concat turn, others⟩

/-- An element that is there is supplied in front of what is behind it. -/
theorem cons {part : Store → Value → Prop} {cursor rest : Cursor} {element : Visible}
    (sees : store.Sees cursor (some (element, rest))) (offers : store.Offers element part)
    (supplies : Supplies context meter parts store rest) : Supplies context meter (part :: parts) store cursor := by
  intro later asked
  have turn := @Store.Sees.turn context meter _ _ _ _ (sees.later asked.precedes)
  refine ⟨element, _, rest, _, turn, fun last further => ?_, supplies.later (asked.trans turn.asked_item)⟩
  exact offers.force (asked.trans turn.asked_item).precedes turn.shows further.precedes

/-- Elements that are there are supplied, in front of what is behind them. -/
theorem of_spreads {items : LazyList} {elements : List Visible} (spreads : store.Spreads items elements)
    {offered : List (Store → Value → Prop)} (offers : List.Forall₂ store.Offers elements offered)
    (behind : ∀ front : LazyList, front.UsedUp → Supplies context meter parts store ⟨front, pending⟩) :
    Supplies context meter (offered ++ parts) store ⟨items, pending⟩ := by
  induction spreads generalizing offered parts pending with
  | elems items start =>
    -- The induction is on the number of elements from the start on.
    obtain ⟨count, size⟩ : ∃ count, items.size - start = count := ⟨_, rfl⟩
    induction count generalizing start offered with
    | zero =>
      have empty : items.toList.drop start = [] := List.drop_of_length_le (by simp; omega)
      rw [empty] at offers
      cases offers
      exact behind _ (Array.getElem?_eq_none (by omega))
    | succ count ih =>
      have found : items[start]? = some items[start] := Array.getElem?_eq_getElem (by omega)
      rw [LazyList.drop_of_getElem? found] at offers
      cases offers with
      | cons first others => exact .cons (.elem found) first (ih (start + 1) others (by omega))
  | range next stop =>
    obtain ⟨count, size⟩ : ∃ count, (stop.toInt - next.toInt).toNat = count := ⟨_, rfl⟩
    induction count generalizing next offered with
    | zero =>
      have passed : ¬ next < stop := by
        rw [Int64.lt_iff_toInt_lt]
        omega
      rw [span_of_passed passed] at offers
      cases offers
      exact behind _ passed
    | succ count ih =>
      have more : next < stop := by
        rw [Int64.lt_iff_toInt_lt]
        omega
      have onward := toInt_succ more
      rw [span_of_more more] at offers
      cases offers with
      | cons first others => exact .cons (.int more) first (ih (next + 1) others (by omega))
  | @concat left items right first second front found back left' right' =>
    -- What is supplied is parted where the left part ends.
    have ahead := (List.forall₂_take_append _ _ _ offers.flip).flip
    have others := (List.forall₂_drop_append _ _ _ offers.flip).flip
    rw [← List.take_append_drop first.length offered, List.append_assoc]
    exact (left' ahead fun front used => (right' others behind).cross used found).concat

end Supplies

/-- The data of elements that are there can be obtained. -/
theorem Store.offers_of_bears {elements : List Visible} {data : List Data}
    (bear : List.Forall₂ (store.Bears fun value part => ∀ later, store.Precedes later →
      part.Obtained context meter later value) elements data) {later : Store} (order : store.Precedes later) :
    List.Forall₂ later.Offers elements (Data.obtainedParts context meter data) := by
  induction bear with
  | nil => exact .nil
  | cons first _ ih =>
    obtain ⟨inner, shown, obtained⟩ := first
    exact .cons ⟨inner, Store.visible?_later order shown, fun last further => obtained last (order.trans further)⟩ ih

/-- The data of elements that are there can be obtained from the list of them. -/
theorem Supplies.of_bears {items : LazyList} {elements : List Visible} {data : List Data}
    (spreads : store.Spreads items elements)
    (bear : List.Forall₂ (store.Bears fun value part => ∀ later, store.Precedes later →
      part.Obtained context meter later value) elements data) {later : Store} (order : store.Precedes later) :
    Supplies context meter (Data.obtainedParts context meter data) later items.cursor := by
  have ends (front : LazyList) (used : front.UsedUp) : Supplies context meter [] later ⟨front, []⟩ :=
    fun last _ => ⟨last, .finished used⟩
  have supplies := of_spreads (spreads.later order) (Store.offers_of_bears bear order) ends
  rwa [List.append_nil] at supplies

/-- What values that hold data have in common: the data can be obtained, now and later. -/
theorem Store.obtained_inherits : store.Inherits fun value data =>
    ∀ later, store.Precedes later → data.Obtained context meter later value where
  leaf leaf later order := by cases leaf <;> rfl
  list {items parts elements} hold spreads bear later order :=
    ⟨items, rfl, .of_bears spreads (bear.imp fun _ _ bears => bears.imp fun _ both => both.imp_right And.right) order⟩
  record {record fields} hold bear later order := by
    refine ⟨record, rfl, Store.names_of_bears bear, ?_⟩
    rw [Data.obtainedFields_eq]
    exact .of_bears (.ofThunks store record.thunks) (Store.bears_of_fields (bear.imp fun _ _ first =>
      first.imp_right fun own => own.imp fun _ both => both.imp_right And.right)) order

end LazyConfig
