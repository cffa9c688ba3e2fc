import LazyConfig.Proofs.Lists.Reading
import LazyConfig.Proofs.Lists.Sights
import LazyConfig.Proofs.Lists.Windings

/-!
Looks at lists whose right parts may not be evaluated. A look has a stack of right parts of its own; it shows, one
after the other, the elements that a cursor comes to, and stops where the cursor would have to evaluate something.
-/

namespace LazyConfig

namespace Store

/-! The right parts of a list. -/

/-- The right parts of a list, and those of the lists that they are evaluated to. -/
inductive OnSpine (store : Store) : LazyList → ThunkId → Prop
  | right {left : LazyList} {right : ThunkId} : OnSpine store (.concat left right) right
  | left {left : LazyList} {right id : ThunkId} (inner : OnSpine store left id) :
    OnSpine store (.concat left right) id
  | behind {left items : LazyList} {right id : ThunkId} (found : store.cell right = .forced (.list items))
    (inner : OnSpine store items id) : OnSpine store (.concat left right) id

/-- All right parts of a list are evaluated to lists, and so are all right parts of these. -/
def SpineForced (store : Store) (list : LazyList) : Prop :=
  ∀ right, store.OnSpine list right → ∃ items, store.cell right = .forced (.list items)

/-- Behind a position with no further elements in front, a right part is not evaluated to a list. -/
inductive Lacks (store : Store) : Cursor → ThunkId → Prop
  | here {front : LazyList} {right : ThunkId} {pending : List ThunkId} (used : front.UsedUp)
    (missing : store.evaluatedList? right = none) : Lacks store ⟨front, right :: pending⟩ right
  | concat {left : LazyList} {right id : ThunkId} {pending : List ThunkId}
    (inner : Lacks store ⟨left, right :: pending⟩ id) : Lacks store ⟨.concat left right, pending⟩ id
  | cross {front items : LazyList} {right id : ThunkId} {pending : List ThunkId} (used : front.UsedUp)
    (found : store.cell right = .forced (.list items)) (inner : Lacks store ⟨items, pending⟩ id) :
    Lacks store ⟨front, right :: pending⟩ id

/--
What a look shows from a position on when so many elements have been seen, and whether these are all. It stops at the
end, at a right part that is not evaluated to a list, and at the first element past the limit.
-/
inductive Peeks (store : Store) (limit : Option Nat) : Nat → Cursor → List Visible → Bool → Prop
  | finished {seen : Nat} {cursor : Cursor} (ends : store.Sees cursor none) :
    Peeks store limit seen cursor [] true
  | lacks {seen : Nat} {cursor : Cursor} {right : ThunkId} (lacks : store.Lacks cursor right) :
    Peeks store limit seen cursor [] false
  | full {seen most : Nat} {cursor : Cursor} {sight : Visible × Cursor} (bound : limit = some most)
    (full : most ≤ seen) (sees : store.Sees cursor (some sight)) : Peeks store limit seen cursor [] false
  | next {seen : Nat} {cursor rest : Cursor} {element : Visible} {elements : List Visible} {complete : Bool}
    (room : ∀ most ∈ limit, seen < most) (sees : store.Sees cursor (some (element, rest)))
    (others : Peeks store limit (seen + 1) rest elements complete) :
    Peeks store limit seen cursor (element :: elements) complete

/-- A look that has shown some elements shows what is there from a position on. -/
def Shown (store : Store) (limit : Option Nat) (found : Array Visible) (cursor : Cursor)
    (shown : Array Visible × Bool) : Prop :=
  ∃ elements, shown.1 = found ++ elements.toArray ∧ store.Peeks limit found.size cursor elements shown.2

variable {store after : Store} {limit : Option Nat} {fuel seen : Nat} {found : Array Visible}
  {shown : Array Visible × Bool} {cursor rest : Cursor} {front items list : LazyList} {right id : ThunkId}
  {pending : List ThunkId} {element : Visible} {elements : List Visible} {complete : Bool}

/-! The right parts that a cursor has left. -/

/-- The right parts of all that a cursor has left. -/
theorem onSpine_rest_iff (pending : List ThunkId) (front : LazyList) :
    store.OnSpine (Cursor.rest ⟨front, pending⟩) id ↔ store.OnSpine front id ∨ ∃ right ∈ pending,
      id = right ∨ ∃ items, store.cell right = .forced (.list items) ∧ store.OnSpine items id := by
  induction pending generalizing front with
  | nil => simp [Cursor.rest]
  | cons right pending ih =>
    -- The first right part is joined to the front.
    have joined : store.OnSpine (.concat front right) id ↔ store.OnSpine front id ∨ id = right ∨
        ∃ items, store.cell right = .forced (.list items) ∧ store.OnSpine items id := by
      refine ⟨fun inside => ?_, ?_⟩
      · cases inside with
        | right => exact .inr (.inl rfl)
        | left inner => exact .inl inner
        | behind found inner => exact .inr (.inr ⟨_, found, inner⟩)
      · rintro (inner | rfl | ⟨items, found, inner⟩)
        · exact .left inner
        · exact .right
        · exact .behind found inner
    show store.OnSpine (Cursor.rest ⟨.concat front right, pending⟩) id ↔ _
    simp only [ih, joined, List.mem_cons, exists_eq_or_imp, or_assoc]

/-- Behind a front that is used up, a cursor has the right part left, and the right parts of its list. -/
theorem onSpine_cross (used : front.UsedUp) (there : store.cell right = .forced (.list items)) :
    store.OnSpine (Cursor.rest ⟨front, right :: pending⟩) id ↔
      id = right ∨ store.OnSpine (Cursor.rest ⟨items, pending⟩) id := by
  have none : ¬ store.OnSpine front id := by
    rintro (_ | _ | _) <;> exact used
  -- A right part of a list is one of its front, or one that is still to come.
  simp only [onSpine_rest_iff, List.mem_cons, exists_eq_or_imp]
  constructor
  · rintro (inner | (rfl | ⟨own, found, inner⟩) | more)
    · exact absurd inner none
    · exact .inl rfl
    · obtain rfl : own = items := Value.list.inj (Cell.forced.inj (found.symm.trans there))
      exact .inr (.inl inner)
    · exact .inr (.inr more)
  · rintro (rfl | inner | more)
    · exact .inr (.inl (.inl rfl))
    · exact .inr (.inl (.inr ⟨items, there, inner⟩))
    · exact .inr (.inr more)

/-- What a cursor before a visible element has left are evaluated right parts that it passes, and what is left behind. -/
theorem Sees.onSpine_iff (sees : store.Sees cursor (some (element, rest))) : ∃ passed : ThunkId → Prop,
    (∀ id, passed id → ∃ items, store.cell id = .forced (.list items)) ∧
      ∀ id, store.OnSpine cursor.rest id ↔ passed id ∨ store.OnSpine rest.rest id := by
  -- At the element nothing is passed, since its front has no right parts.
  have here {front behind : LazyList} {pending : List ThunkId} (bare : ∀ id, ¬ store.OnSpine front id)
      (others : ∀ id, ¬ store.OnSpine behind id) : ∃ passed : ThunkId → Prop,
      (∀ id, passed id → ∃ items, store.cell id = .forced (.list items)) ∧
        ∀ id, store.OnSpine (Cursor.rest ⟨front, pending⟩) id ↔
          passed id ∨ store.OnSpine (Cursor.rest ⟨behind, pending⟩) id := by
    refine ⟨fun _ => False, fun _ => False.elim, fun id => ?_⟩
    rw [onSpine_rest_iff, onSpine_rest_iff, false_or]
    simp only [bare id, others id]
  generalize looked : some (element, rest) = sight at sees
  induction sees with
  | elem found =>
    obtain ⟨rfl, rfl⟩ := Prod.mk.inj (Option.some.inj looked)
    exact here nofun nofun
  | int more =>
    obtain ⟨rfl, rfl⟩ := Prod.mk.inj (Option.some.inj looked)
    exact here nofun nofun
  | concat _ ih => exact ih looked
  | finished used => cases looked
  | @cross _ _ right _ _ used found _ ih =>
    obtain ⟨passed, there, left⟩ := ih looked
    refine ⟨fun id => id = right ∨ passed id, ?_, fun id => ?_⟩
    · rintro id (rfl | inner)
      · exact ⟨_, found⟩
      · exact there id inner
    · rw [onSpine_cross used found, left id, or_assoc]

/-- A cursor that stands before a visible element passes evaluated right parts only, and has the others left. -/
theorem Sees.onSpine (sees : store.Sees cursor (some (element, rest))) (inside : store.OnSpine cursor.rest id) :
    (∃ items, store.cell id = .forced (.list items)) ∨ store.OnSpine rest.rest id := by
  obtain ⟨passed, there, left⟩ := sees.onSpine_iff
  exact ((left id).mp inside).imp_left (there id)

/-- The right parts that a cursor has left behind a visible element are among those that it had left before. -/
theorem Sees.onSpine_of_rest (sees : store.Sees cursor (some (element, rest)))
    (inside : store.OnSpine rest.rest id) : store.OnSpine cursor.rest id := by
  obtain ⟨passed, there, left⟩ := sees.onSpine_iff
  exact (left id).mpr (.inr inside)

/-- A cursor whose end is visible has evaluated right parts left only. -/
theorem Sees.spineForced (ends : store.Sees cursor none) : store.SpineForced cursor.rest := by
  generalize looked : none = sight at ends
  induction ends with
  | elem found | int more => cases looked
  | concat _ ih => exact ih looked
  | @finished front used =>
    intro right inside
    rcases inside with _ | _ | _ <;> exact used.elim
  | cross used found _ ih =>
    intro right inside
    rcases (onSpine_cross used found).mp inside with rfl | inside
    · exact ⟨_, found⟩
    · exact ih looked right inside

/-- A right part that is lacking is among those that a cursor has left. -/
theorem Lacks.onSpine (lacks : store.Lacks cursor right) :
    store.OnSpine cursor.rest right ∧ store.evaluatedList? right = none := by
  induction lacks with
  | here used missing => exact ⟨(onSpine_rest_iff _ _).mpr (.inr ⟨_, List.mem_cons_self, .inl rfl⟩), missing⟩
  | concat _ ih => exact ih
  | cross used found _ ih => exact ⟨(onSpine_cross used found).mpr (.inr ih.1), ih.2⟩

/-! Looks as walks from position to position. -/

/-- What is shown from a position on is shown from one that everything there is seen from. -/
theorem Shown.earlier {start : Cursor} (shows : store.Shown limit found cursor shown)
    (sees : ∀ sight, store.Sees cursor sight → store.Sees start sight)
    (lacks : ∀ right, store.Lacks cursor right → store.Lacks start right) :
    store.Shown limit found start shown := by
  obtain ⟨shown, complete⟩ := shown
  obtain ⟨elements, same, peeks⟩ := shows
  refine ⟨elements, same, ?_⟩
  cases peeks with
  | finished ends => exact .finished (sees _ ends)
  | lacks missing => exact .lacks (lacks _ missing)
  | full bound full more => exact .full bound full (sees _ more)
  | next room here others => exact .next room (sees _ here) others

/-- Some elements are looked at one after the other. -/
theorem looked_cons (store : Store) (limit : Option Nat) (fuel : Nat) (stack : List (Option LazyList))
    (found : Array Visible) (element : Visible) (elements : List Visible) :
    store.looked limit fuel stack found (element :: elements) =
      if roomFor limit found.size 1 = 1 then store.looked limit fuel stack (found.push element) elements
      else some (found, false) := by
  have room := roomFor_add limit found.size 1 elements.length
  have bound := roomFor_le limit found.size 1
  have rest := roomFor_le limit (found.size + 1) elements.length
  have size : (found.push element).size = found.size + 1 := Array.size_push element
  have length : (element :: elements).length = 1 + elements.length := Nat.add_comm ..
  rw [looked, looked, length, room, size]
  -- The first element either finds room or none of them does.
  by_cases one : roomFor limit found.size 1 = 1
  · rw [if_pos one, one]
    by_cases all : roomFor limit (found.size + 1) elements.length = elements.length
    · rw [if_pos (by omega), if_pos all]
      simp
    · rw [if_neg (by omega), if_neg all, Nat.add_comm 1, List.take_succ_cons]
      simp
  · have none := roomFor_behind one elements.length
    have zero : roomFor limit found.size 1 = 0 := by omega
    rw [if_neg one, if_neg (by omega), none, zero]
    simp

/-- There is room for one more element exactly where the limit is not reached. -/
theorem roomFor_one_iff : roomFor limit seen 1 = 1 ↔ ∀ most ∈ limit, seen < most := by
  cases limit with
  | none => simp [roomFor]
  | some most =>
    simp only [roomFor, Option.mem_some_iff, forall_eq']
    omega

/-- One of the elements in front is shown, or it is the first past the limit. -/
theorem Shown.of_looked {stack : List (Option LazyList)} (sees : store.Sees cursor (some (element, rest)))
    (looked : store.looked limit fuel stack found (element :: elements) = some shown)
    (others : store.looked limit fuel stack (found.push element) elements = some shown →
      store.Shown limit (found.push element) rest shown) : store.Shown limit found cursor shown := by
  rw [looked_cons] at looked
  by_cases one : roomFor limit found.size 1 = 1
  · rw [if_pos one] at looked
    obtain ⟨elements, same, peeks⟩ := others looked
    rw [Array.size_push] at peeks
    exact ⟨element :: elements, by simpa using same, .next (roomFor_one_iff.mp one) sees peeks⟩
  · rw [if_neg one] at looked
    obtain rfl := Option.some.inj looked
    -- There is no room for one more, so that there is a limit, which is reached.
    rw [roomFor_one_iff] at one
    obtain ⟨most, bound, full⟩ : ∃ most, most ∈ limit ∧ most ≤ found.size := by
      simpa only [not_forall, Nat.not_lt, exists_prop] using one
    exact ⟨[], by simp, .full bound full sees⟩

/-- Given elements are shown in turn, and then what is behind them. -/
theorem shown_elems {items : Array ThunkId} {start count : Nat} {stack : List (Option LazyList)}
    (left : items.size - start = count)
    (behind : ∀ front found, front.UsedUp → store.walk limit fuel stack found = some shown →
      store.Shown limit found ⟨front, pending⟩ shown)
    (looked : store.looked limit fuel stack found ((items.toList.drop start).map .thunk) = some shown) :
    store.Shown limit found ⟨.elems items start, pending⟩ shown := by
  induction count generalizing start found with
  | zero =>
    have empty : items.toList.drop start = [] := List.drop_of_length_le (by simp; omega)
    rw [empty, List.map_nil, Store.looked, List.length_nil, if_pos (Nat.le_zero.mp (roomFor_le ..))] at looked
    exact behind _ _ (Array.getElem?_eq_none (by omega)) (by simpa using looked)
  | succ count ih =>
    have here : items[start]? = some items[start] := Array.getElem?_eq_getElem (by omega)
    rw [LazyList.drop_of_getElem? here] at looked
    exact .of_looked (.elem here) looked fun looked => ih (by omega) looked

/-- The integers of a range are shown in turn, and then what is behind them. -/
theorem shown_range {next stop : Int64} {count : Nat} {stack : List (Option LazyList)}
    (left : (stop.toInt - next.toInt).toNat = count)
    (behind : ∀ front found, front.UsedUp → store.walk limit fuel stack found = some shown →
      store.Shown limit found ⟨front, pending⟩ shown)
    (looked : store.looked limit fuel stack found ((span next stop).map .int) = some shown) :
    store.Shown limit found ⟨.range next stop, pending⟩ shown := by
  -- By induction on the number of integers left; at the end of the range the front is used up.
  induction count generalizing next found with
  | zero =>
    have passed : ¬ next < stop := by
      rw [Int64.lt_iff_toInt_lt]
      omega
    rw [span_of_passed passed, List.map_nil, Store.looked, List.length_nil,
      if_pos (Nat.le_zero.mp (roomFor_le ..))] at looked
    exact behind _ _ passed (by simpa using looked)
  | succ count ih =>
    have more : next < stop := by
      rw [Int64.lt_iff_toInt_lt]
      omega
    have further := toInt_succ more
    rw [span_of_more more] at looked
    exact .of_looked (.int more) looked fun looked => ih (by omega) looked

/-- The stack of a look holds what the right parts behind a position are evaluated to, and the look goes on there. -/
theorem shown_of_walk
    (walked : store.walk limit fuel (some front :: pending.map store.evaluatedList?) found = some shown) :
    store.Shown limit found ⟨front, pending⟩ shown := by
  -- By induction on the fuel, as each list on the stack takes a part of it.
  induction fuel using Nat.strongRecOn generalizing front pending found with
  | _ fuel ih =>
    obtain _ | fuel := fuel
    · cases walked
    -- Behind a front that is used up, the next right part decides how the look goes on.
    have behind (front : LazyList) (found : Array Visible) (used : front.UsedUp)
        (walked : store.walk limit fuel (pending.map store.evaluatedList?) found = some shown) :
        store.Shown limit found ⟨front, pending⟩ shown := by
      obtain _ | fuel := fuel
      · cases walked
      cases pending with
      | nil =>
        obtain rfl := Option.some.inj walked
        exact ⟨[], by simp, .finished (.finished used)⟩
      | cons right pending =>
        rw [List.map_cons] at walked
        cases missing : store.evaluatedList? right with
        | none =>
          rw [missing] at walked
          obtain rfl := Option.some.inj walked
          exact ⟨[], by simp, .lacks (.here used missing)⟩
        | some items =>
          rw [missing] at walked
          have there := evaluatedList?_eq_some_iff.mp missing
          have shows := ih _ (Nat.lt_succ_self _) walked
          exact shows.earlier (fun _ => .cross used there) (fun _ => .cross used there)
    cases front with
    | elems items start =>
      rw [walk_elems] at walked
      exact shown_elems rfl behind walked
    | range next stop =>
      rw [walk_range] at walked
      exact shown_range rfl behind walked
    | concat left right =>
      have walked : store.walk limit fuel (some left :: (right :: pending).map store.evaluatedList?) found = some shown :=
        walked
      exact (ih _ (Nat.lt_succ_self _) walked).earlier (fun _ => .concat) (fun _ => .concat)

/-- What a look shows of a list, from its first position on. -/
theorem peeks_of_elements? {shown : Array Visible} (looked : store.elements? fuel limit list = some (shown, complete)) :
    store.Peeks limit 0 list.cursor shown.toList complete := by
  have walked : store.walk limit fuel (some list :: [].map store.evaluatedList?) #[] = some (shown, complete) := looked
  obtain ⟨elements, same, peeks⟩ := shown_of_walk walked
  obtain rfl : shown = elements.toArray := by simpa using same
  exact peeks

namespace Peeks

/-- A look shows no more elements than its limit. -/
theorem short (peeks : store.Peeks limit seen cursor elements complete) :
    ∀ most ∈ limit, seen ≤ most → seen + elements.length ≤ most := by
  intro most bound room
  induction peeks with
  | finished | lacks | full => exact room
  | @next seen _ _ _ elements _ here _ _ ih =>
    have further := ih (here most bound)
    rw [List.length_cons]
    omega

/-- A look that shows all elements comes to the end past evaluated right parts only. -/
theorem whole (peeks : store.Peeks limit seen cursor elements complete) (all : complete = true) :
    (∃ last, store.Passes cursor elements last ∧ store.Sees last none) ∧ store.SpineForced cursor.rest := by
  induction peeks with
  | finished ends => exact ⟨⟨_, .here, ends⟩, ends.spineForced⟩
  | lacks | full => cases all
  | next room sees others ih =>
    obtain ⟨⟨last, passes, ends⟩, forced⟩ := ih all
    refine ⟨⟨last, .next sees passes, ends⟩, fun right inside => ?_⟩
    exact (sees.onSpine inside).elim id (forced right)

/-- A look passes the elements that it shows. -/
theorem passes (peeks : store.Peeks limit seen cursor elements complete) : ∃ last, store.Passes cursor elements last := by
  induction peeks with
  | finished | lacks | full => exact ⟨_, .here⟩
  | next room sees others ih =>
    obtain ⟨last, passes⟩ := ih
    exact ⟨last, .next sees passes⟩

/--
Past evaluated right parts, a look is cut off only where it has shown as many elements as it may, and one more follows.
-/
theorem cut (peeks : store.Peeks limit seen cursor elements complete) (part : complete = false)
    (forced : store.SpineForced cursor.rest) :
    ∃ most ∈ limit, most ≤ seen + elements.length ∧
      ∃ sight last, store.Passes cursor elements last ∧ store.Sees last (some sight) := by
  -- By induction on the look: an element that it shows is passed, and it stops where one more is in
  -- sight.
  induction peeks with
  | finished => cases part
  | lacks missing =>
    obtain ⟨inside, missing⟩ := missing.onSpine
    obtain ⟨items, there⟩ := forced _ inside
    cases missing.symm.trans (evaluatedList?_eq_some_iff.mpr there)
  | full bound full sees => exact ⟨_, bound, full, _, _, .here, sees⟩
  | next room sees others ih =>
    obtain ⟨most, bound, full, sight, last, passes, more⟩ :=
      ih part fun right inside => forced right (sees.onSpine_of_rest inside)
    refine ⟨most, bound, ?_, sight, last, .next sees passes, more⟩
    rw [List.length_cons]
    omega

end Peeks

end Store

/-! The steps of a host. -/

namespace Evaluator

variable {evaluator : Evaluator} {store middle after : Store} {cursor rest last : Cursor} {element : Visible}
  {elements : List Visible} {ids : List ThunkId} {fuel : Nat}

/-- A step of a host to a visible element evaluates nothing. -/
theorem next_of_sees (sees : store.Sees cursor (some (element, rest))) :
    ∃ fuel, evaluator.next fuel cursor store =
      some ⟨.ok (some (store.reveal element).1), rest, (store.reveal element).2⟩ := by
  obtain ⟨fuel, answers⟩ := next_of_turn sees.turn
  exact ⟨fuel, answers fuel (Nat.le_refl fuel)⟩

/-- The computation that is revealed for an element stands for it. -/
theorem reveal_shows (store : Store) (element : Visible) :
    (store.reveal element).2.Shows element (store.reveal element).1 := by
  cases element with
  | thunk id => rfl
  | int value =>
    show (store.ready (.int value)).2.cell store.cells.size = _
    rw [Store.ready, Store.cell_alloc, if_pos rfl]

/-- The steps of a host past visible elements evaluate nothing. -/
theorem steps_of_passes (passes : store.Passes cursor elements last) (extended : store.Extends middle) :
    ∃ ids after, evaluator.Steps middle cursor ids last after ∧ ids.length = elements.length ∧ store.Extends after := by
  induction passes generalizing middle with
  | here => exact ⟨[], middle, .none, rfl, extended⟩
  | @next cursor rest last element elements sees others ih =>
    obtain ⟨fuel, here⟩ := @next_of_sees evaluator _ _ _ _ (sees.later extended.precedes)
    obtain ⟨ids, after, steps, length, further⟩ := ih (extended.trans (middle.reveal_extends element))
    exact ⟨_, after, .next here steps, congrArg (· + 1) length, further⟩

/-- A step of a host takes no computation back. -/
theorem next_precedes {reply : CursorReply} (replied : evaluator.next fuel cursor store = some reply) :
    store.Precedes reply.store := by
  -- The run keeps to the order of the store, and the answer has the store of its last state.
  have order := (WellNested.run evaluator.context fuel (evaluator.start (.next cursor) store) (.nil store)).2
  rw [next, run] at replied
  generalize (evaluator.start (.next cursor) store).run evaluator.context fuel = state at replied order
  obtain ⟨after, meter, control, stack⟩ := state
  cases control with
  | done ending =>
    cases ending with
    | value value => cases replied
    | _ =>
      obtain rfl := Option.some.inj replied
      exact order
  | _ => cases replied

/-- The steps of a host take no computation back. -/
theorem Steps.precedes (steps : evaluator.Steps store cursor ids last after) : store.Precedes after := by
  induction steps with
  | none => exact .refl _
  | next here others ih => exact (next_precedes here).trans ih

/-- More steps of a host behind those that it has taken. -/
theorem Steps.append {more : List ThunkId} {next : Cursor} {final : Store}
    (steps : evaluator.Steps store cursor ids last after) (further : evaluator.Steps after last more next final) :
    evaluator.Steps store cursor (ids ++ more) next final := by
  induction steps with
  | none => exact further
  | next here others ih => exact .next here (ih further)

/-- From a position on, a host comes to the elements that are visible there. -/
theorem Steps.shows (steps : evaluator.Steps middle cursor ids last after) {behind : Cursor}
    (passes : store.Passes cursor elements behind) (order : store.Precedes middle) :
    List.Forall₂ after.Shows (elements.take ids.length) (ids.take elements.length) := by
  induction steps generalizing elements with
  | none => simp
  | next here others ih =>
    cases passes with
    | here => simp
    | next sees rest =>
      obtain ⟨more, answer⟩ := @next_of_sees evaluator _ _ _ _ (sees.later order)
      cases next_unique here answer
      exact .cons ((reveal_shows _ _).later others.precedes)
        (ih rest (order.trans (Store.reveal_extends ..).precedes))

/-- A host comes to no more elements than are visible where the end is visible behind them. -/
theorem Steps.length_le (steps : evaluator.Steps middle cursor ids last after) {behind : Cursor}
    (passes : store.Passes cursor elements behind) (ends : store.Sees behind Option.none) (order : store.Precedes middle) :
    ids.length ≤ elements.length := by
  induction steps generalizing elements with
  | none => exact Nat.zero_le _
  | next here others ih =>
    cases passes with
    | here =>
      -- The host is told of the end, and not of an element.
      obtain ⟨more, answers⟩ := @next_of_turn evaluator _ _ _ _ (ends.later order).turn_finished
      cases next_unique here (answers more (Nat.le_refl more))
    | next sees rest =>
      obtain ⟨more, answer⟩ := @next_of_sees evaluator _ _ _ _ (sees.later order)
      cases next_unique here answer
      exact Nat.succ_le_succ (ih rest (order.trans (Store.reveal_extends ..).precedes))

/-- A look at a list has shown what a host comes to, and told whether that is everything. -/
structure Peeked (evaluator : Evaluator) (store : Store) (limit : Option Nat) (list : LazyList)
    (shown : Array Visible) (complete : Bool) : Prop where
  /-- A limit is kept to. -/
  short : ∀ most ∈ limit, shown.size ≤ most
  /-- A host comes to as many elements without evaluating anything. -/
  reached : ∃ ids cursor after, evaluator.Steps store list.cursor ids cursor after ∧ ids.length = shown.size ∧
    store.Extends after
  /-- The elements that a host comes to are those that are shown, as far as both go. -/
  same : ∀ ids cursor after, evaluator.Steps store list.cursor ids cursor after →
    List.Forall₂ after.Shows (shown.toList.take ids.length) (ids.take shown.size)
  /-- Where everything is said to be shown, a host comes to the end behind it. -/
  whole : complete = true → ∃ ids cursor after fuel last, evaluator.Steps store list.cursor ids cursor after ∧
    ids.length = shown.size ∧ evaluator.next fuel cursor after = some ⟨.ok none, last, after⟩
  /-- Everything is shown where all right parts are evaluated, unless there are more elements than the limit. -/
  complete_iff : complete = true ↔ store.SpineForced list ∧
    ∀ most ∈ limit, ∀ ids cursor after, evaluator.Steps store list.cursor ids cursor after → ids.length ≤ most

end Evaluator

/--
A look at a list shows the first elements that a host comes to, up to a limit. They are all elements, and are said to
be, exactly where all right parts are evaluated and the limit is large enough. A look leaves the store as it is.
-/
theorem look_shows_first_elements (evaluator : Evaluator) {store : Store} {fuel : Nat} {limit : Option Nat}
    {list : LazyList} {shown : Array Visible} {complete : Bool}
    (looked : store.elements? fuel limit list = some (shown, complete)) :
    evaluator.Peeked store limit list shown complete := by
  -- What is shown comes from the look as a walk, which a host can follow step by step.
  have peeks := Store.peeks_of_elements? looked
  obtain ⟨last, passes⟩ := peeks.passes
  obtain ⟨ids, after, steps, length, extended⟩ := @Evaluator.steps_of_passes evaluator _ _ _ _ _ passes (.refl store)
  have short : ∀ most ∈ limit, shown.size ≤ most := fun most bound => by
    simpa using peeks.short most bound (Nat.zero_le most)
  refine ⟨short, ⟨ids, last, after, steps, length, extended⟩, fun ids last after steps => ?_, fun all => ?_,
    fun all => ?_, fun ⟨forced, few⟩ => ?_⟩
  · exact steps.shows passes (.refl store)
  · obtain ⟨⟨last, passes, ends⟩, -⟩ := peeks.whole all
    obtain ⟨ids, after, steps, length, extended⟩ := @Evaluator.steps_of_passes evaluator _ _ _ _ _ passes (.refl store)
    obtain ⟨fuel, answers⟩ := @Evaluator.next_of_turn evaluator _ _ _ _ (ends.later extended.precedes).turn_finished
    exact ⟨ids, last, after, fuel, _, steps, length, answers fuel (Nat.le_refl fuel)⟩
  · obtain ⟨⟨last, passes, ends⟩, forced⟩ := peeks.whole all
    refine ⟨forced, fun most bound ids cursor after steps => ?_⟩
    exact (steps.length_le passes ends (.refl store)).trans (short most bound)
  · by_contra part
    -- A look that is cut off where nothing is lacking has one more element in front of it.
    obtain ⟨most, bound, full, ⟨element, rest⟩, last, passes, sees⟩ :=
      peeks.cut (Bool.eq_false_iff.mpr part) forced
    obtain ⟨ids, after, steps, length, extended⟩ := @Evaluator.steps_of_passes evaluator _ _ _ _ _ passes (.refl store)
    obtain ⟨fuel, more⟩ := @Evaluator.next_of_sees evaluator _ _ _ _ (sees.later extended.precedes)
    have one := few most bound _ _ _ (steps.append (.next more .none))
    rw [List.length_append, length] at one
    simp at one full
    omega

/-- An integer, a range that is evaluated, and a right part that is not. -/
def partlyEvaluated : Store where
  cells := #[.forced (.int 5), .forced (.list (.range 0 2)), .suspended (.expr 0 {})]

/-- Of `([5] @ %range% 2) @ xs`, three elements are shown as long as `xs` is not evaluated; without it, these are all. -/
theorem look_shows_first_elements_joinedTwice :
    let evaluator : Evaluator := ⟨⟨{}, {}, {}⟩, {}⟩
    let front : LazyList := .concat (.ofThunks [0]) 1
    evaluator.Peeked partlyEvaluated (some 7) (.concat front 2) #[.thunk 0, .int 0, .int 1] false ∧
    evaluator.Peeked partlyEvaluated (some 3) front #[.thunk 0, .int 0, .int 1] true ∧
    evaluator.Peeked partlyEvaluated (some 2) front #[.thunk 0, .int 0] false := by
  intro evaluator front
  have lacking : partlyEvaluated.elements? 9 (some 7) (.concat front 2) =
      some (#[.thunk 0, .int 0, .int 1], false) := by decide +kernel
  have whole : partlyEvaluated.elements? 9 (some 3) front = some (#[.thunk 0, .int 0, .int 1], true) := by
    decide +kernel
  have cut : partlyEvaluated.elements? 9 (some 2) front = some (#[.thunk 0, .int 0], false) := by decide +kernel
  exact ⟨look_shows_first_elements evaluator lacking, look_shows_first_elements evaluator whole,
    look_shows_first_elements evaluator cut⟩

end LazyConfig
