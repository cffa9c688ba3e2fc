import Mathlib.Data.Finset.Card
import LazyConfig.Proofs.Lists.Spreads

/-!
Looks at lists that come to an end. Nothing is evaluated for a look, so that it stops at the first right part that is not
there yet, and a limit stops it behind so many elements. It goes on forever exactly when it comes, within the limit, to a
right part whose own list begins with the same right part again.
-/

namespace LazyConfig

/-- A computation from which no circle is reached is at the end of no endless chain. -/
theorem acc_of_no_circle {leads : ThunkId → ThunkId → Prop} {bound : Nat}
    (inside : ∀ {id next}, leads id next → id < bound)
    (trans : ∀ {id next last}, leads id next → leads next last → leads id last) {first : ThunkId}
    (circles : ∀ id, id = first ∨ leads first id → ¬ leads id id) : Acc (fun next id => leads id next) first := by
  classical
  -- By induction on how many computations inside the bound are behind the first one.
  generalize count : ((Finset.range bound).filter (leads first)).card = behind
  induction behind using Nat.strongRecOn generalizing first with
  | _ behind ih =>
    refine ⟨_, fun next led => ?_⟩
    by_cases there : next < bound
    · refine ih _ ?_ (fun id reached => circles id (.inr ?_)) rfl
      · -- The next one is behind the first one, but not behind itself.
        rw [← count]
        refine Finset.card_lt_card ⟨fun id member => ?_, fun same => ?_⟩
        · obtain ⟨below, behind⟩ := Finset.mem_filter.mp member
          exact Finset.mem_filter.mpr ⟨below, trans led behind⟩
        · have again := same (Finset.mem_filter.mpr ⟨Finset.mem_range.mpr there, led⟩)
          exact circles next (.inr led) (Finset.mem_filter.mp again).2
      · rcases reached with rfl | behind
        · exact led
        · exact trans led behind
    · exact ⟨_, fun last led' => absurd (inside led') there⟩

namespace Store

/-- A list comes to a right part behind some elements. -/
inductive LeadsTo (store : Store) : LazyList → List Visible → ThunkId → Prop
  | here {left : LazyList} {right : ThunkId} {passed : List Visible} (front : store.Spreads left passed) :
    LeadsTo store (.concat left right) passed right
  | left {left : LazyList} {right id : ThunkId} {passed : List Visible} (inner : LeadsTo store left passed id) :
    LeadsTo store (.concat left right) passed id
  | right {left items : LazyList} {right id : ThunkId} {passed more : List Visible}
    (front : store.Spreads left passed) (found : store.cell right = .forced (.list items))
    (inner : LeadsTo store items more id) : LeadsTo store (.concat left right) (passed ++ more) id

/-- The list of a right part begins with another right part. -/
def BeginsWith (store : Store) (id next : ThunkId) : Prop :=
  ∃ items, store.cell id = .forced (.list items) ∧ store.LeadsTo items [] next

/-- A look that has seen so many elements stops within a list: at the limit, or at a right part that is not there. -/
inductive Stops (store : Store) (limit : Nat) : LazyList → Nat → Prop
  | elems {items : Array ThunkId} {start seen : Nat} (full : limit < seen + (items.toList.drop start).length) :
    Stops store limit (.elems items start) seen
  | range {next stop : Int64} {seen : Nat} (full : limit < seen + (span next stop).length) :
    Stops store limit (.range next stop) seen
  | left {left : LazyList} {right : ThunkId} {seen : Nat} (inner : Stops store limit left seen) :
    Stops store limit (.concat left right) seen
  | unknown {left : LazyList} {right : ThunkId} {seen : Nat} {passed : List Visible}
    (front : store.Spreads left passed) (room : seen + passed.length ≤ limit)
    (missing : store.evaluatedList? right = none) : Stops store limit (.concat left right) seen
  | right {left items : LazyList} {right : ThunkId} {seen : Nat} {passed : List Visible}
    (front : store.Spreads left passed) (room : seen + passed.length ≤ limit)
    (found : store.cell right = .forced (.list items)) (inner : Stops store limit items (seen + passed.length)) :
    Stops store limit (.concat left right) seen

/-- A look that has seen so many elements passes a list, or stops within it. -/
def Settles (store : Store) (limit : Nat) (items : LazyList) (seen : Nat) : Prop :=
  (∃ passed, store.Spreads items passed ∧ seen + passed.length ≤ limit) ∨ store.Stops limit items seen

variable {store : Store} {limit seen fuel : Nat} {items : LazyList} {passed : List Visible} {id next : ThunkId}
  {found : Array Visible} {rest : List (Option LazyList)} {shown : Array Visible × Bool}

/-- A right part is evaluated to a list exactly when the list is in the store. -/
theorem evaluatedList?_eq_some_iff : store.evaluatedList? id = some items ↔ store.cell id = .forced (.list items) := by
  -- Neither another state nor another sort of value is a list.
  rw [evaluatedList?, peek?]
  cases store.cell id with
  | forced value => cases value <;> simp
  | _ => simp

/-- What the list of a right part comes to is what any list with that right part comes to. -/
theorem LeadsTo.trans {behind : LazyList} {more : List Visible} (leads : store.LeadsTo items passed id)
    (found : store.cell id = .forced (.list behind)) (further : store.LeadsTo behind more next) :
    store.LeadsTo items (passed ++ more) next := by
  -- The first way is gone again with the second one behind it.
  induction leads with
  | here front => exact .right front found further
  | left inner ih => exact .left (ih found)
  | right front here inner ih =>
    rw [List.append_assoc]
    exact .right front here (ih found)

/-! Looks that end. -/

/-- A list settles when the lists of all its right parts do. -/
theorem settles_of_parts (items : LazyList)
    (parts : ∀ passed id behind, store.LeadsTo items passed id → seen + passed.length ≤ limit →
      store.cell id = .forced (.list behind) → store.Settles limit behind (seen + passed.length)) :
    store.Settles limit items seen := by
  -- By induction on the front; only a join asks for a right part.
  induction items with
  | elems items start =>
    by_cases room : seen + (items.toList.drop start).length ≤ limit
    · exact .inl ⟨_, .elems items start, by rwa [List.length_map]⟩
    · exact .inr (.elems (Nat.lt_of_not_le room))
  | range next stop =>
    by_cases room : seen + (span next stop).length ≤ limit
    · exact .inl ⟨_, .range next stop, by rwa [List.length_map]⟩
    · exact .inr (.range (Nat.lt_of_not_le room))
  | concat left right ih =>
    rcases ih fun passed id behind leads => parts passed id behind leads.left with ⟨passed, front, room⟩ | stops
    · -- The left part is passed, and the right part is not there, or it is in the store.
      cases missing : store.evaluatedList? right with
      | none => exact .inr (.unknown front room missing)
      | some behind =>
        have there := evaluatedList?_eq_some_iff.mp missing
        rcases parts passed right behind (.here front) room there with ⟨more, back, room'⟩ | stops
        · refine .inl ⟨passed ++ more, .concat front there back, ?_⟩
          rwa [List.length_append, ← Nat.add_assoc]
        · exact .inr (.right front room there stops)
    · exact .inr (.left stops)

/-- Where no right part leads back to itself within the limit, a list settles. -/
theorem settles (room : seen ≤ limit)
    (circles : ∀ passed id, store.LeadsTo items passed id → seen + passed.length ≤ limit → ¬ store.BeginsWith id id) :
    store.Settles limit items seen := by
  -- The induction is on the room that is left; where elements are passed, there is less of it.
  generalize left : limit - seen = space
  induction space using Nat.strongRecOn generalizing items seen with
  | _ space ih =>
    have further {passed : List Visible} {id : ThunkId} {behind : LazyList} (some : passed ≠ [])
        (leads : store.LeadsTo items passed id) (room : seen + passed.length ≤ limit)
        (found : store.cell id = .forced (.list behind)) : store.Settles limit behind (seen + passed.length) := by
      have positive := List.length_pos_of_ne_nil some
      refine ih _ (by omega) room (fun more next leads' room' => ?_) rfl
      refine circles (passed ++ more) next (leads.trans found leads') ?_
      rwa [List.length_append, ← Nat.add_assoc]
    -- Where none are passed, right parts lead to others without coming back.
    have inner {id : ThunkId} (leads : store.LeadsTo items [] id) {behind : LazyList}
        (found : store.cell id = .forced (.list behind)) : store.Settles limit behind seen := by
      have acc : Acc (fun next id => store.BeginsWith id next) id := by
        refine @acc_of_no_circle store.BeginsWith store.cells.size ?_ ?_ id ?_
        · rintro id next ⟨items, found, -⟩
          exact lt_size_of_cell found nofun
        · rintro id next last ⟨items, found, leads⟩ ⟨items', found', leads'⟩
          exact ⟨items, found, leads.trans found' leads'⟩
        · rintro next (rfl | ⟨items', found', leads'⟩)
          · exact circles [] _ leads room
          · exact circles [] _ (leads.trans found' leads') room
      induction acc generalizing behind with
      | intro id _ ih =>
        refine settles_of_parts behind fun passed next behind' leads' room' found' => ?_
        have reached := leads.trans found leads'
        cases passed with
        | nil => exact ih next ⟨behind, found, leads'⟩ reached found'
        | cons element passed => exact further (List.cons_ne_nil _ _) reached room' found'
    refine settles_of_parts items fun passed id behind leads room found => ?_
    cases passed with
    | nil => exact inner leads found
    | cons element passed => exact further (List.cons_ne_nil _ _) leads room found

/-- With the fuel for it, a look stops, or it shows some elements in front of the others, or it opens a join. -/
theorem walk_turn (store : Store) (stack : List (Option LazyList)) (found : Array Visible) :
    (∃ complete, ∀ limit fuel, store.walk limit (fuel + 1) stack found = some (found, complete)) ∨
      (∃ rest elements, ∀ limit fuel,
        store.walk limit (fuel + 1) stack found = store.looked limit fuel rest found elements) ∨
      ∃ opened, ∀ limit fuel, store.walk limit (fuel + 1) stack found = store.walk limit fuel opened found := by
  cases stack with
  | nil => exact .inl ⟨true, fun _ _ => rfl⟩
  | cons first rest =>
    cases first with
    | none => exact .inl ⟨false, fun _ _ => rfl⟩
    | some items =>
      cases items with
      | elems items start => exact .inr (.inl ⟨rest, _, fun limit fuel => walk_elems items start limit fuel rest found⟩)
      | range next stop => exact .inr (.inl ⟨rest, _, fun limit fuel => walk_range next stop limit fuel rest found⟩)
      | concat left right => exact .inr (.inr ⟨some left :: store.evaluatedList? right :: rest, fun _ _ => rfl⟩)

/-- What a look has come to with some fuel, it comes to with more. -/
theorem walk_more {limit : Option Nat} {stack : List (Option LazyList)}
    (walked : store.walk limit fuel stack found = some shown) (more : Nat) :
    store.walk limit (fuel + more) stack found = some shown := by
  induction fuel generalizing stack found with
  | zero => cases walked
  | succ fuel ih =>
    rw [Nat.succ_add]
    rcases store.walk_turn stack found with ⟨complete, stops⟩ | ⟨rest, elements, shows⟩ | ⟨opened, opens⟩
    · rw [stops] at walked ⊢
      exact walked
    · -- Behind elements that are there, a look has stopped, or it goes on with less fuel.
      rw [shows, Store.looked] at walked ⊢
      split at walked
      · rw [if_pos ‹_›]
        exact ih walked
      · rwa [if_neg ‹_›]
    · rw [opens] at walked ⊢
      exact ih walked

/-- A look shows no more elements than its limit. -/
theorem walk_size {stack : List (Option LazyList)} (room : found.size ≤ limit)
    (walked : store.walk (some limit) fuel stack found = some shown) : shown.1.size ≤ limit := by
  induction fuel generalizing stack found with
  | zero => cases walked
  | succ fuel ih =>
    rcases store.walk_turn stack found with ⟨complete, stops⟩ | ⟨rest, elements, shows⟩ | ⟨opened, opens⟩
    · rw [stops] at walked
      obtain rfl := Option.some.inj walked
      exact room
    · -- Of some elements, those are taken for which there is room.
      have size (elements : List Visible) : (found ++ elements.toArray).size = found.size + elements.length := by simp
      rw [shows, Store.looked, roomFor] at walked
      split at walked
      · have behind := size elements
        exact ih (by omega) walked
      · obtain rfl := Option.some.inj walked
        refine Nat.le_trans (Nat.le_of_eq (size _)) ?_
        rw [List.length_take]
        omega
    · rw [opens] at walked
      exact ih room walked

/-- With room for all elements of a list, a look goes on behind them. -/
theorem Spreads.walk_on (spreads : store.Spreads items passed) : ∃ turns, ∀ fuel rest found,
    found.size + passed.length ≤ limit → store.walk (some limit) (turns + fuel) (some items :: rest) found =
      store.walk (some limit) fuel rest (found ++ passed.toArray) := by
  -- With room for all, nothing is cut off.
  obtain ⟨turns, walked⟩ := spreads.walk
  refine ⟨turns, fun fuel rest found room => ?_⟩
  rw [walked, looked, roomFor, Nat.min_eq_right (by omega), if_pos rfl]

/-- Where a look stops within a list, it has come to something. -/
theorem Stops.walk (stops : store.Stops limit items seen) (begun : seen ≤ limit) :
    ∃ turns, ∀ fuel rest found, found.size = seen → (store.walk (some limit) (turns + fuel) (some items :: rest) found).isSome := by
  -- A piece that is too long is not passed.
  have stopped {elements : List Visible} {found : Array Visible} {fuel : Nat} {rest : List (Option LazyList)}
      (room : found.size ≤ limit) (full : limit < found.size + elements.length) :
      (store.looked (some limit) fuel rest found elements).isSome := by
    rw [looked, roomFor, Nat.min_eq_left (by omega), if_neg (by omega)]
    rfl
  induction stops with
  | @elems items start seen full =>
    refine ⟨1, fun fuel rest found same => ?_⟩
    rw [Nat.add_comm, walk_elems]
    exact stopped (same ▸ begun) (by rwa [same, List.length_map])
  | @range next stop seen full =>
    refine ⟨1, fun fuel rest found same => ?_⟩
    rw [Nat.add_comm, walk_range]
    exact stopped (same ▸ begun) (by rwa [same, List.length_map])
  | left inner ih =>
    obtain ⟨turns, ends⟩ := ih begun
    refine ⟨turns + 1, fun fuel rest found same => ?_⟩
    rw [Nat.add_right_comm]
    exact ends fuel _ found same
  | @unknown left right seen passed front room missing =>
    obtain ⟨turns, goes⟩ := front.walk_on
    refine ⟨turns + 2, fun fuel rest found same => ?_⟩
    have count : turns + 2 + fuel = turns + (fuel + 1) + 1 := by omega
    rw [count, Store.walk, missing, goes _ _ _ (same ▸ room)]
    rfl
  | @right left items right seen passed front room there inner ih =>
    obtain ⟨turns, goes⟩ := front.walk_on
    obtain ⟨more, ends⟩ := ih room
    refine ⟨turns + more + 1, fun fuel rest found same => ?_⟩
    have count : turns + more + 1 + fuel = turns + (more + fuel) + 1 := by omega
    rw [count, Store.walk, evaluatedList?_eq_some_iff.mpr there, goes _ _ _ (same ▸ room)]
    exact ends fuel rest _ (by simp [same])

/-- A look at a list that settles comes to something. -/
theorem Settles.elements? (settles : store.Settles limit items 0) :
    ∃ fuel shown, store.elements? fuel (some limit) items = some shown := by
  -- Behind a list that is passed, nothing is left to look at.
  rcases settles with ⟨passed, front, room⟩ | stops
  · obtain ⟨turns, goes⟩ := front.walk_on
    have walked := goes 1 [] #[] room
    exact ⟨turns + 1, _, walked⟩
  · obtain ⟨turns, ends⟩ := stops.walk (Nat.zero_le limit)
    have some := ends 0 [] #[] rfl
    exact ⟨turns, _, (Option.some_get some).symm⟩

/-! Looks that go on forever. -/

/-- A look that comes to something and has come to a right part before had less fuel left there. -/
theorem LeadsTo.walk (leads : store.LeadsTo items passed id) {behind : LazyList}
    (there : store.cell id = .forced (.list behind)) (room : found.size + passed.length ≤ limit)
    (walked : store.walk (some limit) fuel (some items :: rest) found = some shown) :
    ∃ fewer < fuel, ∃ rest, store.walk (some limit) fewer (some behind :: rest) (found ++ passed.toArray) = some shown := by
  -- By induction on the way to the right part; each join on it takes some of the fuel.
  induction leads generalizing fuel rest found with
  | @here left right passed front =>
    obtain _ | fuel := fuel
    · cases walked
    -- With the fuel that is left, the look passes the left part, and it could do with less.
    have walked : store.walk (some limit) fuel (some left :: store.evaluatedList? right :: rest) found = some shown :=
      walked
    obtain ⟨turns, goes⟩ := front.walk_on
    have more := walk_more walked turns
    rw [Nat.add_comm, goes _ _ _ room, evaluatedList?_eq_some_iff.mpr there] at more
    exact ⟨fuel, Nat.lt_succ_self fuel, rest, more⟩
  | left inner ih =>
    obtain _ | fuel := fuel
    · cases walked
    obtain ⟨fewer, less, walked⟩ := ih there room walked
    exact ⟨fewer, Nat.lt_succ_of_lt less, walked⟩
  | @right left items right id passed more front here inner ih =>
    obtain _ | fuel := fuel
    · cases walked
    have walked : store.walk (some limit) fuel (some left :: store.evaluatedList? right :: rest) found = some shown :=
      walked
    rw [List.length_append] at room
    obtain ⟨turns, goes⟩ := front.walk_on
    have walked := walk_more walked turns
    rw [Nat.add_comm, goes _ _ _ (by omega), evaluatedList?_eq_some_iff.mpr here] at walked
    obtain ⟨fewer, less, rest, walked⟩ := ih there (by simpa [Nat.add_assoc] using room) walked
    exact ⟨fewer, Nat.lt_succ_of_lt less, rest, by simpa using walked⟩

/-- A look that comes to a right part whose list begins with that right part goes on forever. -/
theorem walk_of_beginsWith (circle : store.BeginsWith id id) (there : store.cell id = .forced (.list items))
    (room : found.size ≤ limit) (fuel : Nat) (rest : List (Option LazyList)) :
    store.walk (some limit) fuel (some items :: rest) found = none := by
  -- Each time around, the look has less fuel and has seen no more elements.
  obtain ⟨own, same, leads⟩ := circle
  obtain rfl : own = items := by
    rw [there] at same
    exact (Value.list.inj (Cell.forced.inj same)).symm
  induction fuel using Nat.strongRecOn generalizing rest with
  | _ fuel ih =>
    refine Option.eq_none_iff_forall_ne_some.mpr fun shown walked => ?_
    obtain ⟨fewer, less, rest, again⟩ := leads.walk there room walked
    rw [Array.append_empty, ih fewer less] at again
    cases again

/--
A look at a list comes to something exactly when it comes, within the limit, to no right part whose list begins with the same
right part again.
-/
theorem elements?_ends_iff : (∃ fuel shown, store.elements? fuel (some limit) items = some shown) ↔
    ∀ passed id, store.LeadsTo items passed id → passed.length ≤ limit → ¬ store.BeginsWith id id := by
  constructor
  · -- A look that ends would end from the circle on, too.
    rintro ⟨fuel, shown, walked⟩ passed id leads room circle
    have ⟨behind, there, own⟩ := circle
    obtain ⟨fewer, -, rest, again⟩ := leads.walk there (Nat.le_trans (Nat.le_of_eq (Nat.zero_add _)) room) walked
    rw [Array.empty_append, walk_of_beginsWith circle there room] at again
    cases again
  · intro circles
    refine (settles (Nat.zero_le limit) fun passed id leads room => ?_).elements?
    exact circles passed id leads (by omega)

end Store

end LazyConfig
