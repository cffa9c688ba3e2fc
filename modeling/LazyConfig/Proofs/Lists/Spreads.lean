import LazyConfig.Proofs.Lists.Sequence

/-!
Lists all of whose right parts are evaluated. Looking at such a list without evaluating anything shows all its
elements, and they are those that a walk along the list comes to.
-/

namespace LazyConfig

/-! Ranges. -/

/-- The integer behind one that is below a bound. -/
theorem toInt_succ {next stop : Int64} (more : next < stop) : (next + 1).toInt = next.toInt + 1 := by
  have less := Int64.lt_iff_toInt_lt.mp more
  have top := Int64.toInt_lt stop
  have bottom := Int64.le_toInt next
  rw [Int64.toInt_add, Int64.toInt_one]
  exact Int.bmod_eq_of_le (by omega) (by omega)

/-- The integers of a range. -/
def span (next stop : Int64) : List Int64 :=
  (List.range (stop.toInt - next.toInt).toNat).map fun n => next + Int64.ofNat n

/-- A range at its end has no integers. -/
theorem span_of_passed {next stop : Int64} (passed : ¬ next < stop) : span next stop = [] := by
  rw [Int64.lt_iff_toInt_lt] at passed
  have none : (stop.toInt - next.toInt).toNat = 0 := by omega
  rw [span, none]
  rfl

/-- The first integer of a range, and those of the range behind it. -/
theorem span_of_more {next stop : Int64} (more : next < stop) : span next stop = next :: span (next + 1) stop := by
  have behind := toInt_succ more
  rw [Int64.lt_iff_toInt_lt] at more
  have count : (stop.toInt - next.toInt).toNat = (stop.toInt - (next + 1).toInt).toNat + 1 := by omega
  rw [span, span, count, List.range_succ_eq_map, List.map_cons, List.map_map]
  refine congrArg₂ List.cons (by simp) (List.map_congr_left fun n _ => ?_)
  show next + Int64.ofNat (n + 1) = next + 1 + Int64.ofNat n
  rw [Int64.ofNat_add, Int64.add_comm (Int64.ofNat n), ← Int64.add_assoc]
  rfl

/-! What is seen of a list. -/

/-- The elements of a list all of whose right parts are evaluated. -/
inductive Store.Spreads (store : Store) : LazyList → List Visible → Prop
  | elems (items : Array ThunkId) (start : Nat) :
    Spreads store (.elems items start) ((items.toList.drop start).map .thunk)
  | range (next stop : Int64) : Spreads store (.range next stop) ((span next stop).map .int)
  | concat {left items : LazyList} {right : ThunkId} {first second : List Visible}
    (front : Spreads store left first) (found : store.cell right = .forced (.list items))
    (back : Spreads store items second) : Spreads store (.concat left right) (first ++ second)

namespace Store

variable {context : Context} {meter : DepthMeter} {store after : Store} {items : LazyList} {elements : List Visible}

/-- What is left of a look after some elements: the look goes on, or it stops at the limit. -/
def looked (store : Store) (limit : Option Nat) (fuel : Nat) (rest : List (Option LazyList)) (seen : Array Visible)
    (elements : List Visible) : Option (Array Visible × Bool) :=
  if roomFor limit seen.size elements.length = elements.length then
    store.walk limit fuel rest (seen ++ elements.toArray)
  else some (seen ++ (elements.take (roomFor limit seen.size elements.length)).toArray, false)

/-- There is room for no more elements than there are. -/
theorem roomFor_le (limit : Option Nat) (seen count : Nat) : roomFor limit seen count ≤ count := by
  cases limit with
  | none => exact Nat.le_refl count
  | some limit => exact Nat.min_le_right ..

/-- Room for two lists of elements is room for the one, and behind it for the other. -/
theorem roomFor_add (limit : Option Nat) (seen first second : Nat) :
    roomFor limit seen (first + second) =
      roomFor limit seen first + roomFor limit (seen + first) second := by
  cases limit with
  | none => rfl
  | some limit => simp only [roomFor]; omega

/-- Behind elements for which there was no room there is none. -/
theorem roomFor_behind {limit : Option Nat} {seen first : Nat} (full : roomFor limit seen first ≠ first)
    (second : Nat) : roomFor limit (seen + first) second = 0 := by
  cases limit with
  | none => exact absurd rfl full
  | some limit =>
    simp only [roomFor] at full ⊢
    omega

/-- A look passes all elements that are given, or stops at the limit. -/
theorem walk_elems (items : Array ThunkId) (start : Nat) (limit : Option Nat) (fuel : Nat)
    (rest : List (Option LazyList)) (seen : Array Visible) :
    store.walk limit (fuel + 1) (some (.elems items start) :: rest) seen =
      store.looked limit fuel rest seen ((items.toList.drop start).map .thunk) := by
  have length : ((items.toList.drop start).map Visible.thunk).length = items.size - start := by simp
  have shown (room : Nat) : (items.extract start (start + room)).map Visible.thunk =
      (((items.toList.drop start).map Visible.thunk).take room).toArray := by
    apply Array.ext'
    simp [List.extract_eq_take_drop]
  have bound := roomFor_le limit seen.size (items.size - start)
  rw [walk, looked]
  simp only [length, shown]
  by_cases fits : roomFor limit seen.size (items.size - start) = items.size - start
  · rw [if_pos fits, if_neg (by omega), fits, ← length, List.take_length]
  · rw [if_neg fits, if_pos (by omega)]

/-- A look passes all integers of a range, or stops at the limit. -/
theorem walk_range (next stop : Int64) (limit : Option Nat) (fuel : Nat) (rest : List (Option LazyList))
    (seen : Array Visible) :
    store.walk limit (fuel + 1) (some (.range next stop) :: rest) seen =
      store.looked limit fuel rest seen ((span next stop).map .int) := by
  have length : ((span next stop).map Visible.int).length = (stop.toInt - next.toInt).toNat := by simp [span]
  have bound := roomFor_le limit seen.size (stop.toInt - next.toInt).toNat
  have shown : ((Array.range (roomFor limit seen.size (stop.toInt - next.toInt).toNat)).map
      fun n => Visible.int (next + Int64.ofNat n)) =
      (((span next stop).map Visible.int).take (roomFor limit seen.size (stop.toInt - next.toInt).toNat)).toArray := by
    apply Array.ext'
    simp only [span, List.map_map, Function.comp_def, ← List.map_take, List.take_range, Nat.min_eq_left bound]
    simp
  rw [walk, looked]
  simp only [shown, length]
  by_cases fits : roomFor limit seen.size (stop.toInt - next.toInt).toNat = (stop.toInt - next.toInt).toNat
  · rw [if_pos fits, if_neg (by omega), fits, ← length, List.take_length]
  · rw [if_neg fits, if_pos (by omega)]

namespace Spreads

/-- A list of given elements has these. -/
theorem ofThunks (store : Store) (ids : List ThunkId) : store.Spreads (.ofThunks ids) (ids.map .thunk) := by
  have given : store.Spreads (.ofThunks ids) _ := .elems ids.toArray 0
  simpa using given

/-- A look passes all elements of a list, or stops at the limit. -/
theorem walk (spreads : store.Spreads items elements) : ∃ turns, ∀ limit fuel rest seen,
    store.walk limit (turns + fuel) (some items :: rest) seen = store.looked limit fuel rest seen elements := by
  -- By induction on the pieces; each turn takes one piece from the stack, or opens a join.
  induction spreads with
  | elems items start =>
    refine ⟨1, fun limit fuel rest seen => ?_⟩
    rw [Nat.add_comm]
    exact walk_elems items start limit fuel rest seen
  | range next stop =>
    refine ⟨1, fun limit fuel rest seen => ?_⟩
    rw [Nat.add_comm]
    exact walk_range next stop limit fuel rest seen
  | @concat left items right first second front found back left' right' =>
    obtain ⟨few, left'⟩ := left'
    obtain ⟨more, right'⟩ := right'
    refine ⟨few + more + 1, fun limit fuel rest seen => ?_⟩
    have list : store.evaluatedList? right = some items := by simp [evaluatedList?, peek?, found]
    have turns : few + more + 1 + fuel = few + (more + fuel) + 1 := by omega
    have size : (seen ++ first.toArray).size = seen.size + first.length := by simp
    have room := roomFor_add limit seen.size first.length second.length
    have bound := roomFor_le limit (seen.size + first.length) second.length
    rw [turns, Store.walk, list, left', looked, looked, List.length_append, room]
    -- Where there is room for the left part, the look goes on with the right part.
    by_cases fits : roomFor limit seen.size first.length = first.length
    · rw [if_pos fits, right', looked, size, fits]
      by_cases all : roomFor limit (seen.size + first.length) second.length = second.length
      · rw [if_pos all, if_pos (by omega)]
        simp
      · rw [if_neg all, if_neg (by omega), List.take_length_add_append]
        simp
    · have none := roomFor_behind fits second.length
      have bound := roomFor_le limit seen.size first.length
      rw [if_neg fits, if_neg (by omega), none, Nat.add_zero, List.take_append_of_le_length bound]

/-- All elements of a list are seen if there is room for them, and otherwise the first ones. -/
theorem elements? (spreads : store.Spreads items elements) : ∃ enough, ∀ fuel, enough ≤ fuel → ∀ limit,
    store.elements? fuel limit items = some (if roomFor limit 0 elements.length = elements.length then
      (elements.toArray, true) else ((elements.take (roomFor limit 0 elements.length)).toArray, false)) := by
  obtain ⟨turns, walked⟩ := spreads.walk
  refine ⟨turns + 1, fun fuel enough limit => ?_⟩
  obtain ⟨more, rfl⟩ := Nat.exists_eq_add_of_le enough
  have begun := walked limit (1 + more) [] #[]
  rw [Store.elements?, Nat.add_assoc, begun, looked]
  simp only [Array.size_empty, Array.empty_append]
  split
  · rw [Nat.add_comm]
    rfl
  · rfl

/-- Within a limit, all elements of a list are seen, or the first ones up to the limit. -/
theorem elements?_some (spreads : store.Spreads items elements) : ∃ enough, ∀ fuel, enough ≤ fuel → ∀ limit,
    store.elements? fuel (some limit) items = some (if elements.length ≤ limit then (elements.toArray, true)
      else ((elements.take limit).toArray, false)) := by
  obtain ⟨enough, seen⟩ := spreads.elements?
  refine ⟨enough, fun fuel less limit => ?_⟩
  have room : roomFor (some limit) 0 elements.length = min limit elements.length := rfl
  rw [seen fuel less, room]
  by_cases fits : elements.length ≤ limit
  · rw [if_pos fits, if_pos (by omega)]
  · rw [if_neg fits, if_neg (by omega), Nat.min_eq_left (by omega)]

/-- Without a limit, all elements of a list are seen. -/
theorem elements?_none (spreads : store.Spreads items elements) : ∃ enough, ∀ fuel, enough ≤ fuel →
    store.elements? fuel none items = some (elements.toArray, true) := by
  obtain ⟨enough, seen⟩ := spreads.elements?
  exact ⟨enough, fun fuel less => (seen fuel less none).trans (by rw [roomFor, if_pos rfl])⟩

/-- What is seen of a list is seen later, too. -/
theorem later (spreads : store.Spreads items elements) (order : store.Precedes after) :
    after.Spreads items elements := by
  induction spreads with
  | elems items start => exact .elems items start
  | range next stop => exact .range next stop
  | concat _ found _ left' right' => exact .concat left' (order.forced found) right'

/-- Given elements are those that a walk comes to. -/
theorem sequence_elems (items : Array ThunkId) {start count : Nat} (left : items.size - start = count) :
    Sequence context meter store (.elems items start) ((items.toList.drop start).map .thunk) .finished store := by
  induction count generalizing start with
  | zero =>
    have none : items[start]? = none := Array.getElem?_eq_none (by omega)
    have empty : items.toList.drop start = [] := List.drop_of_length_le (by simp; omega)
    rw [empty]
    exact .elemEnd none
  | succ count ih =>
    have found : items[start]? = some items[start] := Array.getElem?_eq_getElem (by omega)
    rw [LazyList.drop_of_getElem? found]
    exact .elemNext found (ih (by omega))

/-- The integers of a range are those that a walk comes to, each with a computation of its own. -/
theorem sequence_range {next stop : Int64} {count : Nat} (left : (stop.toInt - next.toInt).toNat = count)
    (store : Store) : ∃ last,
      Sequence context meter store (.range next stop) ((span next stop).map .int) .finished last ∧
        store.Extends last := by
  induction count generalizing next store with
  | zero =>
    have passed : ¬ next < stop := by
      rw [Int64.lt_iff_toInt_lt]
      omega
    rw [span_of_passed passed]
    exact ⟨store, .rangeEnd passed, .refl store⟩
  | succ count ih =>
    have more : next < stop := by
      rw [Int64.lt_iff_toInt_lt]
      omega
    have behind := toInt_succ more
    obtain ⟨last, sequence, extended⟩ := @ih (next + 1) (by omega) (store.ready (.int next)).2
    rw [span_of_more more]
    exact ⟨last, .rangeNext more sequence, (store.ready_extends _).trans extended⟩

/-- What is seen of a list are the elements that a walk comes to, now and later. -/
theorem sequence (spreads : store.Spreads items elements) (order : store.Precedes after) :
    ∃ last, Sequence context meter after items elements .finished last ∧ after.Extends last := by
  induction spreads generalizing after with
  | elems items start => exact ⟨after, sequence_elems items rfl, .refl after⟩
  | range next stop => exact sequence_range rfl after
  | concat front found back left' right' =>
    obtain ⟨middle, first, extended⟩ := left' order
    obtain ⟨last, second, further⟩ := right' (order.trans extended.precedes)
    exact ⟨last, .right first (.of_forced ((order.trans extended.precedes).forced found)) second,
      extended.trans further⟩

end Spreads

end Store

end LazyConfig
