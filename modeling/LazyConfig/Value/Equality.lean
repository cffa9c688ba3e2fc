import LazyConfig.Value.Walk

/-! Equality of what is already evaluated, which is how the host compares values. -/

namespace LazyConfig.Store

/-- The pairs of values at the same places; nothing if a place is not evaluated. -/
def pairUp (store : Store) : List Visible → List Visible → Option (List (Value × Value))
  | left :: lefts, right :: rights => do
    let left ← store.visible? left
    let right ← store.visible? right
    let pairs ← pairUp store lefts rights
    pure ((left, right) :: pairs)
  | _, _ => some []

/--
Compares pairs of values without evaluating anything. Numbers compare by value, functions of the
language only equal themselves, and what is not evaluated equals nothing. Circles never end.
-/
def equalPairs (store : Store) : Nat → List (Value × Value) → Option Bool
  | 0, _ => none
  | _ + 1, [] => some true
  | fuel + 1, (left, right) :: rest =>
    match left, right with
    | .int left, .int right => if left = right then equalPairs store fuel rest else some false
    | .str left, .str right => if left = right then equalPairs store fuel rest else some false
    | .bool left, .bool right => if left = right then equalPairs store fuel rest else some false
    | .list left, .list right => do
      let (lefts, leftComplete) ← store.elements? fuel none left
      let (rights, rightComplete) ← store.elements? fuel none right
      if leftComplete && rightComplete && lefts.size == rights.size then
        match store.pairUp lefts.toList rights.toList with
        | some pairs => equalPairs store fuel (pairs ++ rest)
        | none => some false
      else some false
    | .record left, .record right =>
      if left.names = right.names then
        match store.pairUp (left.thunks.map .thunk) (right.thunks.map .thunk) with
        | some pairs => equalPairs store fuel (pairs ++ rest)
        | none => some false
      else some false
    | .closure left, .closure right =>
      if left.tag = right.tag then equalPairs store fuel rest else some false
    | left, right =>
      match left.asFloat?, right.asFloat? with
      | some left, some right => if left == right then equalPairs store fuel rest else some false
      | _, _ => some false

/-- Whether two values are equal as far as they are evaluated. -/
def equal? (store : Store) (fuel : Nat) (left right : Value) : Option Bool :=
  store.equalPairs fuel [(left, right)]

end LazyConfig.Store
