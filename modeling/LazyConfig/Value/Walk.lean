import LazyConfig.Value.Store

/-! Looking at values without evaluating anything. -/

namespace LazyConfig

/-- More steps than any run takes that comes to an end. -/
def ample : Nat :=
  Nat.pow 2 62

/-- An element of a list that is there without evaluating anything. -/
inductive Visible
  | thunk (id : ThunkId)
  | int (value : Int64)
  deriving DecidableEq

namespace Store

/-- The value of a visible element, if it has one. -/
def visible? (store : Store) : Visible → Option Value
  | .thunk id => store.peek? id
  | .int value => some (.int value)

/-- The right part of a join as far as it is evaluated to a list. -/
def evaluatedList? (store : Store) (id : ThunkId) : Option LazyList :=
  match store.peek? id with
  | some (.list items) => some items
  | _ => none

/-- How many of some more elements there is room for behind those that have been seen, if there is a limit. -/
def roomFor (limit : Option Nat) (seen count : Nat) : Nat :=
  match limit with
  | some limit => min (limit - seen) count
  | none => count

/--
Collects the elements that are there, up to a limit if there is one, and says whether these are all
elements. A part that is not evaluated ends the walk, and so does the first element past the limit. A
circle of joins without elements never ends.
-/
def walk (store : Store) (limit : Option Nat) :
    Nat → List (Option LazyList) → Array Visible → Option (Array Visible × Bool)
  | 0, _, _ => none
  | _ + 1, [], seen => some (seen, true)
  | _ + 1, none :: _, seen => some (seen, false)
  | fuel + 1, some (.elems items start) :: rest, seen =>
    let room := roomFor limit seen.size (items.size - start)
    let found := (items.extract start (start + room)).map Visible.thunk
    if start + room < items.size then some (seen ++ found, false)
    else walk store limit fuel rest (seen ++ found)
  | fuel + 1, some (.range next stop) :: rest, seen =>
    let length := (stop.toInt - next.toInt).toNat
    let room := roomFor limit seen.size length
    let found := (Array.range room).map fun n => Visible.int (next + Int64.ofNat n)
    if room < length then some (seen ++ found, false)
    else walk store limit fuel rest (seen ++ found)
  | fuel + 1, some (.concat left right) :: rest, seen =>
    walk store limit fuel (some left :: store.evaluatedList? right :: rest) seen

/-- The elements of a list that are there, up to a limit, and whether these are all. -/
def elements? (store : Store) (fuel : Nat) (limit : Option Nat) (list : LazyList) :
    Option (Array Visible × Bool) :=
  store.walk limit fuel [some list] #[]

end Store

end LazyConfig
