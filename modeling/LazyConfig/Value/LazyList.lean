import LazyConfig.Value.Record

/-! Lists whose right parts may not be evaluated yet, and the cursors that walk them. -/

namespace LazyConfig

/-- A list as a tree; the right part of a join is evaluated when the left part is used up. -/
inductive LazyList
  /-- Some elements, from a start position on. -/
  | elems (items : Array ThunkId) (start : Nat)
  /-- The integers from `next` up to but not including `stop`. -/
  | range (next stop : Int64)
  | concat (left : LazyList) (right : ThunkId)
  deriving DecidableEq

namespace LazyList

/-- The list without elements. -/
def empty : LazyList :=
  .range 0 0

instance : Inhabited LazyList := ⟨empty⟩

/-- A list of given elements. -/
def ofThunks (items : List ThunkId) : LazyList :=
  .elems items.toArray 0

/-- The integers from zero up to but not including a bound. -/
def upTo (stop : Int64) : LazyList :=
  .range 0 stop

/-- The element at a position is the first of those from there on. -/
theorem drop_of_getElem? {items : Array ThunkId} {start : Nat} {id : ThunkId}
    (found : items[start]? = some id) :
    items.toList.drop start = id :: items.toList.drop (start + 1) := by
  rw [← Array.getElem?_toList] at found
  obtain ⟨inside, rfl⟩ := List.getElem?_eq_some_iff.mp found
  exact List.drop_eq_getElem_cons inside

end LazyList

/-- A position in a list: what is being walked, and the right parts that come after it. -/
structure Cursor where
  front : LazyList
  pending : List ThunkId
  deriving DecidableEq, Inhabited

namespace Cursor

/-- The list of the elements that a cursor has not passed yet. -/
def rest (cursor : Cursor) : LazyList :=
  cursor.pending.foldl .concat cursor.front

/-- A cursor that stands before the given right parts. -/
def before (pending : List ThunkId) : Cursor :=
  ⟨.empty, pending⟩

end Cursor

/-- The position before the first element. -/
def LazyList.cursor (list : LazyList) : Cursor :=
  ⟨list, []⟩

end LazyConfig
