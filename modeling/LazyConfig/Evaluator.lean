import LazyConfig.Machine.Step

/-!
What a host can ask of the evaluator. Every request starts at nesting depth zero, works on a shared
store, and gives nothing when the given number of steps does not suffice.
-/

namespace LazyConfig

/-- How programs are evaluated. -/
structure Settings where
  /-- The most levels of nested evaluation. -/
  maxDepth : Nat := 100000
  /-- Whether a result is evaluated in all its parts before it is given out. -/
  deepForce : Bool := true
  deriving DecidableEq, Inhabited

/-- An evaluator of one program. -/
structure Evaluator where
  context : Context
  settings : Settings := {}
  deriving Inhabited

/-- The answer to a request, and the store after it. -/
structure Reply (α : Type) where
  result : Except Upset α
  store : Store

/-- The answer to a step along a list, the new position, and the store after it. -/
structure CursorReply where
  result : Except Upset (Option ThunkId)
  cursor : Cursor
  store : Store

namespace Reply

/-- The same answer, seen through a function. -/
def map {α β : Type} (f : α → β) (reply : Reply α) : Reply β :=
  ⟨reply.result.map f, reply.store⟩

end Reply

namespace State

/-- The value or the failure with which an evaluation has ended. -/
def reply? (state : State) : Option (Reply Value) :=
  let ⟨store, _, control, _⟩ := state
  match control with
  | .done (.value value) => some ⟨.ok value, store⟩
  | .done (.upset upset _) => some ⟨.error upset, store⟩
  | _ => none

/-- The outcome of a step along a list that started from a cursor. -/
def cursorReply? (start : Cursor) (state : State) : Option CursorReply :=
  let ⟨store, _, control, _⟩ := state
  match control with
  | .done (.stepped item rest) => some ⟨.ok item, rest, store⟩
  | .done (.upset upset left) => some ⟨.error upset, left.getD start, store⟩
  | _ => none

end State

/-- What a host can ask of an evaluator. -/
inductive Request
  /-- The value of an expression, with all its parts if the settings say so. -/
  | evaluate (body : ExprId) (env : Env)
  /-- The value of a suspended computation. -/
  | force (id : ThunkId)
  /-- The application of a value to one argument. -/
  | apply (func : Value) (arg : ThunkId)
  /-- The application of a value to several arguments, from left to right. -/
  | call (func : Value) (args : List ThunkId)
  /-- A value after all its parts are evaluated. -/
  | deepen (value : Value)
  /-- The result of a strict operator on evaluated operands. -/
  | operate (op : BinaryOp) (left right : Value)
  /-- Whether two values are equal, evaluating both as far as needed. -/
  | equal (left right : Value)
  /-- The next element of a list, without evaluating it. -/
  | next (cursor : Cursor)

namespace Request

/-- What the evaluator does first for a request. -/
def control : Request → Control
  | evaluate body env => .enter body env
  | force id => .force id
  | apply func arg => .apply func arg
  | call func _ => .give func
  | deepen value => .deepen [value] value
  | operate op left right => .operate op left right
  | equal left right => .compare [(left, right)]
  | next cursor => .advance cursor .report

/-- What the evaluator comes back to at the end of a request. -/
def frames (settings : Settings) : Request → List Frame
  | evaluate _ _ => if settings.deepForce then [.deepen] else []
  | call _ args => [.args args]
  | _ => []

end Request

namespace Evaluator

/-- The state in which a request starts. -/
def start (evaluator : Evaluator) (request : Request) (store : Store) : State :=
  ⟨store, ⟨evaluator.settings.maxDepth, 0⟩, request.control, request.frames evaluator.settings⟩

/-- The state that a request reaches after at most a given number of steps. -/
def run (evaluator : Evaluator) (fuel : Nat) (request : Request) (store : Store) : State :=
  (evaluator.start request store).run evaluator.context fuel

/-- Carries out a request for a value. -/
def perform (evaluator : Evaluator) (fuel : Nat) (request : Request) (store : Store) :
    Option (Reply Value) :=
  (evaluator.run fuel request store).reply?

/-- Whether two values are equal, evaluating both as far as needed. -/
def equal (evaluator : Evaluator) (fuel : Nat) (left right : Value) (store : Store) :
    Option (Reply Bool) :=
  (evaluator.perform fuel (.equal left right) store).map fun reply =>
    reply.map fun
      | .bool same => same
      | _ => false

/-- Checks a value against a resolved type. -/
def check (evaluator : Evaluator) (value : Value) (type : TypeId) (store : Store) : Reply Value :=
  let context := evaluator.context
  match store.check context.names context.annotations.graph value type .root with
  | (.ok value, store) => ⟨.ok value, store⟩
  | (.error fault, store) => ⟨.error (.fault fault), store⟩

/-! Walking lists. -/

/-- The next element of a list, without evaluating it; a step that fails still moves the cursor. -/
def next (evaluator : Evaluator) (fuel : Nat) (cursor : Cursor) (store : Store) :
    Option CursorReply :=
  (evaluator.run fuel (.next cursor) store).cursorReply? cursor

/-- The first element of a list and the list of the others. -/
def uncons (evaluator : Evaluator) (fuel : Nat) (list : LazyList) (store : Store) :
    Option (Reply (Option (ThunkId × LazyList))) :=
  (evaluator.next fuel list.cursor store).map fun ⟨result, cursor, store⟩ =>
    ⟨result.map fun item => item.map fun head => (head, cursor.rest), store⟩

/-- Whether a list has no elements. -/
def isEmpty (evaluator : Evaluator) (fuel : Nat) (list : LazyList) (store : Store) :
    Option (Reply Bool) :=
  (evaluator.next fuel list.cursor store).map fun ⟨result, _, store⟩ =>
    ⟨result.map fun item => item.isNone, store⟩

/-- Collects the elements from a position on. -/
def collect (evaluator : Evaluator) :
    Nat → Cursor → Array ThunkId → Store → Option (Reply (Array ThunkId))
  | 0, _, _, _ => none
  | fuel + 1, cursor, passed, store =>
    match evaluator.next fuel cursor store with
    | none => none
    | some ⟨.error upset, _, store⟩ => some ⟨.error upset, store⟩
    | some ⟨.ok none, _, store⟩ => some ⟨.ok passed, store⟩
    | some ⟨.ok (some item), rest, store⟩ => collect evaluator fuel rest (passed.push item) store

/-- All elements of a list, without evaluating them. -/
def toThunks (evaluator : Evaluator) (fuel : Nat) (list : LazyList) (store : Store) :
    Option (Reply (List ThunkId)) :=
  (evaluator.collect fuel list.cursor #[] store).map fun reply => reply.map Array.toList

/-- The number of elements of a list. -/
def length (evaluator : Evaluator) (fuel : Nat) (list : LazyList) (store : Store) :
    Option (Reply Nat) :=
  (evaluator.collect fuel list.cursor #[] store).map fun reply => reply.map Array.size

/-- The element after the given number of others, from a position on. -/
def elementAfter (evaluator : Evaluator) (fuel : Nat) :
    Nat → Cursor → Store → Option (Reply (Option ThunkId))
  | ahead, cursor, store =>
    match evaluator.next fuel cursor store with
    | none => none
    | some ⟨.error upset, _, store⟩ => some ⟨.error upset, store⟩
    | some ⟨.ok none, _, store⟩ => some ⟨.ok none, store⟩
    | some ⟨.ok (some item), rest, store⟩ =>
      match ahead with
      | 0 => some ⟨.ok (some item), store⟩
      | ahead + 1 => elementAfter evaluator fuel ahead rest store

/-- The element at a position, if the list is long enough. -/
def elemAt (evaluator : Evaluator) (fuel : Nat) (list : LazyList) (index : Nat) (store : Store) :
    Option (Reply (Option ThunkId)) :=
  evaluator.elementAfter fuel index list.cursor store

end Evaluator

end LazyConfig
