import LazyConfig.Evaluator
import LazyConfig.Proofs.Prelude.Built
import LazyConfig.Proofs.Scoping.Rules

/-!
Lexical scoping. What an expression comes to depends only on the names that it takes from its
surroundings, and so does everything that is asked of the evaluator afterwards.
-/

namespace LazyConfig

/-- Answers that agree, and stores that agree after them. -/
structure RepliesAgree (code : Code) (reply other : Reply Value) : Prop where
  results : ResultsAgree code reply.result other.result
  stores : StoresAgree code reply.store other.store

/-- The same answer to a step along a list, and stores that agree after it. -/
structure CursorRepliesAgree (code : Code) (reply other : CursorReply) : Prop where
  result : reply.result = other.result
  cursor : reply.cursor = other.cursor
  stores : StoresAgree code reply.store other.store

/-- Requests for the same. -/
inductive RequestsAgree (code : Code) : Request → Request → Prop
  | evaluate {body : ExprId} {env other : Env} (agree : EnvsAgree code body env other) :
    RequestsAgree code (.evaluate body env) (.evaluate body other)
  | force (id : ThunkId) : RequestsAgree code (.force id) (.force id)
  | apply {func other : Value} (values : ValuesAgree code func other) (arg : ThunkId) :
    RequestsAgree code (.apply func arg) (.apply other arg)
  | call {func other : Value} (values : ValuesAgree code func other) (args : List ThunkId) :
    RequestsAgree code (.call func args) (.call other args)
  | deepen {value other : Value} (values : ValuesAgree code value other) :
    RequestsAgree code (.deepen value) (.deepen other)
  | operate (op : BinaryOp) {left right first second : Value} (lefts : ValuesAgree code left first)
    (rights : ValuesAgree code right second) :
    RequestsAgree code (.operate op left right) (.operate op first second)
  | equal {left right first second : Value} (lefts : ValuesAgree code left first)
    (rights : ValuesAgree code right second) : RequestsAgree code (.equal left right) (.equal first second)
  | next (cursor : Cursor) : RequestsAgree code (.next cursor) (.next cursor)

section

variable {evaluator : Evaluator} {left right : Store} {request other : Request}

/-- Requests for the same start in states that agree. -/
theorem RequestsAgree.start (requests : RequestsAgree evaluator.context.code request other)
    (stores : StoresAgree evaluator.context.code left right) :
    StatesAgree evaluator.context.code (evaluator.start request left) (evaluator.start other right) := by
  cases requests with
  | evaluate agree =>
    refine ⟨stores, rfl, .enter agree, ?_⟩
    simp only [Evaluator.start, Request.frames]
    split
    · exact .cons (.plain rfl) .nil
    · exact .nil
  | force id => exact ⟨stores, rfl, .force id, .nil⟩
  | apply values arg => exact ⟨stores, rfl, .apply values arg, .nil⟩
  | call values args => exact ⟨stores, rfl, .give values, .cons (.plain rfl) .nil⟩
  | deepen values => exact ⟨stores, rfl, .deepen (.cons values .nil) values, .nil⟩
  | operate op lefts rights => exact ⟨stores, rfl, .operate op lefts rights, .nil⟩
  | equal lefts rights => exact ⟨stores, rfl, .compare (.cons ⟨lefts, rights⟩ .nil), .nil⟩
  | next cursor => exact ⟨stores, rfl, .advance cursor .report, .nil⟩

/-- What states that agree have come to is the same answer, or none yet. -/
theorem StatesAgree.reply {code : Code} {state image : State} (agree : StatesAgree code state image) :
    Option.Rel (RepliesAgree code) state.reply? image.reply? := by
  obtain ⟨store, meter, control, stack⟩ := state
  obtain ⟨later, level, next, others⟩ := image
  obtain ⟨stores, -, controls, -⟩ := agree
  -- Only a state that is done has an answer, and states that agree are done together.
  cases controls with
  | done endings =>
    cases endings with
    | value values => exact .some ⟨.ok values, stores⟩
    | upset upset left => exact .some ⟨.error upset, stores⟩
    | stepped item rest => exact .none
  | _ => exact .none

/-- What states that agree have come to along a list is the same. -/
theorem StatesAgree.cursorReply {code : Code} {state image : State} (agree : StatesAgree code state image)
    (start : Cursor) :
    Option.Rel (CursorRepliesAgree code) (state.cursorReply? start) (image.cursorReply? start) := by
  obtain ⟨store, meter, control, stack⟩ := state
  obtain ⟨later, level, next, others⟩ := image
  obtain ⟨stores, -, controls, -⟩ := agree
  cases controls with
  | done endings =>
    cases endings with
    | value values => exact .none
    | upset upset left => exact .some ⟨rfl, rfl, stores⟩
    | stepped item rest => exact .some ⟨rfl, rfl, stores⟩
  | _ => exact .none

/-- Requests for the same have answers that agree, after the same number of steps. -/
theorem perform_agree (requests : RequestsAgree evaluator.context.code request other)
    (stores : StoresAgree evaluator.context.code left right) (fuel : Nat) :
    Option.Rel (RepliesAgree evaluator.context.code) (evaluator.perform fuel request left)
      (evaluator.perform fuel other right) :=
  ((requests.start stores).run fuel).reply

/-- Steps from the same position of a list have the same answer. -/
theorem next_agree (stores : StoresAgree evaluator.context.code left right) (cursor : Cursor)
    (fuel : Nat) :
    Option.Rel (CursorRepliesAgree evaluator.context.code) (evaluator.next fuel cursor left)
      (evaluator.next fuel cursor right) :=
  (((RequestsAgree.next cursor).start stores).run fuel).cursorReply cursor

end

/-- Two ways to evaluate an expression on a store that have answers that agree after any number of steps. -/
def SameAnswers (evaluator : Evaluator) (body : ExprId) (env other : Env) (store : Store) : Prop :=
  ∀ fuel, Option.Rel (RepliesAgree evaluator.context.code)
    (evaluator.perform fuel (.evaluate body env) store)
    (evaluator.perform fuel (.evaluate body other) store)

/-- The code of `size`, a variable. -/
def sizeVariable : Code where
  exprs := #[.ident 1]

/-- The only name that the variable takes from its surroundings is its own. -/
theorem sizeVariable_free {name : Name} (free : sizeVariable.Free name 0) : name = 1 := by
  cases free with
  | ident node => exact (Expr.ident.inj node).symm
  | part member => cases member

/-- A draft that consists of the variable. -/
def sizeDraft : Draft :=
  { names := ⟨#["", "size"]⟩, code := sizeVariable }

end LazyConfig
