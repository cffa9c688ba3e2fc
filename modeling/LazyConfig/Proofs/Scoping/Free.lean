import LazyConfig.Code
import LazyConfig.Value.Env

/-!
The names that an expression takes from its surroundings, and the environments that agree on them. An
expression looks up no other name, whatever else is bound around it.
-/

namespace LazyConfig

/-- The name that an expression binds in all its parts. -/
def Expr.binder? : Expr → Option Name
  | lambda param _ => some param
  | letIn name _ _ => some name
  | _ => none

/-- A name that an expression takes from its surroundings. -/
inductive Code.Free (code : Code) (name : Name) : ExprId → Prop
  | ident {id : ExprId} (node : code.expr id = .ident name) : Free code name id
  | part {id part : ExprId} (member : part ∈ (code.expr id).children)
    (unbound : (code.expr id).binder? ≠ some name) (inside : Free code name part) : Free code name id

/-- An expression takes a name from its surroundings if it is the name, or if a part does where it is not bound. -/
theorem Code.Free.of_node {code : Code} {name : Name} {id : ExprId} {node : Expr} (free : code.Free name id)
    (found : code.expr id = node) :
    node = .ident name ∨ ∃ part ∈ node.children, node.binder? ≠ some name ∧ code.Free name part := by
  subst found
  cases free with
  | ident same => exact .inl same
  | part member unbound inside => exact .inr ⟨_, member, unbound, inside⟩

/-- Environments that bind every name an expression takes from them to the same computation, or not at all. -/
def EnvsAgree (code : Code) (body : ExprId) (env other : Env) : Prop :=
  ∀ name, code.Free name body → env.lookup name = other.lookup name

/-- Environments that agree on what the body of a function takes from them, its parameter apart. -/
def EnvsAgreeUnder (code : Code) (param : Name) (body : ExprId) (env other : Env) : Prop :=
  ∀ name, code.Free name body → name ≠ param → env.lookup name = other.lookup name

namespace Env

/-- A name that is looked up is the innermost one, or another one that lies further out. -/
theorem lookup_bind (env : Env) (name other : Name) (value : ThunkId) :
    (env.bind name value).lookup other = if other = name then some value else env.lookup other := by
  by_cases same : other = name
  · simp [bind, lookup, same]
  · simp [bind, lookup, List.lookup_cons, same, beq_eq_false_iff_ne.mpr same]

/-- Bindings of other names in front of an environment are not seen. -/
theorem lookup_append_of_not_mem {name : Name} {bindings : List (Name × ThunkId)}
    (others : ∀ binding ∈ bindings, binding.1 ≠ name) (env : Env) :
    lookup ⟨bindings ++ env.bindings⟩ name = env.lookup name := by
  -- Each binding in front is passed, since it is one of another name.
  induction bindings with
  | nil => rfl
  | cons binding rest ih =>
    obtain ⟨own, value⟩ := binding
    have passed : (name == own) = false :=
      beq_eq_false_iff_ne.mpr (Ne.symm (others (own, value) (List.mem_cons_self ..)))
    have further := ih fun later member => others later (List.mem_cons_of_mem _ member)
    simpa [lookup, List.lookup_cons, passed] using further

end Env

namespace EnvsAgree

variable {code : Code} {id child : ExprId} {env other : Env}

theorem refl (code : Code) (id : ExprId) (env : Env) : EnvsAgree code id env env :=
  fun _ _ => rfl

/-- A variable is bound alike in environments that agree on it. -/
theorem lookup (agree : EnvsAgree code id env other) {name : Name}
    (node : code.expr id = .ident name) : env.lookup name = other.lookup name :=
  agree name (.ident node)

/-- What agrees on an expression that binds nothing agrees on its parts. -/
theorem part (agree : EnvsAgree code id env other) (member : child ∈ (code.expr id).children)
    (closed : (code.expr id).binder? = none) : EnvsAgree code child env other :=
  fun name inside => agree name (.part member (by simp [closed]) inside)

/-- What agrees on an expression that binds a name agrees on its parts, that name apart. -/
theorem under (agree : EnvsAgree code id env other) (member : child ∈ (code.expr id).children)
    {name : Name} (binds : (code.expr id).binder? = some name) : EnvsAgreeUnder code name child env other :=
  fun free inside different =>
    agree free (.part member (by simpa [binds] using Ne.symm different) inside)

end EnvsAgree

/-- Binding the name that was left out makes environments agree. -/
theorem EnvsAgreeUnder.bind {code : Code} {param : Name} {body : ExprId} {env other : Env}
    (agree : EnvsAgreeUnder code param body env other) (value : ThunkId) :
    EnvsAgree code body (env.bind param value) (other.bind param value) := by
  intro name inside
  rw [Env.lookup_bind, Env.lookup_bind]
  split
  · rfl
  · exact agree name inside ‹_›

end LazyConfig
