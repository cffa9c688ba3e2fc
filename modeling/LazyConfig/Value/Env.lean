import LazyConfig.Name
import LazyConfig.Value.Record

/-! Lexical environments. -/

namespace LazyConfig

/-- The variables around an expression and where their values are, innermost first. -/
structure Env where
  bindings : List (Name × ThunkId) := []
  deriving DecidableEq, Inhabited

namespace Env

/-- The environment inside one more binding, which hides outer ones of the same name. -/
def bind (env : Env) (name : Name) (value : ThunkId) : Env :=
  ⟨(name, value) :: env.bindings⟩

/-- The innermost value of a name. -/
def lookup (env : Env) (name : Name) : Option ThunkId :=
  env.bindings.lookup name

/-- Whether a name is bound. -/
def contains (env : Env) (name : Name) : Bool :=
  (env.lookup name).isSome

/-- The number of bindings, hidden ones included. -/
def depth (env : Env) : Nat :=
  env.bindings.length

end Env

end LazyConfig
