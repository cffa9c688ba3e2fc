import LazyConfig.Build
import LazyConfig.Evaluator

/-! Whole programs: checking their annotations and running them. -/

namespace LazyConfig

/-- Code with the names used in it and the expression that it stands for. -/
structure Program where
  names : NameTable
  code : Code
  root : ExprId
  deriving Inhabited

/-- Why a program has no value. -/
inductive RunFault
  /-- The annotations are wrong, and nothing was evaluated. -/
  | type (fault : TypeFault)
  | eval (error : EvalError)
  deriving DecidableEq, Inhabited

namespace RunFault

/-- The text of a fault, after the part of the run in which it arose. -/
def message : RunFault → String
  | type fault => "type error: " ++ fault.message
  | eval error => "evaluation error: " ++ error.message

/-- The notes that come with a fault. -/
def notes : RunFault → List String
  | type _ => []
  | eval error => error.notes

end RunFault

/-- Makes functions of the host known under their names; of two with one name the later counts. -/
def bindHosts : List HostFunction → Env → NameTable → Store → Env × NameTable × Store
  | [], env, names, store => (env, names, store)
  | function :: rest, env, names, store =>
    let (name, names) := names.intern function.name
    let (id, store) := store.ready (.host function)
    bindHosts rest (env.bind name id) names store

namespace Program

/-- The program that a building step makes. -/
def ofBuild (build : Build ExprId) : Program :=
  let (root, draft) := build.run {}
  ⟨draft.names, draft.code, root⟩

/-- The types of all annotations of a program. -/
def annotations (program : Program) : Except TypeFault Annotations :=
  Annotations.ofRoot program.names program.code program.root

/-- Evaluates a program whose annotations are resolved, with functions of the host around it. -/
def evaluate (program : Program) (settings : Settings) (annotations : Annotations)
    (hosts : List HostFunction) (fuel : Nat) : Option (Reply Value) :=
  let (env, names, store) := bindHosts hosts {} program.names {}
  let evaluator : Evaluator := ⟨⟨names, program.code, annotations⟩, settings⟩
  evaluator.perform fuel (.evaluate program.root env) store

/-- Checks the annotations of a program and then evaluates it. -/
def run (program : Program) (settings : Settings) (fuel : Nat) :
    Option (Except RunFault (Value × Store)) :=
  match program.annotations with
  | .error fault => some (.error (.type fault))
  | .ok annotations =>
    (program.evaluate settings annotations [] fuel).map fun reply =>
      match reply.result with
      | .ok value => .ok (value, reply.store)
      | .error upset => .error (.eval upset.remembered)

end Program

end LazyConfig
