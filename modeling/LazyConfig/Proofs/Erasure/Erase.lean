import LazyConfig.Program
import LazyConfig.Proofs.Types.Annotations

/-! Programs without their annotations: what is ascribed stays, and so does the body of an alias group. -/

namespace LazyConfig

/-- An expression that is no ascription and no alias group. -/
def Expr.isPlain : Expr → Bool
  | ascribe _ _ | aliases _ _ => false
  | _ => true

/-- An expression without the annotations of its fields. -/
def Expr.bare : Expr → Expr
  | record fields => record (fields.map fun field => { field with type := none })
  | node => node

namespace Code

/-- The expression inside any ascriptions and alias groups. -/
def core (code : Code) : Nat → ExprId → ExprId
  | 0, id => id
  | depth + 1, id =>
    match code.expr id with
    | .ascribe value _ => core code depth value
    | .aliases _ body => core code depth body
    | _ => id

/-- The number of ascriptions and alias groups around the core of an expression. -/
def wraps (code : Code) : Nat → ExprId → Nat
  | 0, _ => 0
  | depth + 1, id =>
    match code.expr id with
    | .ascribe value _ => wraps code depth value + 1
    | .aliases _ body => wraps code depth body + 1
    | _ => 0

/-- The same code without annotations, for expressions that are not nested deeper than `depth`. -/
def erase (code : Code) (depth : Nat) : Code where
  exprs := code.exprs.mapIdx fun id _ => (code.expr (code.core depth id)).bare
  types := code.types

/-- Each ascription and each alias group is replaced by what is inside it. -/
theorem erase_expr (code : Code) (depth : Nat) (id : ExprId) :
    (code.erase depth).expr id = (code.expr (code.core depth id)).bare := by
  by_cases inside : id < code.exprs.size
  · simp [expr, erase, inside]
  · -- Where there is no expression, there is nothing to erase.
    have absent : code.exprs[id]? = none := Array.getElem?_eq_none (Nat.not_lt.mp inside)
    have missing : code.expr id = default := by rw [expr, absent, Option.getD_none]
    have same : code.core depth id = id := by
      cases depth with
      | zero => rfl
      | succ depth =>
        rw [core, missing]
        rfl
    have erased : (code.erase depth).expr id = default := by
      simp [expr, erase, inside]
    rw [same, missing, erased]
    rfl

/-- A plain expression is its own core. -/
theorem core_of_isPlain {code : Code} {id : ExprId} (plain : (code.expr id).isPlain = true)
    (depth : Nat) : code.core depth id = id := by
  cases depth with
  | zero => rfl
  -- There is neither an ascription nor an alias group to look into.
  | succ depth =>
    rw [core]
    split
    · rename_i found
      rw [found] at plain
      cases plain
    · rename_i found
      rw [found] at plain
      cases plain
    · rfl

end Code

namespace Annotations

variable {annotations : Annotations} {code : Code} {depth : Nat} {id : ExprId}

/-- What is ascribed in a covered expression is covered. -/
theorem Covers.ascribe {value : ExprId} {type : TypeExprId}
    (covers : annotations.Covers code (depth + 1) id)
    (found : code.expr id = .ascribe value type) :
    (annotations.get? type).isSome = true ∧ annotations.Covers code depth value := by
  rw [Covers, found] at covers
  exact covers

/-- The body of a covered alias group is covered. -/
theorem Covers.aliases {defs : List AliasDef} {body : ExprId}
    (covers : annotations.Covers code (depth + 1) id) (found : code.expr id = .aliases defs body) :
    annotations.Covers code depth body := by
  rw [Covers, found] at covers
  exact covers

/-- The core of a covered expression is the same with more room for nesting. -/
theorem Covers.core_succ (covers : annotations.Covers code depth id) :
    code.core (depth + 1) id = code.core depth id := by
  induction depth generalizing id with
  -- With every wrap that is taken off both sides have one level less.
  | zero => exact covers.elim
  | succ depth ih =>
    rw [Code.core]
    conv => rhs; rw [Code.core]
    split
    · rename_i value type found
      exact ih (covers.ascribe found).2
    · rename_i defs body found
      exact ih (covers.aliases found)
    · rfl

/-- The core of a covered expression is in as many wraps with more room for nesting. -/
theorem Covers.wraps_succ (covers : annotations.Covers code depth id) :
    code.wraps (depth + 1) id = code.wraps depth id := by
  induction depth generalizing id with
  -- With every wrap that is taken off both sides have one level less.
  | zero => exact covers.elim
  | succ depth ih =>
    rw [Code.wraps]
    conv => rhs; rw [Code.wraps]
    split
    · rename_i value type found
      rw [ih (covers.ascribe found).2]
    · rename_i defs body found
      rw [ih (covers.aliases found)]
    · rfl

/-- The core of a covered expression is plain. -/
theorem Covers.core_isPlain (covers : annotations.Covers code depth id) :
    (code.expr (code.core depth id)).isPlain = true := by
  induction depth generalizing id with
  -- Wraps are taken off as long as there are any, and the depth suffices for all of them.
  | zero => exact covers.elim
  | succ depth ih =>
    rw [Code.core]
    split
    · rename_i value type found
      exact ih (covers.ascribe found).2
    · rename_i defs body found
      exact ih (covers.aliases found)
    · rename_i notAscribe notAliases
      cases found : code.expr id with
      | ascribe value type => exact (notAscribe value type found).elim
      | aliases defs body => exact (notAliases defs body found).elim
      | _ => rfl

/-- The core of a covered expression is covered. -/
theorem Covers.core (covers : annotations.Covers code depth id) {more : Nat} (enough : depth ≤ more) :
    annotations.Covers code depth (code.core more id) := by
  induction depth generalizing id more with
  | zero => exact covers.elim
  | succ depth ih =>
    obtain ⟨rest, rfl⟩ : ∃ rest, more = rest + 1 := ⟨more - 1, by omega⟩
    have within : depth ≤ rest := by omega
    rw [Code.core]
    split
    · rename_i value type found
      exact (ih (covers.ascribe found).2 within).mono (Nat.le_succ depth)
    · rename_i defs body found
      exact (ih (covers.aliases found) within).mono (Nat.le_succ depth)
    · exact covers

/-- Steps that change nothing change nothing one after the other. -/
theorem foldlM_keeps {α : Type} {step : Annotations → α → Except TypeFault Annotations}
    {parts : List α} (keeps : ∀ part ∈ parts, step annotations part = .ok annotations) :
    parts.foldlM step annotations = .ok annotations := by
  induction parts with
  | nil => rfl
  | cons part rest ih =>
    rw [List.foldlM_cons, keeps part List.mem_cons_self]
    exact ih fun other member => keeps other (List.mem_cons_of_mem _ member)

/-- In code without annotations there is nothing to resolve. -/
theorem Covers.visit_erase {names : NameTable} {scope : Scope} {fuel : Nat}
    (covers : annotations.Covers code fuel id) (enough : fuel ≤ depth) (others : Annotations) :
    visit names (code.erase depth) fuel scope id others = .ok others := by
  induction fuel generalizing id with
  | zero => exact covers.elim
  | succ fuel ih =>
    have plain := (covers.mono enough).core_isPlain
    -- The erased code holds the core of each expression, which is covered and plain.
    have inner := covers.core enough
    have within : fuel ≤ depth := Nat.le_of_succ_le enough
    rw [Covers] at inner
    rw [visit, Code.erase_expr]
    cases found : code.expr (code.core depth id) with
    | ascribe | aliases =>
      rw [found] at plain
      cases plain
    | record fields =>
      rw [found] at inner
      refine foldlM_keeps fun field member => ?_
      obtain ⟨typed, among, rfl⟩ := List.mem_map.mp member
      exact ih (inner typed among).2 within
    | _ =>
      rw [found] at inner
      exact foldlM_keeps fun child member => ih (inner child member) within

end Annotations

/-- The same program without annotations. -/
def Program.erase (program : Program) : Program :=
  -- Parts come before the whole, so no expression is nested deeper than its position.
  { program with code := program.code.erase (program.root + 1) }

end LazyConfig
