import LazyConfig.Proofs.Machine.Answers
import LazyConfig.Proofs.Machine.Runs
import LazyConfig.Proofs.Types.Occurrences

/-!
Programs whose annotations are resolved. Whatever a host asks for, no evaluation of such a program meets
an annotation or an alias that is not resolved.
-/

namespace LazyConfig

open Annotations

/-- Bounds for a program that never meets an unresolved type: its expressions, and any other failure. -/
def Bounds.resolved (code : Code) (root : ExprId) : Bounds where
  body id := ∃ groups, code.Leads root groups id
  fault fault := fault ≠ .unresolvedType
  answer := True

/-- An evaluator of a program that was given some annotations. -/
def Evaluator.Runs (code : Code) (annotations : Annotations) (evaluator : Evaluator) : Prop :=
  evaluator.context.code = code ∧ evaluator.context.annotations = annotations

section

variable {names : NameTable} {code : Code} {root : ExprId} {annotations : Annotations}

/-- The annotations that are written directly at an expression that is covered have types. -/
theorem Annotations.Covers.known {fuel : Nat} {id : ExprId}
    (covers : annotations.Covers code fuel id) {type : TypeExprId}
    (annotated : type ∈ (code.expr id).annotations) : (annotations.get? type).isSome = true := by
  cases fuel with
  | zero => exact covers.elim
  | succ fuel =>
    rw [Covers] at covers
    -- Only records and ascriptions are written with types.
    cases found : code.expr id with
    | record fields =>
      rw [found] at annotated
      simp only [found] at covers
      obtain ⟨field, member, same⟩ := List.mem_filterMap.mp annotated
      exact (covers field member).1 type same
    | ascribe value written =>
      rw [found] at annotated
      simp only [found] at covers
      rw [List.mem_singleton.mp annotated]
      exact covers.1
    | _ =>
      rw [found] at annotated
      cases annotated

/-- The parts of an expression that is covered are covered. -/
theorem Annotations.Covers.part {fuel : Nat} {id child : ExprId}
    (covers : annotations.Covers code fuel id) (member : child ∈ (code.expr id).children) :
    ∃ less, annotations.Covers code less child := by
  cases fuel with
  | zero => exact covers.elim
  | succ fuel =>
    refine ⟨fuel, ?_⟩
    rw [Covers] at covers
    -- The record and the ascription have more to them than their parts, and groups have one part
    -- only.
    cases found : code.expr id with
    | record fields =>
      rw [found] at member
      simp only [found] at covers
      obtain ⟨field, listed, rfl⟩ := List.mem_map.mp member
      exact (covers field listed).2
    | ascribe value type =>
      rw [found] at member
      simp only [found] at covers
      rw [List.mem_singleton.mp member]
      exact covers.2
    | aliases defs body =>
      rw [found] at member
      simp only [found] at covers
      rw [List.mem_singleton.mp member]
      exact covers
    | _ =>
      simp only [found] at covers member
      exact covers child member

/-- Every expression that the root leads to is covered. -/
theorem Code.Leads.covered (resolved : ofRoot names code root = .ok annotations) {groups : Groups}
    {id : ExprId} (leads : code.Leads root groups id) :
    ∃ fuel, annotations.Covers code fuel id := by
  -- By induction on the way from the root: what is below a covered expression is covered, at one
  -- level less.
  induction leads with
  | root => exact ⟨root + 1, (ofRoot_ok resolved).2⟩
  | child above plain member ih =>
    obtain ⟨fuel, covers⟩ := ih
    exact covers.part member
  | inside above found ih =>
    obtain ⟨fuel, covers⟩ := ih
    refine covers.part ?_
    rw [found]
    exact List.mem_cons_self

/-- With its annotations resolved, a program keeps within its bounds. -/
theorem Bounds.resolved_fits (resolved : ofRoot names code root = .ok annotations)
    {evaluator : Evaluator} (runs : evaluator.Runs code annotations) :
    (Bounds.resolved code root).Fits evaluator.context := by
  obtain ⟨⟨others, _, _⟩, settings⟩ := evaluator
  obtain ⟨rfl, rfl⟩ := runs
  refine ⟨?_, fun _ other _ => other, .inr ⟨(ofRoot_ok resolved).1, ?_⟩⟩
  · -- Inside a group the walk is in more groups, anywhere else it is in the same ones.
    rintro id ⟨groups, leads⟩ child member
    cases found : Code.expr _ id with
    | aliases defs body =>
      rw [found] at member
      rw [List.mem_singleton.mp member]
      exact ⟨_, leads.inside found⟩
    | _ => exact ⟨groups, leads.child (fun defs body same => nomatch found.symm.trans same) member⟩
  · rintro id ⟨groups, leads⟩ type annotated
    obtain ⟨fuel, covers⟩ := leads.covered resolved
    exact covers.known annotated

end

/--
The moments of sessions about one program with its annotations. Everything that the host hands over is
made of computations of the session and of expressions of the program.
-/
inductive Moment.About (code : Code) (root : ExprId) (annotations : Annotations) : Moment → Prop
  | first {evaluator : Evaluator} (runs : evaluator.Runs code annotations) {request : Request}
    (asked : request.Within (.resolved code root) 0) :
    About code root annotations ⟨evaluator.context, evaluator.start request {}⟩
  | step {moment : Moment} (about : About code root annotations moment) :
    About code root annotations ⟨moment.context, moment.state.step moment.context⟩
  | request {moment : Moment} {ending : Ending} (about : About code root annotations moment)
    (ended : moment.state.ending? = some ending) {evaluator : Evaluator}
    (runs : evaluator.Runs code annotations) {request : Request}
    (asked : request.Within (.resolved code root) moment.store.cells.size) :
    About code root annotations ⟨evaluator.context, evaluator.start request moment.store⟩
  | prepare {moment : Moment} {ending : Ending} (about : About code root annotations moment)
    (ended : moment.state.ending? = some ending) {action : Preparation}
    (runs : action.Asks (Evaluator.Runs code annotations))
    (asked : action.Within (.resolved code root) moment.store.cells.size) :
    About code root annotations
      ⟨moment.context, { moment.state with store := action.apply moment.store }⟩

/-- A failure is on its way at a moment, is told to the host, or is the outcome of a computation. -/
inductive Moment.Shows (moment : Moment) (failure : EvalError) : Prop
  | raised (raised : moment.state.control = .raise (.error failure))
  | answered (left : Option Cursor)
    (answered : moment.state.control = .done (.upset (.error failure) left))
  | remembered (id : ThunkId) (found : moment.store.cell id = .failed failure)

namespace Moment

variable {names : NameTable} {code : Code} {root : ExprId} {annotations : Annotations}
  {moment : Moment}

/-- The evaluator at work has the program and its annotations. -/
theorem About.runs (about : moment.About code root annotations) :
    moment.context.code = code ∧ moment.context.annotations = annotations := by
  induction about with
  | first runs => exact runs
  | step about ih => exact ih
  | request about ended runs asked ih => exact runs
  | prepare about ended runs asked ih => exact ih

/-- Any number of steps leads to a moment of a session about the program. -/
theorem About.run (about : moment.About code root annotations) (steps : Nat) :
    About code root annotations ⟨moment.context, moment.state.run moment.context steps⟩ := by
  induction steps with
  | zero => exact about
  | succ steps ih =>
    rw [State.run_last]
    exact ih.step

/-- At every moment of a session about a resolved program everything is within its bounds. -/
theorem About.within (resolved : ofRoot names code root = .ok annotations)
    (about : moment.About code root annotations) : moment.state.Within (.resolved code root) := by
  induction about with
  | first runs asked => exact asked.start _ fun id inside => absurd inside (Nat.not_lt_zero id)
  | @step moment about ih =>
    -- Any settings will do, since only the program matters for the bounds.
    have fits := @Bounds.resolved_fits _ _ _ _ resolved ⟨moment.context, {}⟩ about.runs
    exact ih.step fits nofun trivial
  | request about ended runs asked ih => exact asked.start _ ih.store
  | @prepare moment ending about ended action runs asked ih =>
    -- A check by the host is made with the annotations of the program too.
    have fits : action.Asks fun evaluator =>
        (Bounds.resolved code root).Fits evaluator.context := by
      cases action with
      | check evaluator value type => exact Bounds.resolved_fits resolved runs
      | _ => trivial
    have grows := asked.apply_grows fits
    exact ⟨grows.within ih.store, ih.control.grow grows.size, fun frame member =>
      (ih.stack frame member).grow grows.size⟩

/-- No failure that a session about a resolved program shows comes from an unresolved type. -/
theorem About.shows (resolved : ofRoot names code root = .ok annotations)
    (about : moment.About code root annotations) {failure : EvalError} (shows : moment.Shows failure) :
    failure.fault ≠ .unresolvedType := by
  have within := about.within resolved
  -- A failure is shown on its way, as an answer or as an outcome that was kept, and each of these
  -- is within bounds.
  cases shows with
  | raised raised =>
    have control := within.control
    rw [raised] at control
    exact control
  | answered left answered =>
    have control := within.control
    rw [answered] at control
    exact control.2.1
  | remembered id found =>
    have cell := within.store id (Store.lt_size_of_cell found nofun)
    rw [show moment.state.store.cell id = _ from found] at cell
    exact cell

end Moment

/--
A program whose annotations are resolved never meets an unresolved type. Every annotation of an
expression that the root leads to has a type; aliases are followed to a node that is no alias; no links
between aliases and generic types lead in a circle, so that looking through them comes to an end; and no
session about the program shows a failure for an unresolved type, nor does a check by the host.
-/
theorem resolved_never_unresolved {names : NameTable} {code : Code} {root : ExprId}
    {annotations : Annotations} (resolved : ofRoot names code root = .ok annotations) :
    (∀ groups id, code.Leads root groups id → ∀ type ∈ (code.expr id).annotations,
      (annotations.get? type).isSome = true) ∧
    (let graph := annotations.graph
      ∀ id, (∀ name target, graph.node (graph.follow id) ≠ .aliasSlot name target) ∧
        (∀ steps, graph.size ≤ steps → graph.followSteps steps id = graph.follow id) ∧
        ¬ Relation.TransGen (fun type next => graph.link? type = some next) id id ∧
        (graph.node (graph.shape id)).isShape = true ∧
        ∀ fuel, graph.size < fuel → graph.settle fuel id = graph.shape id) ∧
    ∀ moment : Moment, moment.About code root annotations →
      (∀ failure, moment.Shows failure → failure.fault ≠ .unresolvedType) ∧
      ∀ evaluator : Evaluator, evaluator.Runs code annotations → ∀ value type,
        value.Within (.resolved code root) moment.store.cells.size →
        (evaluator.check value type moment.store).result ≠ .error (.fault .unresolvedType) := by
  have sound := (ofRoot_ok resolved).1
  refine ⟨fun groups id leads type annotated => ?_, fun id => ?_, fun moment about => ⟨?_, ?_⟩⟩
  · obtain ⟨fuel, covers⟩ := leads.covered resolved
    exact covers.known annotated
  · -- Following aliases and looking through generic types both come to an end in a sound graph.
    obtain ⟨count, reads, plain⟩ := sound.reads id
    obtain ⟨ends, enough⟩ := sound.follow_ends id
    exact ⟨ends, enough, sound.acyclic id, plain, fun fuel more =>
      reads.settle (Nat.lt_of_le_of_lt reads.count_le more)⟩
  · exact fun failure => about.shows resolved
  · -- A check by the host fails with what may go wrong in any program, if it fails at all.
    intro evaluator runs value type within fails
    have checked := (Store.check_grows (Bounds.resolved_fits resolved runs) type .root within).2
    simp only [Evaluator.check] at fails
    split at fails
    · cases fails
    · rename_i fault _ outcome
      rw [outcome] at checked
      obtain rfl : fault = .unresolvedType := by
        simpa [Upset.fault] using fails
      exact checked rfl

/-- The program `typealias A = List Num in [1] : A`. -/
def annotatedOnes : Code where
  exprs := #[.int 1, .list [0], .ascribe 1 2, .aliases [⟨1, 1⟩] 2]
  types := #[.num, .list 0, .aliasRef 1]

/-- What resolving its annotation gives: the alias is a name for the lists of numbers. -/
def annotatedOnesTypes : Annotations :=
  ⟨⟨#[.aliasSlot 1 (some 2), .num, .list 1]⟩, #[none, none, some 0]⟩

/-- The evaluator of that program. -/
def annotatedOnesEvaluator : Evaluator :=
  ⟨⟨{}, annotatedOnes, annotatedOnesTypes⟩, {}⟩

/-- The annotation has a type, and evaluating the whole program shows no failure for it. -/
theorem resolved_never_unresolved_annotatedOnes :
    (annotatedOnesTypes.get? 2).isSome = true ∧
      let state := annotatedOnesEvaluator.run 40 (.evaluate 3 {}) {}
      state.Ended ∧ ∀ failure, Moment.Shows ⟨annotatedOnesEvaluator.context, state⟩ failure →
        failure.fault ≠ .unresolvedType := by
  have resolved : ofRoot {} annotatedOnes 3 = .ok annotatedOnesTypes := rfl
  have leads : annotatedOnes.Leads 3 [[⟨1, 1⟩]] 2 := .inside .root rfl
  have asked : Request.Within (.resolved annotatedOnes 3) 0 (.evaluate 3 {}) := ⟨⟨[], .root⟩, .empty⟩
  have runs : annotatedOnesEvaluator.Runs annotatedOnes annotatedOnesTypes := ⟨rfl, rfl⟩
  obtain ⟨known, -, sessions⟩ := resolved_never_unresolved resolved
  exact ⟨known _ 2 leads 2 List.mem_cons_self, ⟨_, rfl⟩,
    (sessions _ ((Moment.About.first runs asked).run 40)).1⟩

end LazyConfig
