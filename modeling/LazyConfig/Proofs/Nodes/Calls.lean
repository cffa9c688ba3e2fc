import LazyConfig.Lists
import Mathlib.Logic.Relation

/-!
Building code by calls that are given only what earlier calls gave. Every node refers to nodes that were there before
it, and no call changes a node that is there.
-/

namespace LazyConfig

/-- A node of code under construction. -/
inductive NodeRef
  | expr (id : ExprId)
  | type (id : TypeExprId)
  deriving DecidableEq

/-- The nodes that an expression refers to. -/
def Expr.refs (node : Expr) : List NodeRef :=
  node.children.map .expr ++ node.types.map .type

/-- The nodes that a type expression refers to. -/
def TypeExpr.refs (node : TypeExpr) : List NodeRef :=
  node.children.map .type

/-- The nodes that a field of a record literal refers to. -/
def Field.refs (field : Field) : List NodeRef :=
  .expr field.value :: field.type.toList.map .type

/-- A record literal refers to what its fields refer to. -/
theorem Expr.mem_refs_record {fields : List Field} {ref : NodeRef} :
    ref ∈ (Expr.record fields).refs ↔ ∃ field ∈ fields, ref ∈ field.refs := by
  simp only [Expr.refs, Expr.children, Expr.types, Field.refs, List.mem_append, List.mem_map, List.mem_filterMap,
    List.mem_cons, Option.mem_toList]
  constructor
  · rintro (⟨id, ⟨field, member, rfl⟩, rfl⟩ | ⟨type, ⟨field, member, typed⟩, rfl⟩)
    · exact ⟨field, member, .inl rfl⟩
    · exact ⟨field, member, .inr ⟨type, typed, rfl⟩⟩
  · rintro ⟨field, member, rfl | ⟨type, typed, rfl⟩⟩
    · exact .inl ⟨field.value, ⟨field, member, rfl⟩, rfl⟩
    · exact .inr ⟨type, ⟨field, member, typed⟩, rfl⟩

/-- A node is there. -/
def NodeRef.Inside (code : Code) : NodeRef → Prop
  | .expr id => id < code.exprs.size
  | .type id => id < code.types.size

namespace Code

/-- All of some nodes are there. -/
def Has (code : Code) (refs : List NodeRef) : Prop :=
  ∀ ref ∈ refs, ref.Inside code

/-- Code with more nodes, in which the old ones are as they were. -/
structure Extends (before after : Code) : Prop where
  exprs : ∀ (id : ExprId) (node : Expr), before.exprs[id]? = some node → after.exprs[id]? = some node
  types : ∀ (id : TypeExprId) (node : TypeExpr), before.types[id]? = some node → after.types[id]? = some node

variable {before after last code : Code}

theorem Extends.refl (code : Code) : code.Extends code :=
  ⟨fun _ _ found => found, fun _ _ found => found⟩

theorem Extends.trans (left : before.Extends after) (right : after.Extends last) : before.Extends last :=
  ⟨fun id node found => right.exprs id node (left.exprs id node found),
    fun id node found => right.types id node (left.types id node found)⟩

/-- A node that is there stays there. -/
theorem Has.extends {refs : List NodeRef} (has : before.Has refs) (extended : before.Extends after) :
    after.Has refs := by
  intro ref member
  have inside := has ref member
  cases ref with
  | expr id => exact (Array.getElem?_eq_some_iff.mp (extended.exprs id _ (Array.getElem?_eq_getElem inside))).1
  | type id => exact (Array.getElem?_eq_some_iff.mp (extended.types id _ (Array.getElem?_eq_getElem inside))).1

/-- A node whose parts are there can be added as an expression. -/
theorem ChildrenFirst.push_expr (ordered : code.ChildrenFirst) {node : Expr} (there : code.Has node.refs) :
    (⟨code.exprs.push node, code.types⟩ : Code).ChildrenFirst ∧
      code.Extends ⟨code.exprs.push node, code.types⟩ := by
  refine ⟨⟨fun id inside child member => ?_, fun id inside type member => ?_, ordered.types⟩,
    ⟨fun id other found => ?_, fun _ _ found => found⟩⟩
  · -- The new node comes last, so that its parts come before it.
    simp only [Array.getElem_push] at member
    split at member
    · exact ordered.exprs id _ child member
    · have last : id = code.exprs.size := by
        simp only [Array.size_push] at inside
        omega
      rw [last]
      exact there (.expr child) (List.mem_append_left _ (List.mem_map_of_mem member))
  · simp only [Array.getElem_push] at member
    split at member
    · exact ordered.annotations id _ type member
    · exact there (.type type) (List.mem_append_right _ (List.mem_map_of_mem member))
  · have inside := (Array.getElem?_eq_some_iff.mp found).1
    simpa [Array.getElem?_push, Nat.ne_of_lt inside] using found

/-- A node whose parts are there can be added as a type expression. -/
theorem ChildrenFirst.push_type (ordered : code.ChildrenFirst) {node : TypeExpr} (there : code.Has node.refs) :
    (⟨code.exprs, code.types.push node⟩ : Code).ChildrenFirst ∧
      code.Extends ⟨code.exprs, code.types.push node⟩ := by
  refine ⟨⟨ordered.exprs, fun id inside type member => ?_, fun id inside child member => ?_⟩,
    ⟨fun _ _ found => found, fun id other found => ?_⟩⟩
  · -- What was there is as it was, and the parts of the new node are there by assumption.
    rw [Array.size_push]
    exact Nat.lt_succ_of_lt (ordered.annotations id inside type member)
  · simp only [Array.getElem_push] at member
    split at member
    · exact ordered.types id _ child member
    · have last : id = code.types.size := by
        simp only [Array.size_push] at inside
        omega
      rw [last]
      exact there (.type child) (List.mem_map_of_mem member)
  · have inside := (Array.getElem?_eq_some_iff.mp found).1
    simpa [Array.getElem?_push, Nat.ne_of_lt inside] using found

end Code

namespace Build

/--
A step that keeps code ordered: where the nodes that it uses are there, it changes no node, and those that it gives
are there in the end.
-/
def Orderly {α : Type} (uses : List NodeRef) (gives : α → List NodeRef) (step : Build α) : Prop :=
  ∀ draft : Draft, draft.code.ChildrenFirst → draft.code.Has uses →
    (step draft).2.code.ChildrenFirst ∧ draft.code.Extends (step draft).2.code ∧
      (step draft).2.code.Has (gives (step draft).1)

/-- A step that keeps code ordered and gives an expression. -/
abbrev GivesExpr (uses : List NodeRef) (step : Build ExprId) : Prop :=
  Orderly uses (fun id => [.expr id]) step

/-- A step that keeps code ordered and gives a type expression. -/
abbrev GivesType (uses : List NodeRef) (step : Build TypeExprId) : Prop :=
  Orderly uses (fun id => [.type id]) step

namespace Orderly

variable {α β : Type} {uses : List NodeRef} {gives : α → List NodeRef} {last : β → List NodeRef}

/-- Steps one after the other, where the second may use what the first gives. -/
theorem bind {step : Build α} {next : α → Build β} (first : Orderly uses gives step)
    (others : ∀ result, Orderly (gives result ++ uses) last (next result)) : Orderly uses last (step >>= next) := by
  intro draft ordered has
  obtain ⟨kept, extended, given⟩ := first draft ordered has
  have both : (step draft).2.code.Has (gives (step draft).1 ++ uses) := fun ref member =>
    (List.mem_append.mp member).elim (given ref) (has.extends extended ref)
  obtain ⟨stays, further, results⟩ := others (step draft).1 (step draft).2 kept both
  exact ⟨stays, extended.trans further, results⟩

/-- Giving nodes that are used. -/
theorem pure {result : α} (among : gives result ⊆ uses) : Orderly uses gives (Pure.pure result) :=
  fun draft ordered has => ⟨ordered, .refl draft.code, fun ref member => has ref (among member)⟩

/-- Interning a text adds no node. -/
theorem name (text : String) : Orderly uses (fun _ => []) (Build.name text) :=
  fun draft ordered _ => ⟨ordered, .refl draft.code, nofun⟩

/-- An expression is added over nodes that are used. -/
theorem expr {node : Expr} (among : node.refs ⊆ uses) : GivesExpr uses (Build.expr node) := by
  intro draft ordered has
  obtain ⟨kept, extended⟩ := ordered.push_expr fun ref member => has ref (among member)
  refine ⟨kept, extended, fun ref member => ?_⟩
  obtain rfl := List.mem_singleton.mp member
  show draft.code.exprs.size < (draft.code.exprs.push node).size
  rw [Array.size_push]
  exact Nat.lt_succ_self _

/-- A type expression is added over nodes that are used. -/
theorem type {node : TypeExpr} (among : node.refs ⊆ uses) : GivesType uses (Build.type node) := by
  intro draft ordered has
  obtain ⟨kept, extended⟩ := ordered.push_type fun ref member => has ref (among member)
  refine ⟨kept, extended, fun ref member => ?_⟩
  obtain rfl := List.mem_singleton.mp member
  show draft.code.types.size < (draft.code.types.push node).size
  rw [Array.size_push]
  exact Nat.lt_succ_self _

/-- What may be used when less is used. -/
theorem mono {more : List NodeRef} {step : Build α} (orderly : Orderly uses gives step) (among : uses ⊆ more) :
    Orderly more gives step :=
  fun draft ordered has => orderly draft ordered fun ref member => has ref (among member)

/-! The steps that consist of several. -/

section

variable {id left right : ExprId} {input output : TypeExprId}

/-- An expression with a name in it is added over nodes that are used. -/
theorem named {node : Name → Expr} (text : String) (among : ∀ name, (node name).refs ⊆ uses) :
    GivesExpr uses (do let name ← Build.name text; Build.expr (node name)) :=
  (name text).bind fun result => expr (among result)

/-- A type expression with a name in it is added over nodes that are used. -/
theorem namedType {node : Name → TypeExpr} (text : String) (among : ∀ name, (node name).refs ⊆ uses) :
    GivesType uses (do let name ← Build.name text; Build.type (node name)) :=
  (name text).bind fun result => type (among result)

theorem lambda (text : String) (body : .expr id ∈ uses) : GivesExpr uses (Build.lambda text id) :=
  named text fun _ => by simpa [Expr.refs, Expr.children, Expr.types] using body

theorem lambdas (texts : List String) (body : .expr id ∈ uses) : GivesExpr uses (Build.lambdas texts id) := by
  induction texts with
  | nil => exact .pure (by simpa using body)
  | cons text rest ih => exact ih.bind fun inner => lambda text List.mem_cons_self

theorem apply (func : .expr left ∈ uses) (arg : .expr right ∈ uses) : GivesExpr uses (Build.apply left right) :=
  expr (by simp [Expr.refs, Expr.children, Expr.types, func, arg])

theorem call (args : List ExprId) (func : .expr id ∈ uses) (there : args.map .expr ⊆ uses) :
    GivesExpr uses (Build.call id args) := by
  induction args generalizing id uses with
  | nil => exact .pure (by simpa using func)
  | cons arg rest ih =>
    obtain ⟨first, others⟩ := List.cons_subset.mp there
    exact (apply func first).bind fun applied =>
      ih List.mem_cons_self fun _ member => List.mem_append_right _ (others member)

theorem callNamed (text : String) (args : List ExprId) (there : args.map .expr ⊆ uses) :
    GivesExpr uses (Build.callNamed text args) :=
  (named text fun _ => List.nil_subset _).bind fun _ =>
    call args List.mem_cons_self fun _ member => List.mem_append_right _ (there member)

theorem ascribe (value : .expr id ∈ uses) (typed : .type input ∈ uses) :
    GivesExpr uses (Build.ascribe id input) :=
  expr (by simp [Expr.refs, Expr.children, Expr.types, value, typed])

theorem letIn (text : String) (value : .expr left ∈ uses) (body : .expr right ∈ uses) :
    GivesExpr uses (Build.letIn text left right) :=
  named text fun _ => by simp [Expr.refs, Expr.children, Expr.types, value, body]

theorem letTyped (text : String) (typed : .type input ∈ uses) (value : .expr left ∈ uses)
    (body : .expr right ∈ uses) : GivesExpr uses (Build.letTyped text input left right) :=
  (ascribe value typed).bind fun _ => letIn text List.mem_cons_self (List.mem_append_right _ body)

theorem field (text : String) (receiver : .expr id ∈ uses) : GivesExpr uses (Build.field id text) :=
  named text fun _ => by simpa [Expr.refs, Expr.children, Expr.types] using receiver

theorem fieldPath (texts : List String) (receiver : .expr id ∈ uses) :
    GivesExpr uses (Build.fieldPath id texts) := by
  induction texts generalizing id uses with
  | nil => exact .pure (by simpa using receiver)
  | cons text rest ih => exact (field text receiver).bind fun inner => ih List.mem_cons_self

/-- The fields of a record literal refer to what their entries do. -/
theorem fields (entries : List (String × Option TypeExprId × ExprId))
    (there : (entries.flatMap fun entry => Field.refs ⟨0, entry.2.1, entry.2.2⟩) ⊆ uses) :
    Orderly uses (fun fields => (Expr.record fields).refs) (Build.fields entries) := by
  induction entries with
  | nil => exact .pure (List.nil_subset _)
  | cons entry rest ih =>
    obtain ⟨text, annotation, value⟩ := entry
    rw [List.flatMap_cons] at there
    obtain ⟨first, others⟩ := List.append_subset.mp there
    refine (name text).bind fun given => ((ih others).mono (List.subset_append_right _ _)).bind fun made => .pure ?_
    -- A new field refers to nodes that are used, and so do those that were made before it.
    intro ref member
    obtain ⟨field, among, refers⟩ := Expr.mem_refs_record.mp member
    rcases List.mem_cons.mp among with rfl | among
    · exact List.mem_append_right _ (first refers)
    · exact List.mem_append_left _ (Expr.mem_refs_record.mpr ⟨field, among, refers⟩)

theorem recordTyped (entries : List (String × Option TypeExprId × ExprId))
    (there : (entries.flatMap fun entry => Field.refs ⟨0, entry.2.1, entry.2.2⟩) ⊆ uses) :
    GivesExpr uses (Build.recordTyped entries) :=
  (fields entries there).bind fun _ => expr (List.subset_append_left _ _)

theorem record (entries : List (String × ExprId)) (there : (entries.map fun entry => .expr entry.2) ⊆ uses) :
    GivesExpr uses (Build.record entries) := by
  refine recordTyped _ fun ref member => ?_
  obtain ⟨entry, among, refers⟩ := List.mem_flatMap.mp member
  obtain ⟨plain, listed, rfl⟩ := List.mem_map.mp among
  obtain rfl := List.mem_singleton.mp refers
  exact there (List.mem_map.mpr ⟨plain, listed, rfl⟩)

/-- Named types refer to the types that they are given. -/
theorem typeFields (entries : List (String × TypeExprId)) (there : (entries.map fun entry => .type entry.2) ⊆ uses) :
    Orderly uses (fun fields => fields.map fun field => .type field.2) (Build.typeFields entries) := by
  induction entries with
  | nil => exact .pure (List.nil_subset _)
  | cons entry rest ih =>
    obtain ⟨first, others⟩ := List.cons_subset.mp there
    refine (name entry.1).bind fun given => (ih others).bind fun made => .pure ?_
    exact List.cons_subset.mpr ⟨List.mem_append_right _ first, List.subset_append_left _ _⟩

theorem aliasGroup (defs : List (String × TypeExprId)) (there : (defs.map fun entry => .type entry.2) ⊆ uses)
    (body : .expr id ∈ uses) : GivesExpr uses (Build.aliasGroup defs id) := by
  refine (typeFields defs there).bind fun made => expr fun ref member => ?_
  rcases List.mem_append.mp member with part | annotation
  · obtain rfl := List.mem_singleton.mp part
    exact List.mem_append_right _ body
  · exact List.mem_append_left _ (by simpa [Expr.types] using annotation)

theorem tyRecord (entries : List (String × TypeExprId)) (there : (entries.map fun entry => .type entry.2) ⊆ uses) :
    GivesType uses (Build.tyRecord entries) := by
  refine (typeFields entries there).bind fun made => type ?_
  simp only [TypeExpr.refs, TypeExpr.children, List.map_map]
  exact List.subset_append_left _ _

theorem tyFn (param : .type input ∈ uses) (result : .type output ∈ uses) :
    GivesType uses (Build.tyFn input output) :=
  type (by simp [TypeExpr.refs, TypeExpr.children, param, result])

theorem tyFns (params : List TypeExprId) (there : params.map .type ⊆ uses) (result : .type output ∈ uses) :
    GivesType uses (Build.tyFns params output) := by
  induction params with
  | nil => exact .pure (by simpa using result)
  | cons param rest ih =>
    obtain ⟨first, others⟩ := List.cons_subset.mp there
    exact (ih others).bind fun inner => tyFn (List.mem_append_right _ first) List.mem_cons_self

theorem tyForAll (texts : List String) (body : .type input ∈ uses) : GivesType uses (Build.tyForAll texts input) := by
  induction texts with
  | nil => exact .pure (by simpa using body)
  | cons text rest ih => exact ih.bind fun inner => namedType text fun _ => by simp [TypeExpr.refs, TypeExpr.children]

end

end Orderly

end Build

/-! Calls. -/

/-- What can be asked of a builder, with the nodes that it is given. -/
inductive BuildCall
  | name (text : String)
  /-- Any expression, as it is. -/
  | expr (node : Expr)
  | int (value : Int64)
  | float (value : Float)
  | str (text : String)
  | bool (value : Bool)
  | ident (text : String)
  | lambda (param : String) (body : ExprId)
  | lambdas (params : List String) (body : ExprId)
  | apply (func arg : ExprId)
  | call (func : ExprId) (args : List ExprId)
  | callNamed (func : String) (args : List ExprId)
  | letIn (text : String) (value body : ExprId)
  | letTyped (text : String) (type : TypeExprId) (value body : ExprId)
  | cond (test whenTrue whenFalse : ExprId)
  | binary (op : BinaryOp) (left right : ExprId)
  | unary (op : UnaryOp) (operand : ExprId)
  | ascribe (value : ExprId) (type : TypeExprId)
  | list (items : List ExprId)
  | record (entries : List (String × ExprId))
  | recordTyped (entries : List (String × Option TypeExprId × ExprId))
  | field (receiver : ExprId) (text : String)
  | fieldPath (receiver : ExprId) (texts : List String)
  | builtin (op : Builtin) (args : List ExprId)
  /-- A primitive by its reserved name, which may be none. -/
  | builtinNamed (text : String) (args : List ExprId)
  | aliasIn (text : String) (type : TypeExprId) (body : ExprId)
  | aliasGroup (defs : List (String × TypeExprId)) (body : ExprId)
  /-- Any type expression, as it is. -/
  | type (node : TypeExpr)
  | tyRecord (fields : List (String × TypeExprId))
  | tyFn (param result : TypeExprId)
  | tyFns (params : List TypeExprId) (result : TypeExprId)
  | tyForAll (vars : List String) (body : TypeExprId)
  | tyVar (text : String)
  | tyAlias (text : String)

namespace BuildCall

/-- The nodes that a call is given. -/
def uses : BuildCall → List NodeRef
  | name _ | int _ | float _ | str _ | bool _ | ident _ | tyVar _ | tyAlias _ => []
  | expr node => node.refs
  | lambda _ body | lambdas _ body => [.expr body]
  | apply func arg => [.expr func, .expr arg]
  | call func args => .expr func :: args.map .expr
  | callNamed _ args | builtin _ args | builtinNamed _ args | list args => args.map .expr
  | letIn _ value body => [.expr value, .expr body]
  | letTyped _ annotation value body => [.type annotation, .expr value, .expr body]
  | cond test whenTrue whenFalse => [.expr test, .expr whenTrue, .expr whenFalse]
  | binary _ left right => [.expr left, .expr right]
  | unary _ operand => [.expr operand]
  | ascribe value annotation => [.expr value, .type annotation]
  | record entries => entries.map fun entry => .expr entry.2
  | recordTyped entries => entries.flatMap fun entry => Field.refs ⟨0, entry.2.1, entry.2.2⟩
  | field receiver _ | fieldPath receiver _ => [.expr receiver]
  | aliasIn _ annotation body => [.type annotation, .expr body]
  | aliasGroup defs body => .expr body :: defs.map fun entry => .type entry.2
  | type node => node.refs
  | tyRecord fields => fields.map fun entry => .type entry.2
  | tyFn param result => [.type param, .type result]
  | tyFns params result => .type result :: params.map .type
  | tyForAll _ body => [.type body]

/-- The expression that a step gives. -/
def exprOf (step : Build ExprId) : Build (List NodeRef) := do
  let id ← step
  pure [.expr id]

/-- The type expression that a step gives. -/
def typeOf (step : Build TypeExprId) : Build (List NodeRef) := do
  let id ← step
  pure [.type id]

/-- Carries out a call, which gives a node, or none. -/
def run : BuildCall → Build (List NodeRef)
  | name text => do
    let _ ← Build.name text
    pure []
  | expr node => exprOf (Build.expr node)
  | int value => exprOf (Build.int value)
  | float value => exprOf (Build.float value)
  | str text => exprOf (Build.str text)
  | bool value => exprOf (Build.bool value)
  | ident text => exprOf (Build.ident text)
  | lambda param body => exprOf (Build.lambda param body)
  | lambdas params body => exprOf (Build.lambdas params body)
  | apply func arg => exprOf (Build.apply func arg)
  | call func args => exprOf (Build.call func args)
  | callNamed func args => exprOf (Build.callNamed func args)
  | letIn text value body => exprOf (Build.letIn text value body)
  | letTyped text annotation value body => exprOf (Build.letTyped text annotation value body)
  | cond test whenTrue whenFalse => exprOf (Build.cond test whenTrue whenFalse)
  | binary op left right => exprOf (Build.binary op left right)
  | unary op operand => exprOf (Build.unary op operand)
  | ascribe value annotation => exprOf (Build.ascribe value annotation)
  | list items => exprOf (Build.list items)
  | record entries => exprOf (Build.record entries)
  | recordTyped entries => exprOf (Build.recordTyped entries)
  | field receiver text => exprOf (Build.field receiver text)
  | fieldPath receiver texts => exprOf (Build.fieldPath receiver texts)
  | builtin op args => exprOf (Build.builtin op args)
  | builtinNamed text args => do
    let made ← Build.builtinNamed? text args
    pure (made.toList.map .expr)
  | aliasIn text annotation body => exprOf (Build.aliasIn text annotation body)
  | aliasGroup defs body => exprOf (Build.aliasGroup defs body)
  | type node => typeOf (Build.type node)
  | tyRecord fields => typeOf (Build.tyRecord fields)
  | tyFn param result => typeOf (Build.tyFn param result)
  | tyFns params result => typeOf (Build.tyFns params result)
  | tyForAll vars body => typeOf (Build.tyForAll vars body)
  | tyVar text => typeOf (Build.tyVar text)
  | tyAlias text => typeOf (Build.tyAlias text)

variable {uses : List NodeRef}

/-- The expression that an orderly step gives. -/
theorem exprOf_orderly {step : Build ExprId} (gives : Build.GivesExpr uses step) :
    Build.Orderly uses (fun refs => refs) (exprOf step) :=
  gives.bind fun _ => .pure (List.subset_append_left _ _)

/-- The type expression that an orderly step gives. -/
theorem typeOf_orderly {step : Build TypeExprId} (gives : Build.GivesType uses step) :
    Build.Orderly uses (fun refs => refs) (typeOf step) :=
  gives.bind fun _ => .pure (List.subset_append_left _ _)

/-- Each call keeps code ordered when the nodes that it is given are there. -/
theorem run_orderly (call : BuildCall) : Build.Orderly call.uses (fun refs => refs) call.run := by
  cases call with
  | name text => exact (Build.Orderly.name text).bind fun _ => .pure (List.nil_subset _)
  | expr node => exact exprOf_orderly (.expr (List.Subset.refl _))
  -- Literals and variables use nothing.
  | int | float | bool => exact exprOf_orderly (.expr (List.nil_subset _))
  | str text | ident text => exact exprOf_orderly (.named text fun _ => List.nil_subset _)
  | lambda param body => exact exprOf_orderly (.lambda param List.mem_cons_self)
  | lambdas params body => exact exprOf_orderly (.lambdas params List.mem_cons_self)
  | apply func arg => exact exprOf_orderly (.apply (by simp [BuildCall.uses]) (by simp [BuildCall.uses]))
  | call func args => exact exprOf_orderly (.call args List.mem_cons_self (List.subset_cons_self _ _))
  | callNamed func args => exact exprOf_orderly (.callNamed func args (List.Subset.refl _))
  | letIn text value body => exact exprOf_orderly (.letIn text (by simp [BuildCall.uses]) (by simp [BuildCall.uses]))
  | letTyped text annotation value body =>
    exact exprOf_orderly
      (.letTyped text (by simp [BuildCall.uses]) (by simp [BuildCall.uses]) (by simp [BuildCall.uses]))
  -- What one node is made of is what the call is given.
  | cond | binary | unary => exact exprOf_orderly (.expr (List.Subset.refl _))
  | ascribe value annotation => exact exprOf_orderly (.expr (List.Subset.refl _))
  | list items => exact exprOf_orderly (.expr (by simp [Expr.refs, Expr.children, Expr.types, BuildCall.uses]))
  | record entries => exact exprOf_orderly (.record entries (List.Subset.refl _))
  | recordTyped entries => exact exprOf_orderly (.recordTyped entries (List.Subset.refl _))
  | field receiver text => exact exprOf_orderly (.field text List.mem_cons_self)
  | fieldPath receiver texts => exact exprOf_orderly (.fieldPath texts List.mem_cons_self)
  | builtin op args => exact exprOf_orderly (.expr (by simp [Expr.refs, Expr.children, Expr.types, BuildCall.uses]))
  | builtinNamed text args =>
    -- An unknown name adds nothing.
    have named : Build.Orderly (args.map .expr) (fun made => made.toList.map .expr) (Build.builtinNamed? text args) := by
      rw [Build.builtinNamed?]
      split
      · exact (Build.Orderly.expr (by simp [Expr.refs, Expr.children, Expr.types])).bind fun _ =>
          .pure (List.subset_append_left _ _)
      · exact .pure (List.nil_subset _)
    exact named.bind fun made => .pure (List.subset_append_left _ _)
  | aliasIn text annotation body =>
    exact exprOf_orderly (.aliasGroup _ (by simp [BuildCall.uses]) (by simp [BuildCall.uses]))
  | aliasGroup defs body => exact exprOf_orderly (.aliasGroup defs (List.subset_cons_self _ _) List.mem_cons_self)
  | type node => exact typeOf_orderly (.type (List.Subset.refl _))
  | tyRecord fields => exact typeOf_orderly (.tyRecord fields (List.Subset.refl _))
  | tyFn param result => exact typeOf_orderly (.type (List.Subset.refl _))
  | tyFns params result => exact typeOf_orderly (.tyFns params (List.subset_cons_self _ _) List.mem_cons_self)
  | tyForAll vars body => exact typeOf_orderly (.tyForAll vars List.mem_cons_self)
  | tyVar text | tyAlias text => exact typeOf_orderly (.namedType text fun _ => List.nil_subset _)

end BuildCall

/-- Code under construction, and the nodes that the calls so far have given. -/
structure BuildSession where
  draft : Draft := {}
  known : List NodeRef := []

namespace BuildSession

/-- Code without nodes, with a table of names that others may use too. -/
def start (names : NameTable) : BuildSession where
  draft := { names }

/-- The code that has been built. -/
abbrev code (session : BuildSession) : Code :=
  session.draft.code

/-- Carries out a call; what it gives is known from then on. -/
def perform (session : BuildSession) (call : BuildCall) : BuildSession :=
  let (given, draft) := call.run session.draft
  ⟨draft, given ++ session.known⟩

/-- What can happen to code under construction. -/
inductive Next : BuildSession → BuildSession → Prop
  /-- A call that is given what earlier calls gave. -/
  | call (session : BuildSession) (call : BuildCall) (known : call.uses ⊆ session.known) :
    Next session (session.perform call)
  /-- Others use the table of names. -/
  | names (session : BuildSession) (names : NameTable) :
    Next session { session with draft := { session.draft with names } }

/-- Calls one after the other. -/
abbrev Reaches : BuildSession → BuildSession → Prop :=
  Relation.ReflTransGen Next

/-- What holds of code under construction: nodes come after their parts, and those that are known are there. -/
structure Orderly (session : BuildSession) : Prop where
  ordered : session.code.ChildrenFirst
  known : session.code.Has session.known

variable {session later : BuildSession}

/-- A call keeps nodes after their parts and changes none of them. -/
theorem Next.orderly (next : Next session later) (orderly : session.Orderly) :
    later.Orderly ∧ session.code.Extends later.code := by
  cases next with
  | call call among =>
    obtain ⟨kept, extended, given⟩ :=
      call.run_orderly session.draft orderly.ordered fun ref member => orderly.known ref (among member)
    refine ⟨⟨kept, fun ref member => ?_⟩, extended⟩
    rcases List.mem_append.mp member with new | old
    · exact given ref new
    · exact orderly.known.extends extended ref old
  | names => exact ⟨⟨orderly.ordered, orderly.known⟩, .refl _⟩

/-- However calls follow one another, nodes come after their parts and stay as they are. -/
theorem Orderly.reaches (orderly : session.Orderly) (reached : session.Reaches later) :
    later.Orderly ∧ session.code.Extends later.code := by
  induction reached with
  | refl => exact ⟨orderly, .refl _⟩
  | tail _ next ih =>
    obtain ⟨kept, extended⟩ := next.orderly ih.1
    exact ⟨kept, ih.2.trans extended⟩

/-- Code without nodes is in order. -/
theorem start_orderly (names : NameTable) : (start names).Orderly :=
  ⟨⟨nofun, nofun, nofun⟩, nofun⟩

end BuildSession

end LazyConfig
