import LazyConfig.Machine.Suspend
import LazyConfig.Proofs.Scoping.Agreement
import LazyConfig.Proofs.Store.Extension
import LazyConfig.Value.Text

/-!
The operations on stores that agree. They give out the same places and show the same texts, for no text
shows an environment.
-/

namespace LazyConfig

/-- Results of an operation on two stores: the same, in stores that agree. -/
structure SameIn (code : Code) {α : Type} (first second : α × Store) : Prop where
  result : first.1 = second.1
  stores : StoresAgree code first.2 second.2

namespace StoresAgree

variable {code : Code} {left right : Store} {cell image : Cell} {value other : Value}

theorem refl (code : Code) (store : Store) : StoresAgree code store store :=
  ⟨rfl, fun _ => .refl _, rfl, rfl⟩

/-- What agrees with a computation with a value has a value that agrees. -/
theorem peek? (stores : StoresAgree code left right) (id : ThunkId) :
    Option.Rel (ValuesAgree code) (left.peek? id) (right.peek? id) := by
  -- The two cells are in the same state, so there is a value in both or in neither.
  have cells := stores.cells id
  unfold Store.peek?
  generalize left.cell id = cell at cells
  generalize right.cell id = image at cells
  cases cells with
  | forced values => exact .some values
  | _ => exact .none

/-! Operations. -/

theorem alloc (stores : StoresAgree code left right) (cells : CellsAgree code cell image) :
    SameIn code (left.alloc cell) (right.alloc image) := by
  refine ⟨stores.size, ⟨?_, fun id => ?_, stores.closures, stores.calls⟩⟩
  · rw [Store.alloc_size, Store.alloc_size, stores.size]
  · -- The new computation has the same place in both stores.
    rw [Store.cell_alloc, Store.cell_alloc, stores.size]
    split
    · exact cells
    · exact stores.cells id

theorem set (stores : StoresAgree code left right) (id : ThunkId) (cells : CellsAgree code cell image) :
    StoresAgree code (left.set id cell) (right.set id image) := by
  -- Only the cell that is set changes, and there the new cells agree.
  refine ⟨by rw [Store.set_size, Store.set_size, stores.size], fun other => ?_, stores.closures,
    stores.calls⟩
  by_cases inside : other = id ∧ id < left.cells.size
  · obtain ⟨rfl, inside⟩ := inside
    rw [Store.cell_set_self inside, Store.cell_set_self (stores.size ▸ inside)]
    exact cells
  · -- A place outside the store cannot be set.
    have stays (store : Store) (size : left.cells.size = store.cells.size) (cell : Cell) :
        (store.set id cell).cell other = store.cell other := by
      by_cases same : other = id
      · have outside : store.cells.size ≤ id := size ▸ Nat.le_of_not_lt fun less => inside ⟨same, less⟩
        subst same
        rw [Store.cell_of_size_le outside, Store.cell_of_size_le]
        rw [Store.set_size]
        exact outside
      · exact Store.cell_set_of_ne same cell
    rw [stays left rfl, stays right stores.size]
    exact stores.cells other

theorem ready (stores : StoresAgree code left right) (values : ValuesAgree code value other) :
    SameIn code (left.ready value) (right.ready other) :=
  stores.alloc (.forced values)

theorem suspend (stores : StoresAgree code left right) {work image : Suspension}
    (works : SuspensionsAgree code work image) : SameIn code (left.suspend work) (right.suspend image) :=
  stores.alloc (.suspended works)

/-- Functions that are made in stores that agree are told apart by the same numbers. -/
theorem closure (stores : StoresAgree code left right) {param : Name} {body : ExprId} {env bound : Env}
    (agree : EnvsAgreeUnder code param body env bound) :
    ValuesAgree code (left.closure param body env).1 (right.closure param body bound).1 ∧
      StoresAgree code (left.closure param body env).2 (right.closure param body bound).2 := by
  refine ⟨?_, ⟨stores.size, stores.cells, congrArg (· + 1) stores.closures, stores.calls⟩⟩
  simp only [Store.closure, stores.closures]
  exact .closure agree

theorem record (stores : StoresAgree code left right) (call : HostCall) :
    StoresAgree code (left.record call) (right.record call) :=
  ⟨stores.size, stores.cells, stores.closures, congrArg (Array.push · call) stores.calls⟩

theorem readyAll (stores : StoresAgree code left right) (values : List Value) :
    SameIn code (left.readyAll values) (right.readyAll values) := by
  induction values generalizing left right with
  | nil => exact ⟨rfl, stores⟩
  | cons value rest ih =>
    obtain ⟨first, stores⟩ := stores.ready (.same value)
    obtain ⟨others, stores⟩ := ih stores
    exact ⟨congrArg₂ List.cons first others, stores⟩

theorem fieldsOf (stores : StoresAgree code left right) (record : Record) :
    SameIn code (left.fieldsOf record) (right.fieldsOf record) := by
  obtain ⟨names, stores⟩ := stores.readyAll (record.names.map .str)
  exact ⟨congrArg LazyList.ofThunks names, stores⟩

theorem mapEntries (stores : StoresAgree code left right) (func : ThunkId) (entries : List Entry) :
    SameIn code (left.mapEntries func entries) (right.mapEntries func entries) := by
  -- Each field is made into an application that waits, and the others follow in what that leaves.
  induction entries generalizing left right with
  | nil => exact ⟨rfl, stores⟩
  | cons entry rest ih =>
    obtain ⟨name, id⟩ := entry
    obtain ⟨key, stores⟩ := stores.ready (.same (.str name))
    -- The application refers to the place of the name, which is the same in both stores.
    have work : SuspensionsAgree code (.apply func [(left.ready (.str name)).1, id])
        (.apply func [(right.ready (.str name)).1, id]) := key ▸ .same _
    obtain ⟨mapped, stores⟩ := stores.suspend work
    obtain ⟨others, stores⟩ := ih stores
    exact ⟨congrArg₂ (fun id entries => (name, id) :: entries) mapped others, stores⟩

theorem mapFields (stores : StoresAgree code left right) (func : ThunkId) (record : Record) :
    SameIn code (left.mapFields func record) (right.mapFields func record) := by
  obtain ⟨entries, stores⟩ := stores.mapEntries func record.entries
  exact ⟨congrArg Record.ofEntries entries, stores⟩

/-! Checks. -/

variable (graph : TypeGraph)

theorem wrap (stores : StoresAgree code left right) (inner : ThunkId) (type : TypeId) (path : Path) :
    SameIn code (left.wrap graph inner type path) (right.wrap graph inner type path) := by
  unfold Store.wrap
  split
  · exact ⟨rfl, stores⟩
  · exact stores.suspend (.same _)

theorem wrapAll (stores : StoresAgree code left right) (type : TypeId) (path : Path)
    (entries : List Entry) :
    SameIn code (left.wrapAll graph type path entries) (right.wrapAll graph type path entries) := by
  induction entries generalizing left right with
  | nil => exact ⟨rfl, stores⟩
  | cons entry rest ih =>
    obtain ⟨checked, stores⟩ := stores.wrap graph entry.2 type (path.field entry.1)
    obtain ⟨others, stores⟩ := ih stores
    exact ⟨congrArg₂ (fun id entries => (entry.1, id) :: entries) checked others, stores⟩

theorem wrapDeclared (stores : StoresAgree code left right) (names : NameTable) (record : Record)
    (path : Path) (fields : List (Name × TypeId)) :
    SameIn code (left.wrapDeclared names graph record path fields)
      (right.wrapDeclared names graph record path fields) := by
  induction fields generalizing left right with
  | nil => exact ⟨rfl, stores⟩
  | cons field rest ih =>
    -- The record is the same, so a declared field is missing in both stores or in neither.
    simp only [Store.wrapDeclared]
    cases record.get? (names.lookup field.1) with
    | none => exact ⟨rfl, stores⟩
    | some inner =>
      obtain ⟨checked, stores⟩ := stores.wrap graph inner field.2 (path.field (names.lookup field.1))
      obtain ⟨entries, stores⟩ := ih stores
      -- The later fields fail in both stores or in neither.
      dsimp only
      generalize (left.wrap graph inner field.2 _).2.wrapDeclared names graph record path rest = one
        at entries stores
      generalize (right.wrap graph inner field.2 _).2.wrapDeclared names graph record path rest = two
        at entries stores
      obtain ⟨result, after⟩ := one
      obtain ⟨_, later⟩ := two
      obtain rfl := entries
      cases result with
      | error fault => exact ⟨rfl, stores⟩
      | ok entries => exact ⟨by rw [checked], stores⟩

theorem checkRecord (stores : StoresAgree code left right) (names : NameTable) (record : Record)
    (fields : List (Name × TypeId)) (path : Path) :
    SameIn code (left.checkRecord names graph record fields path)
      (right.checkRecord names graph record fields path) := by
  -- The declared fields are put off alike; what is undeclared depends on the names of the record
  -- alone.
  obtain ⟨entries, stores⟩ := stores.wrapDeclared graph names record path fields
  simp only [Store.checkRecord]
  generalize left.wrapDeclared names graph record path fields = one at entries stores
  generalize right.wrapDeclared names graph record path fields = two at entries stores
  obtain ⟨result, after⟩ := one
  obtain ⟨_, later⟩ := two
  obtain rfl := entries
  cases result with
  | error fault => exact ⟨rfl, stores⟩
  | ok entries =>
    dsimp only
    split <;> exact ⟨rfl, stores⟩

/-- A check looks at no environment, since it accepts functions without looking at them. -/
theorem check (stores : StoresAgree code left right) (names : NameTable)
    (values : ValuesAgree code value other) (type : TypeId) (path : Path) :
    ResultsAgree code (left.check names graph value type path).1
        (right.check names graph other type path).1 ∧
      StoresAgree code (left.check names graph value type path).2
        (right.check names graph other type path).2 := by
  have same {result image : Except Fault Value × Store} (both : SameIn code result image) :
      ResultsAgree code result.1 image.1 ∧ StoresAgree code result.2 image.2 :=
    ⟨both.result ▸ .refl _, both.stores⟩
  cases values with
  | same value =>
    simp only [Store.check]
    split
    case h_5 elem items _ =>
      -- The elements of a list are checked later.
      obtain ⟨cells, stores⟩ := stores.suspend (.same (.checkList items elem path 0))
      exact same ⟨congrArg (fun id => Except.ok (Value.list (.concat .empty id))) cells, stores⟩
    case h_6 fields record _ => exact same (stores.checkRecord graph names record fields path)
    case h_7 elem record _ =>
      obtain ⟨entries, stores⟩ := stores.wrapAll graph elem path record.entries
      exact same ⟨congrArg (fun entries => Except.ok (Value.record (.ofEntries entries))) entries, stores⟩
    all_goals first | exact same ⟨rfl, stores⟩ | (split <;> exact same ⟨rfl, stores⟩)
  | closure agree =>
    -- A function conforms to the types that accept any function or any value, and to no other.
    simp only [Store.check]
    generalize graph.node (graph.shape type) = node
    cases node with
    | dyn | var => exact ⟨.ok (.closure agree), stores⟩
    | fn => exact ⟨.ok (.closure agree), stores⟩
    | _ => exact ⟨.error _, stores⟩

theorem checkCell (stores : StoresAgree code left right) (head : ThunkId) (rest : LazyList)
    (elem : TypeId) (path : Path) (index : Nat) :
    SameIn code (left.checkCell graph head rest elem path index)
      (right.checkCell graph head rest elem path index) := by
  obtain ⟨checked, stores⟩ := stores.wrap graph head elem (path.index index)
  obtain ⟨tail, stores⟩ := stores.suspend (.same (.checkList rest elem path (index + 1)))
  exact ⟨congrArg₂ (fun head tail => Value.list (.concat (.ofThunks [head]) tail)) checked tail, stores⟩

/-! Putting off expressions. -/

variable (context : Context) {env bound : Env}

theorem suspendExpr (stores : StoresAgree context.code left right) {id : ExprId}
    (agree : EnvsAgree context.code id env bound) :
    SameIn context.code (context.suspend left id env) (context.suspend right id bound) := by
  -- What is made depends on the kind of expression, which is the same.
  unfold Context.suspend
  cases node : context.code.expr id with
  | ident name =>
    -- A variable shares what it is bound to, which is the same in both environments.
    dsimp only
    rw [← agree.lookup node]
    split
    · exact ⟨rfl, stores⟩
    · exact stores.suspend (.expr agree)
  | lambda param body =>
    have inside : EnvsAgreeUnder context.code param body env bound :=
      agree.under (by simp [node, Expr.children]) (by rw [node]; rfl)
    obtain ⟨values, stores⟩ := stores.closure inside
    exact stores.ready values
  | int | float | bool | str => exact stores.ready (.same _)
  | _ => exact stores.suspend (.expr agree)

theorem suspendAll {ids : List ExprId} (stores : StoresAgree context.code left right)
    (agree : ∀ id ∈ ids, EnvsAgree context.code id env bound) :
    SameIn context.code (context.suspendAll env ids left) (context.suspendAll bound ids right) := by
  induction ids generalizing left right with
  | nil => exact ⟨rfl, stores⟩
  | cons id rest ih =>
    obtain ⟨first, stores⟩ := stores.suspendExpr context (agree id (List.mem_cons_self ..))
    obtain ⟨others, stores⟩ := ih stores fun other member => agree other (List.mem_cons_of_mem _ member)
    exact ⟨congrArg₂ List.cons first others, stores⟩

/-- A recursive binding hides what both environments had under its name. -/
theorem bindRecursive (stores : StoresAgree context.code left right) {name : Name}
    {value body : ExprId} (values : EnvsAgreeUnder context.code name value env bound)
    (bodies : EnvsAgreeUnder context.code name body env bound) :
    EnvsAgree context.code body (Context.bindRecursive left env name value).1
        (Context.bindRecursive right bound name value).1 ∧
      StoresAgree context.code (Context.bindRecursive left env name value).2
        (Context.bindRecursive right bound name value).2 := by
  rw [Context.bindRecursive_eq, Context.bindRecursive_eq, ← stores.size]
  exact ⟨bodies.bind _, (stores.alloc (.suspended (.expr (values.bind _)))).stores⟩

theorem suspendFields {fields : List Field} {record : Record}
    (stores : StoresAgree context.code left right)
    (agree : ∀ field ∈ fields, EnvsAgree context.code field.value env bound) :
    SameIn context.code (context.suspendFields env fields record left)
      (context.suspendFields bound fields record right) := by
  induction fields generalizing left right record with
  | nil => exact ⟨rfl, stores⟩
  | cons field rest ih =>
    have others : ∀ other ∈ rest, EnvsAgree context.code other.value env bound :=
      fun other member => agree other (List.mem_cons_of_mem _ member)
    obtain ⟨value, stores⟩ := stores.suspendExpr context (agree field (List.mem_cons_self ..))
    simp only [Context.suspendFields]
    generalize context.suspend left field.value env = one at value stores
    generalize context.suspend right field.value bound = two at value stores
    obtain ⟨id, after⟩ := one
    obtain ⟨_, later⟩ := two
    obtain rfl := value
    -- Once the value is put off, perhaps with a check, its name must be new.
    have placed {id : ThunkId} {after later : Store} (stores : StoresAgree context.code after later) :
        SameIn context.code
          (if record.contains (context.names.lookup field.name) then
            (.error (.duplicateField (context.names.lookup field.name)), after)
          else context.suspendFields env rest (record.insert (context.names.lookup field.name) id) after)
          (if record.contains (context.names.lookup field.name) then
            (.error (.duplicateField (context.names.lookup field.name)), later)
          else context.suspendFields bound rest (record.insert (context.names.lookup field.name) id)
            later) := by
      split
      · exact ⟨rfl, stores⟩
      · exact ih stores others
    cases field.type with
    | none => exact placed stores
    | some type =>
      dsimp only
      cases context.annotations.get? type with
      | none => exact ⟨rfl, stores⟩
      | some resolved =>
        obtain ⟨checked, stores⟩ := stores.suspend
          (.same (.check id resolved (Path.root.field (context.names.lookup field.name))))
        dsimp only [Option.map_some]
        rw [checked]
        exact placed stores

end StoresAgree

/-! Texts. -/

/-- Pieces of a text that are the same up to the environments of functions. -/
inductive PiecesAgree (code : Code) : Piece → Piece → Prop
  | text (text : String) : PiecesAgree code (.text text) (.text text)
  | value {value other : Value} (values : ValuesAgree code value other) :
    PiecesAgree code (.value value) (.value other)
  | element (element : Visible) : PiecesAgree code (.element element) (.element element)

theorem PiecesAgree.refl {code : Code} (piece : Piece) : PiecesAgree code piece piece := by
  cases piece with
  | text text => exact .text text
  | value value => exact .value (.same value)
  | element element => exact .element element

namespace StoresAgree

variable {code : Code} {left right : Store} {value other : Value}

/-- A right part is evaluated to the same list, for a list has no environment. -/
theorem evaluatedList? (stores : StoresAgree code left right) (id : ThunkId) :
    left.evaluatedList? id = right.evaluatedList? id := by
  -- Whether the right part is evaluated can be seen in its cell, and cells agree.
  have found := stores.peek? id
  unfold Store.evaluatedList?
  generalize left.peek? id = one at found
  generalize right.peek? id = two at found
  cases found with
  | none => rfl
  | some values => cases values <;> rfl

/-- The elements of a list that are there are the same. -/
theorem walk (stores : StoresAgree code left right) (limit : Option Nat)
    (fuel : Nat) (parts : List (Option LazyList)) (seen : Array Visible) :
    left.walk limit fuel parts seen = right.walk limit fuel parts seen := by
  -- A walk looks into the store only for the right part of a join.
  induction fuel generalizing parts seen with
  | zero => rfl
  | succ fuel ih =>
    match parts with
    | [] => rfl
    | none :: rest => rfl
    | some (.elems items start) :: rest => simp only [Store.walk, ih]
    | some (.range next stop) :: rest => simp only [Store.walk, ih]
    | some (.concat front back) :: rest => simp only [Store.walk, ih, stores.evaluatedList?]

theorem elements? (stores : StoresAgree code left right) (fuel : Nat) (limit : Option Nat)
    (list : LazyList) :
    left.elements? fuel limit list = right.elements? fuel limit list :=
  stores.walk limit fuel [some list] #[]

/-- Elements that are there have values that agree. -/
theorem visible? (stores : StoresAgree code left right) (element : Visible) :
    Option.Rel (ValuesAgree code) (left.visible? element) (right.visible? element) := by
  cases element with
  | thunk id => exact stores.peek? id
  | int value => exact .some (.same _)

/-- Pieces that agree are written alike. -/
theorem write (stores : StoresAgree code left right) (fuel : Nat) {pieces images : List Piece}
    (agree : List.Forall₂ (PiecesAgree code) pieces images) (out : String) :
    left.write fuel pieces out = right.write fuel images out := by
  -- Whatever is written in place of a value consists of the same pieces for both.
  have more {rest others : List Piece} (agree : List.Forall₂ (PiecesAgree code) rest others)
      (pieces : List Piece) :
      List.Forall₂ (PiecesAgree code) (pieces ++ rest) (pieces ++ others) :=
    List.rel_append (List.forall₂_same.mpr fun piece _ => .refl piece) agree
  induction fuel generalizing pieces images out with
  | zero => rfl
  | succ fuel ih =>
    cases agree with
    | nil => rfl
    | cons first rest =>
      cases first with
      | text text => exact ih rest _
      | element element =>
        have found := stores.visible? element
        simp only [Store.write]
        generalize left.visible? element = one at found
        generalize right.visible? element = two at found
        cases found with
        | none => exact ih rest _
        | some values => exact ih (.cons (.value values) rest) _
      | @value shown _ values =>
        cases values with
        | closure agree => exact ih rest _
        | same =>
          cases shown with
          | list items =>
            simp only [Store.write, stores.elements? fuel (some displayLimit) items]
            split
            · exact ih (more (.cons (.text "]") rest) _) _
            · rfl
          | record fields =>
            simp only [Store.write]
            split
            · exact ih rest _
            · exact ih (more (.cons (.text " \x7d") rest) _) _
          | _ => exact ih rest _

/-- Values that agree are quoted alike. -/
theorem quoted (stores : StoresAgree code left right) (values : ValuesAgree code value other) :
    left.quoted value = right.quoted other :=
  congrArg (·.getD "") (stores.write ample (.cons (.value values) .nil) "")

end StoresAgree

end LazyConfig
