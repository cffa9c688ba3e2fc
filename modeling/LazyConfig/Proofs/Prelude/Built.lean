import LazyConfig.Lists
import LazyConfig.Proofs.Prelude.Terms

/-!
Building code only adds to it, so what a step has built is still there in the finished program. The list
functions are built as the trees that say what they are.
-/

namespace LazyConfig

namespace NameTable

/-- A text has the name of its first place in the table. -/
theorem find?_eq_some_iff {table : NameTable} {text : String} {name : Name} :
    table.find? text = some name ↔ table.texts[name]? = some text ∧
      ∀ earlier < name, table.texts[earlier]? ≠ some text := by
  -- Both sides say that the text is found first at its name.
  constructor
  · intro named
    obtain ⟨position, found, rfl⟩ := Option.map_eq_some_iff.mp named
    obtain ⟨same, first⟩ := Array.finIdxOf?_eq_some_iff.mp found
    refine ⟨Array.getElem?_eq_some_iff.mpr ⟨position.isLt, same⟩, fun earlier less also => ?_⟩
    obtain ⟨inside, also⟩ := Array.getElem?_eq_some_iff.mp also
    exact first ⟨earlier, inside⟩ less also
  · rintro ⟨here, first⟩
    obtain ⟨inside, same⟩ := Array.getElem?_eq_some_iff.mp here
    have found : table.texts.finIdxOf? text = some ⟨name, inside⟩ :=
      Array.finIdxOf?_eq_some_iff.mpr ⟨same, fun earlier less also =>
        first earlier less (Array.getElem?_eq_some_iff.mpr ⟨earlier.isLt, also⟩)⟩
    exact Option.map_eq_some_iff.mpr ⟨_, found, rfl⟩

/-- Interning a text leaves the names of all other texts. -/
theorem find?_intern {table : NameTable} {text other : String} {name : Name}
    (found : table.find? other = some name) : (table.intern text).2.find? other = some name := by
  unfold intern
  split
  · exact found
  · -- A new text is put behind all others.
    obtain ⟨here, first⟩ := find?_eq_some_iff.mp found
    have inside := (Array.getElem?_eq_some_iff.mp here).1
    refine find?_eq_some_iff.mpr ⟨?_, fun earlier less => ?_⟩
    · rwa [Array.getElem?_push, if_neg (Nat.ne_of_lt inside)]
    · rw [Array.getElem?_push, if_neg (Nat.ne_of_lt (Nat.lt_trans less inside))]
      exact first earlier less

/-- A text is found under the name that interning it has given. -/
theorem find?_intern_self (table : NameTable) (text : String) :
    (table.intern text).2.find? text = some (table.intern text).1 := by
  unfold intern
  split
  · assumption
  · rename_i unseen
    have absent : text ∉ table.texts :=
      Array.finIdxOf?_eq_none_iff.mp (Option.map_eq_none_iff.mp unseen)
    refine find?_eq_some_iff.mpr ⟨by simp [size], fun earlier less also => ?_⟩
    -- The text was at no place before.
    have inside : earlier < table.texts.size := less
    rw [Array.getElem?_push, if_neg (Nat.ne_of_lt inside)] at also
    exact absent (Array.mem_of_getElem? also)

end NameTable

/-- Code under construction has become more: names and expressions stay. -/
structure Draft.Grows (before after : Draft) : Prop where
  names : ∀ text name, before.names.find? text = some name → after.names.find? text = some name
  exprs : ∀ (id : ExprId) (node : Expr), before.code.exprs[id]? = some node → after.code.exprs[id]? = some node

/-- A program that contains the code under construction. -/
structure Draft.Within (draft : Draft) (context : Context) : Prop where
  names : ∀ text name, draft.names.find? text = some name → context.names.find? text = some name
  exprs : ∀ (id : ExprId) (node : Expr), draft.code.exprs[id]? = some node → context.code.exprs[id]? = some node

/-- What has been built is contained in the program that consists of it. -/
theorem Draft.within_self (draft : Draft) (annotations : Annotations) :
    draft.Within ⟨draft.names, draft.code, annotations⟩ :=
  ⟨fun _ _ found => found, fun _ _ found => found⟩

theorem Draft.Grows.trans {first middle last : Draft} (left : first.Grows middle)
    (right : middle.Grows last) : first.Grows last :=
  ⟨fun text name found => right.names _ _ (left.names text name found),
    fun id node found => right.exprs _ _ (left.exprs id node found)⟩

/-- What is contained in more is contained. -/
theorem Draft.Grows.within {before after : Draft} (grows : before.Grows after) {context : Context}
    (within : after.Within context) : before.Within context :=
  ⟨fun text name found => within.names _ _ (grows.names text name found),
    fun id node found => within.exprs _ _ (grows.exprs id node found)⟩

/--
A step of building only adds to the code, and what it gives has a property in every program that
contains what was built, provided that something else is given there.
-/
def Makes (context : Context) (given : Prop) {α : Type} (build : Build α) (holds : α → Prop) : Prop :=
  ∀ draft : Draft, draft.Grows (build draft).2 ∧
    ((build draft).2.Within context → given → holds (build draft).1)

namespace Makes

variable {context : Context} {given : Prop}

/-- Steps one after the other; what the first has built is given for the second. -/
theorem bind {α β : Type} {build : Build α} {next : α → Build β} {holds : α → Prop} {last : β → Prop}
    (first : Makes context given build holds)
    (second : ∀ a, Makes context (given ∧ holds a) (next a) last) :
    Makes context given (build >>= next) last := by
  intro draft
  obtain ⟨grows, made⟩ := first draft
  obtain ⟨further, rest⟩ := second (build draft).1 (build draft).2
  exact ⟨grows.trans further, fun within facts =>
    rest within ⟨facts, made (further.within within) facts⟩⟩

/-- What follows from the property holds as well. -/
theorem imp {α : Type} {build : Build α} {holds last : α → Prop} (made : Makes context given build holds)
    (follows : ∀ a, given → holds a → last a) : Makes context given build last := by
  intro draft
  obtain ⟨grows, made⟩ := made draft
  exact ⟨grows, fun within facts => follows _ facts (made within facts)⟩

/-- Building nothing. -/
theorem pure {α : Type} {a : α} {holds : α → Prop} (true : given → holds a) :
    Makes context given (Pure.pure a) holds :=
  fun _ => ⟨⟨fun _ _ found => found, fun _ _ found => found⟩, fun _ facts => true facts⟩

/-! The steps. -/

theorem name (text : String) : Makes context given (Build.name text) (context.Named text) := by
  intro draft
  refine ⟨⟨fun other name found => NameTable.find?_intern found, fun id node found => found⟩,
    fun within _ => ?_⟩
  exact within.names text _ (NameTable.find?_intern_self draft.names text)

/-- A new expression is at the position that it is given. -/
theorem expr (node : Expr) : Makes context given (Build.expr node) fun id => context.code.expr id = node := by
  intro draft
  refine ⟨⟨fun text name found => found, fun id other found => ?_⟩, fun within _ => ?_⟩
  · have inside := (Array.getElem?_eq_some_iff.mp found).1
    simpa [Build.expr, Array.getElem?_push, Nat.ne_of_lt inside] using found
  · have there : context.code.exprs[draft.code.exprs.size]? = some node :=
      within.exprs _ _ (by simp [Build.expr])
    simp [Build.expr, Code.expr, there]

theorem ident (text : String) : Makes context given (Build.ident text) (context.Reads (.var text)) :=
  (name text).bind fun bound => (expr _).imp fun _ facts node => ⟨bound, facts.2, node⟩

section

variable {first second third : Term} {left right other : ExprId}

theorem apply (funcs : given → context.Reads first left) (args : given → context.Reads second right) :
    Makes context given (Build.apply left right) (context.Reads (.app first second)) :=
  (expr _).imp fun _ facts node => ⟨left, right, node, funcs facts, args facts⟩

theorem binary (op : BinaryOp) (lefts : given → context.Reads first left)
    (rights : given → context.Reads second right) :
    Makes context given (Build.binary op left right) (context.Reads (.binary op first second)) :=
  (expr _).imp fun _ facts node => ⟨left, right, node, lefts facts, rights facts⟩

theorem cond (tests : given → context.Reads first left) (trues : given → context.Reads second right)
    (falses : given → context.Reads third other) :
    Makes context given (Build.cond left right other) (context.Reads (.choose first second third)) :=
  (expr _).imp fun _ facts node => ⟨left, right, other, node, tests facts, trues facts, falses facts⟩

theorem nil : Makes context given (Build.list []) (context.Reads .nil) :=
  (expr _).imp fun _ _ node => node

theorem single (items : given → context.Reads first left) :
    Makes context given (Build.list [left]) (context.Reads (.single first)) :=
  (expr _).imp fun _ facts node => ⟨left, node, items facts⟩

theorem prim (op : Builtin) (args : given → context.Reads first left) :
    Makes context given (Build.builtin op [left]) (context.Reads (.prim op first)) :=
  (expr _).imp fun _ facts node => ⟨left, node, args facts⟩

theorem prim₂ (op : Builtin) (firsts : given → context.Reads first left)
    (seconds : given → context.Reads second right) :
    Makes context given (Build.builtin op [left, right]) (context.Reads (.prim₂ op first second)) :=
  (expr _).imp fun _ facts node => ⟨left, right, node, firsts facts, seconds facts⟩

theorem lambda (param : String) (bodies : given → context.Reads first left) :
    Makes context given (Build.lambda param left) (context.Reads (.fn param first)) :=
  (name param).bind fun bound => (expr _).imp fun _ facts node =>
    ⟨bound, left, node, facts.2, bodies facts.1⟩

theorem letIn (text : String) (values : given → context.Reads first left)
    (bodies : given → context.Reads second right) :
    Makes context given (Build.letIn text left right) (context.Reads (.bind text first second)) :=
  (name text).bind fun bound => (expr _).imp fun _ facts node =>
    ⟨bound, left, right, node, facts.2, values facts.1, bodies facts.1⟩

theorem field (text : String) (receivers : given → context.Reads first left) :
    Makes context given (Build.field left text) (context.Reads (.member first text)) :=
  (name text).bind fun bound => (expr _).imp fun _ facts node =>
    ⟨left, bound, node, facts.2, receivers facts.1⟩

/-- An application to several arguments. -/
theorem call {args : List Term} {ids : List ExprId}
    (funcs : given → context.Reads first left)
    (each : given → List.Forall₂ context.Reads args ids) :
    Makes context given (Build.call left ids) (context.Reads (args.foldl .app first)) := by
  -- By induction on the arguments: the first of them makes one more application, to which the
  -- others belong.
  induction ids generalizing args first left given with
  | nil =>
    refine .pure fun facts => ?_
    cases each facts
    exact funcs facts
  | cons id rest ih =>
    cases args with
    | nil =>
      -- There is a tree for each argument.
      refine bind (expr (.apply left id)) fun applied => ?_
      exact ih (fun facts => nomatch each facts.1) fun facts => nomatch each facts.1
    | cons arg args =>
      have more (applied : ExprId) (others : given ∧ context.Reads (.app first arg) applied →
          List.Forall₂ context.Reads args rest) :
          Makes context (given ∧ context.Reads (.app first arg) applied) (Build.call applied rest)
            (context.Reads (args.foldl .app (.app first arg))) :=
        ih (fun facts => facts.2) others
      refine bind (apply funcs fun facts => ?_) fun applied => more applied fun facts => ?_
      · cases each facts with
        | cons first _ => exact first
      · cases each facts.1 with
        | cons _ others => exact others

end

end Makes

/-! The list functions. -/

namespace Lists

open Makes

variable {context : Context} {given : Prop}

theorem isNil_makes (list : String) : Makes context given (isNil list) (context.Reads (isNilTerm list)) :=
  bind (ident list) fun _ => bind nil fun _ => binary .eq (fun facts => facts.1.2) (fun facts => facts.2)

theorem headOf_makes (list : String) :
    Makes context given (headOf list) (context.Reads (.prim .head (.var list))) :=
  bind (ident list) fun _ => prim .head fun facts => facts.2

theorem tailOf_makes (list : String) :
    Makes context given (tailOf list) (context.Reads (.prim .tail (.var list))) :=
  bind (ident list) fun _ => prim .tail fun facts => facts.2

theorem member_makes (name : String) : Makes context given (member name) (context.Reads (memberTerm name)) :=
  bind (ident recordName) fun _ => field name fun facts => facts.2

/-- A function of several parameters. -/
theorem lambdas_makes {params : List String} {body : Term} {id : ExprId}
    (bodies : given → context.Reads body id) :
    Makes context given (Build.lambdas params id) (context.Reads (params.foldr .fn body)) := by
  induction params with
  | nil => exact .pure bodies
  | cons param rest ih => exact bind ih fun _ => lambda param fun facts => facts.2

/-- An application of a variable to several arguments. -/
theorem callNamed_makes (func : String) {args : List Term} {ids : List ExprId}
    (each : given → List.Forall₂ context.Reads args ids) :
    Makes context given (Build.callNamed func ids) (context.Reads (args.foldl .app (.var func))) :=
  bind (ident func) fun _ => call (fun facts => facts.2) fun facts => each facts.1

/-! What each step has built is given for the later ones, the latest first. -/

theorem map_makes : Makes context given map (context.Reads (.fn "f" (.fn "l" mapBody))) := by
  unfold map
  refine bind (isNil_makes "l") fun finished => bind nil fun nil => bind (headOf_makes "l") fun first => ?_
  refine bind (callNamed_makes "f" fun facts => .cons facts.2 .nil) fun mapped => ?_
  refine bind (single fun facts => facts.2) fun cell => bind (member_makes "map") fun again => ?_
  refine bind (ident "f") fun f => bind (tailOf_makes "l") fun others => ?_
  refine bind (call (fun facts => facts.1.1.2) fun facts => .cons facts.1.2 (.cons facts.2 .nil))
    fun rest => ?_
  refine bind (binary .concat (fun facts => facts.1.1.1.1.2) fun facts => facts.2) fun joined => ?_
  refine bind (cond (fun facts => facts.1.1.1.1.1.1.1.1.1.2) (fun facts => facts.1.1.1.1.1.1.1.1.2)
    fun facts => facts.2) fun body => ?_
  exact @lambdas_makes _ _ ["f", "l"] _ _ fun facts => facts.2

theorem map2_makes :
    Makes context given map2 (context.Reads (.fn "f" (.fn "l1" (.fn "l2" map2Body)))) := by
  unfold map2
  -- The parts are made from the inside out, and the facts about the earlier ones are kept on the
  -- way.
  refine bind (isNil_makes "l1") fun leftFinished => bind (isNil_makes "l2") fun rightFinished => ?_
  refine bind (binary .or (fun facts => facts.1.2) fun facts => facts.2) fun finished => ?_
  refine bind nil fun nil => bind (headOf_makes "l1") fun first => bind (headOf_makes "l2") fun second => ?_
  refine bind (callNamed_makes "f" fun facts => .cons facts.1.2 (.cons facts.2 .nil)) fun combined => ?_
  refine bind (single fun facts => facts.2) fun cell => bind (member_makes "map2") fun again => ?_
  refine bind (ident "f") fun f => bind (tailOf_makes "l1") fun lefts => ?_
  refine bind (tailOf_makes "l2") fun rights => ?_
  refine bind (call (fun facts => facts.1.1.1.2) fun facts =>
    .cons facts.1.1.2 (.cons facts.1.2 (.cons facts.2 .nil))) fun rest => ?_
  refine bind (binary .concat (fun facts => facts.1.1.1.1.1.2) fun facts => facts.2) fun joined => ?_
  refine bind (cond (fun facts => facts.1.1.1.1.1.1.1.1.1.1.1.2)
    (fun facts => facts.1.1.1.1.1.1.1.1.1.1.2) fun facts => facts.2) fun body => ?_
  exact @lambdas_makes _ _ ["f", "l1", "l2"] _ _ fun facts => facts.2

theorem generate_makes :
    Makes context given generate (context.Reads (.fn "f" (.fn "n" generateBody))) := by
  unfold generate
  refine bind (member_makes "map") fun mapping => bind (ident "f") fun f => bind (ident "n") fun n => ?_
  refine bind (prim .range fun facts => facts.2) fun indices => ?_
  refine bind (call (fun facts => facts.1.1.1.2) fun facts => .cons facts.1.1.2 (.cons facts.2 .nil))
    fun body => ?_
  exact @lambdas_makes _ _ ["f", "n"] _ _ fun facts => facts.2

theorem foldl_makes :
    Makes context given foldl (context.Reads (.fn "f" (.fn "acc" (.fn "l" foldlBody)))) := by
  unfold foldl
  -- The accumulator of the next iteration is bound first, then forced before the iteration itself.
  refine bind (isNil_makes "l") fun finished => bind (ident "acc") fun result => ?_
  refine bind (ident "acc") fun soFar => bind (headOf_makes "l") fun first => ?_
  refine bind (callNamed_makes "f" fun facts => .cons facts.1.2 (.cons facts.2 .nil)) fun step => ?_
  refine bind (member_makes "foldl") fun again => bind (ident "f") fun f => ?_
  refine bind (ident "next") fun next => bind (tailOf_makes "l") fun others => ?_
  refine bind (call (fun facts => facts.1.1.1.2) fun facts =>
    .cons facts.1.1.2 (.cons facts.1.2 (.cons facts.2 .nil))) fun rest => ?_
  refine bind (ident "next") fun forced => ?_
  refine bind (prim₂ .seq (fun facts => facts.2) fun facts => facts.1.2) fun strict => ?_
  refine bind (letIn "next" (fun facts => facts.1.1.1.1.1.1.1.2) fun facts => facts.2) fun iterate => ?_
  refine bind (cond (fun facts => facts.1.1.1.1.1.1.1.1.1.1.1.1.2)
    (fun facts => facts.1.1.1.1.1.1.1.1.1.1.1.2) fun facts => facts.2) fun body => ?_
  exact @lambdas_makes _ _ ["f", "acc", "l"] _ _ fun facts => facts.2

/-- The fields of a record literal without annotations read as the trees of their values. -/
theorem fields_makes {items : List (String × Term × ExprId)}
    (each : given → ∀ item ∈ items, context.Reads item.2.1 item.2.2) :
    Makes context given (Build.fields (items.map fun item => (item.1, none, item.2.2)))
      fun fields => List.Forall₂ (ReadsMember context) fields
        (items.map fun item => (item.1, item.2.1)) := by
  induction items generalizing given with
  | nil => exact .pure fun _ => .nil
  | cons item rest ih =>
    have others (bound : Name) := ih fun (facts : given ∧ context.Named item.1 bound) other member =>
      each facts.1 other (List.mem_cons_of_mem _ member)
    refine bind (name item.1) fun bound => bind (others bound) fun fields => .pure fun facts => ?_
    exact .cons ⟨facts.1.2, rfl, each facts.1.1 item List.mem_cons_self⟩ facts.2

/-- Where the list functions are in scope: the expression binds their record around the body. -/
structure ReadsAround (context : Context) (body id : ExprId) : Prop where
  bound : ∃ name record, context.code.expr id = .letIn name record body ∧
    context.Named "lists" name ∧ ReadsRecord context record

/-- An expression in whose scope the list functions are binds the record of them. -/
theorem around_makes (body : ExprId) : Makes context given (around body) (ReadsAround context body) := by
  unfold around
  refine bind map_makes fun map => bind map2_makes fun map2 => bind generate_makes fun generate => ?_
  refine bind foldl_makes fun foldl => ?_
  -- Each function of the record is known to be the one that the text describes.
  let items : List (String × Term × ExprId) :=
    [("map", .fn "f" (.fn "l" mapBody), map),
      ("map2", .fn "f" (.fn "l1" (.fn "l2" map2Body)), map2),
      ("generate", .fn "f" (.fn "n" generateBody), generate),
      ("foldl", .fn "f" (.fn "acc" (.fn "l" foldlBody)), foldl)]
  have fields := @fields_makes context
    ((((given ∧ context.Reads (.fn "f" (.fn "l" mapBody)) map) ∧
      context.Reads (.fn "f" (.fn "l1" (.fn "l2" map2Body))) map2) ∧
      context.Reads (.fn "f" (.fn "n" generateBody)) generate) ∧
      context.Reads (.fn "f" (.fn "acc" (.fn "l" foldlBody))) foldl) items fun facts => by
        simp only [items, List.forall_mem_cons]
        exact ⟨facts.1.1.1.2, facts.1.1.2, facts.1.2, facts.2, nofun⟩
  have record : Makes context _ (Build.record
      [("map", map), ("map2", map2), ("generate", generate), ("foldl", foldl)]) (ReadsRecord context) :=
    bind fields fun listed => (expr (.record listed)).imp fun _ facts node => ⟨listed, node, facts.2⟩
  refine bind record fun bound => bind (name recordName) fun called => ?_
  exact (expr _).imp fun _ facts node => ⟨called, bound, node, facts.2, facts.1.2⟩

/-- A program that contains what `around` has built has the list functions in scope of the body. -/
theorem readsAround_of_within {draft : Draft} {body : ExprId} {context : Context}
    (within : (around body draft).2.Within context) : ReadsAround context body (around body draft).1 :=
  (around_makes body draft).2 within trivial

end Lists

end LazyConfig
