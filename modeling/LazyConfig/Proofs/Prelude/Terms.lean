import LazyConfig.Machine.State
import LazyConfig.Proofs.Scoping.Free
import Mathlib.Data.List.Forall2

/-!
Expressions as trees with texts for names. The list functions are given as such trees, and code that reads
as a tree takes from its surroundings only names that are free in the tree.
-/

namespace LazyConfig

/-- An expression as a tree, as far as the list functions need it. -/
inductive Term
  | var (text : String)
  | fn (param : String) (body : Term)
  | app (func arg : Term)
  /-- The name is bound in the value too. -/
  | bind (name : String) (value body : Term)
  | choose (test whenTrue whenFalse : Term)
  | binary (op : BinaryOp) (left right : Term)
  /-- The list without elements. -/
  | nil
  /-- A list of one element. -/
  | single (item : Term)
  | member (receiver : Term) (name : String)
  /-- A primitive of one argument. -/
  | prim (op : Builtin) (arg : Term)
  /-- A primitive of two arguments. -/
  | prim₂ (op : Builtin) (first second : Term)

/-- The names that a tree takes from its surroundings. -/
def Term.free : Term → List String
  | var text => [text]
  | fn param body => body.free.filter (· != param)
  | app func arg => func.free ++ arg.free
  | bind name value body => (value.free ++ body.free).filter (· != name)
  | choose test whenTrue whenFalse => test.free ++ (whenTrue.free ++ whenFalse.free)
  | binary _ left right => left.free ++ right.free
  | nil => []
  | single item => item.free
  | member receiver _ => receiver.free
  | prim _ arg => arg.free
  | prim₂ _ first second => first.free ++ second.free

namespace Context

/-- A name stands for a text. -/
def Named (context : Context) (text : String) (name : Name) : Prop :=
  context.names.find? text = some name

/-- The code at a position reads as a tree. -/
def Reads (context : Context) : Term → ExprId → Prop
  | .var text, id => ∃ name, context.Named text name ∧ context.code.expr id = .ident name
  | .fn param body, id => ∃ name inner, context.code.expr id = .lambda name inner ∧
      context.Named param name ∧ context.Reads body inner
  | .app func arg, id => ∃ left right, context.code.expr id = .apply left right ∧
      context.Reads func left ∧ context.Reads arg right
  | .bind text value body, id => ∃ name first second,
      context.code.expr id = .letIn name first second ∧
      context.Named text name ∧ context.Reads value first ∧ context.Reads body second
  | .choose test whenTrue whenFalse, id => ∃ first second third,
      context.code.expr id = .cond first second third ∧
      context.Reads test first ∧ context.Reads whenTrue second ∧ context.Reads whenFalse third
  | .binary op left right, id => ∃ first second, context.code.expr id = .binary op first second ∧
      context.Reads left first ∧ context.Reads right second
  | .nil, id => context.code.expr id = .list []
  | .single item, id => ∃ inner, context.code.expr id = .list [inner] ∧ context.Reads item inner
  | .member receiver text, id => ∃ inner name, context.code.expr id = .field inner name ∧
      context.Named text name ∧ context.Reads receiver inner
  | .prim op arg, id => ∃ inner, context.code.expr id = .builtin op [inner] ∧ context.Reads arg inner
  | .prim₂ op first second, id => ∃ left right, context.code.expr id = .builtin op [left, right] ∧
      context.Reads first left ∧ context.Reads second right

variable {context : Context}

/-- A name that stands for a text is shown as that text. -/
theorem Named.lookup {text : String} {name : Name} (named : context.Named text name) :
    context.names.lookup name = text := by
  obtain ⟨position, found, rfl⟩ := Option.map_eq_some_iff.mp named
  have same := (Array.finIdxOf?_eq_some_iff.mp found).1
  rw [NameTable.lookup, Array.getElem?_eq_getElem position.isLt]
  exact same

/-- A text has one name only. -/
theorem Named.unique {text : String} {name other : Name} (named : context.Named text name)
    (also : context.Named text other) : name = other :=
  Option.some.inj (Eq.trans (Eq.symm named) also)

/-- Code takes from its surroundings only names that are free in the tree it reads as. -/
theorem Reads.free {term : Term} {id : ExprId} (reads : context.Reads term id) {name : Name}
    (free : context.code.Free name id) : ∃ text ∈ term.free, context.Named text name := by
  -- By induction on the tree: what is free in a part is free in the whole, unless the whole binds
  -- it.
  induction term generalizing id with
  | var text =>
    obtain ⟨bound, named, node⟩ := reads
    rcases free.of_node node with same | ⟨part, member, -, -⟩
    · obtain rfl := Expr.ident.inj same
      exact ⟨text, List.mem_singleton_self _, named⟩
    · cases member
  | fn param body ih =>
    obtain ⟨bound, inner, node, named, inside⟩ := reads
    obtain ⟨part, member, unbound, deeper⟩ := (free.of_node node).resolve_left nofun
    obtain rfl := List.mem_singleton.mp member
    obtain ⟨text, listed, called⟩ := ih inside deeper
    -- The parameter is not free, since a name stands for one text only.
    have other : text ≠ param := by
      rintro rfl
      exact unbound (congrArg some (named.unique called))
    exact ⟨text, by simp [Term.free, listed, other], called⟩
  | bind text value body ihv ihb =>
    obtain ⟨bound, first, second, node, named, values, bodies⟩ := reads
    obtain ⟨part, member, unbound, deeper⟩ := (free.of_node node).resolve_left nofun
    have either : ∃ other ∈ value.free ++ body.free, context.Named other name := by
      simp only [Expr.children, List.mem_cons, List.not_mem_nil, or_false] at member
      rcases member with rfl | rfl
      · obtain ⟨other, listed, called⟩ := ihv values deeper
        exact ⟨other, List.mem_append_left _ listed, called⟩
      · obtain ⟨other, listed, called⟩ := ihb bodies deeper
        exact ⟨other, List.mem_append_right _ listed, called⟩
    obtain ⟨other, listed, called⟩ := either
    have different : other ≠ text := by
      rintro rfl
      exact unbound (congrArg some (named.unique called))
    exact ⟨other, List.mem_filter.mpr ⟨listed, by simpa using different⟩, called⟩
  -- All other trees bind nothing, so that what is free in a part is free in the whole.
  | choose test whenTrue whenFalse iht ihw ihf =>
    obtain ⟨first, second, third, node, tests, trues, falses⟩ := reads
    obtain ⟨part, member, -, deeper⟩ := (free.of_node node).resolve_left nofun
    simp only [Expr.children, List.mem_cons, List.not_mem_nil, or_false] at member
    rcases member with rfl | rfl | rfl
    · obtain ⟨text, listed, called⟩ := iht tests deeper
      exact ⟨text, by simp [Term.free, listed], called⟩
    · obtain ⟨text, listed, called⟩ := ihw trues deeper
      exact ⟨text, by simp [Term.free, listed], called⟩
    · obtain ⟨text, listed, called⟩ := ihf falses deeper
      exact ⟨text, by simp [Term.free, listed], called⟩
  | app func arg ihl ihr | binary op func arg ihl ihr | prim₂ op func arg ihl ihr =>
    obtain ⟨left, right, node, funcs, args⟩ := reads
    obtain ⟨part, member, -, deeper⟩ := (free.of_node node).resolve_left nofun
    simp only [Expr.children, List.mem_cons, List.not_mem_nil, or_false] at member
    rcases member with rfl | rfl
    · obtain ⟨text, listed, called⟩ := ihl funcs deeper
      exact ⟨text, by simp [Term.free, listed], called⟩
    · obtain ⟨text, listed, called⟩ := ihr args deeper
      exact ⟨text, by simp [Term.free, listed], called⟩
  | nil =>
    obtain ⟨part, member, -, -⟩ := (free.of_node reads).resolve_left nofun
    cases member
  | single item ih | prim op item ih =>
    obtain ⟨inner, node, inside⟩ := reads
    obtain ⟨part, member, -, deeper⟩ := (free.of_node node).resolve_left nofun
    obtain rfl := List.mem_singleton.mp member
    exact ih inside deeper
  | member receiver text ih =>
    obtain ⟨inner, bound, node, named, inside⟩ := reads
    obtain ⟨part, member, -, deeper⟩ := (free.of_node node).resolve_left nofun
    obtain rfl := List.mem_singleton.mp member
    exact ih inside deeper

end Context

/-! The list functions. -/

namespace Lists

open Term

/-- A comparison of a variable with the empty list. -/
def isNilTerm (list : String) : Term :=
  binary .eq (var list) nil

/-- One of the list functions. -/
def memberTerm (name : String) : Term :=
  .member (var "lists") name

/-- What `map` comes to for a function `f` and a list `l`. -/
def mapBody : Term :=
  choose (isNilTerm "l") nil
    (binary .concat (single (app (var "f") (prim .head (var "l"))))
      (app (app (memberTerm "map") (var "f")) (prim .tail (var "l"))))

/-- What `map2` comes to for a function `f` and lists `l1` and `l2`. -/
def map2Body : Term :=
  choose (binary .or (isNilTerm "l1") (isNilTerm "l2")) nil
    (binary .concat
      (single (app (app (var "f") (prim .head (var "l1"))) (prim .head (var "l2"))))
      (app (app (app (memberTerm "map2") (var "f")) (prim .tail (var "l1"))) (prim .tail (var "l2"))))

/-- What `generate` comes to for a function `f` and a number `n`. -/
def generateBody : Term :=
  app (app (memberTerm "map") (var "f")) (prim .range (var "n"))

/-- What `foldl` comes to for a function `f`, an accumulator `acc` and a list `l`. -/
def foldlBody : Term :=
  choose (isNilTerm "l") (var "acc")
    (bind "next" (app (app (var "f") (var "acc")) (prim .head (var "l")))
      (prim₂ .seq (var "next")
        (app (app (app (memberTerm "foldl") (var "f")) (var "next")) (prim .tail (var "l")))))

/-- The list functions with their names. -/
def members : List (String × Term) :=
  [("map", fn "f" (fn "l" mapBody)), ("map2", fn "f" (fn "l1" (fn "l2" map2Body))),
    ("generate", fn "f" (fn "n" generateBody)), ("foldl", fn "f" (fn "acc" (fn "l" foldlBody)))]

/-- A field whose value reads as one of the list functions under its name. -/
structure ReadsMember (context : Context) (field : Field) (entry : String × Term) : Prop where
  name : context.Named entry.1 field.name
  plain : field.type = none
  value : context.Reads entry.2 field.value

/-- The code at a position reads as the record of the list functions. -/
def ReadsRecord (context : Context) (record : ExprId) : Prop :=
  ∃ fields, context.code.expr record = .record fields ∧
    List.Forall₂ (ReadsMember context) fields members

/-- Every field of the record is one of the list functions. -/
theorem member_of_field {context : Context} {fields : List Field} {entries : List (String × Term)}
    (reads : List.Forall₂ (ReadsMember context) fields entries) :
    ∀ field ∈ fields, ∃ entry ∈ entries, ReadsMember context field entry := by
  induction reads with
  | nil => exact nofun
  | cons first _ ih =>
    intro field listed
    rcases List.mem_cons.mp listed with rfl | later
    · exact ⟨_, List.mem_cons_self, first⟩
    · obtain ⟨entry, known, reads⟩ := ih field later
      exact ⟨entry, List.mem_cons_of_mem _ known, reads⟩

/-- The list functions take nothing from their surroundings but one another. -/
theorem free_of_mem_members : ∀ entry ∈ members, ∀ text ∈ entry.2.free, text = "lists" := by
  decide

/-- The record of the list functions takes nothing from its surroundings but itself. -/
theorem ReadsRecord.free {context : Context} {record : ExprId} (reads : ReadsRecord context record)
    {name : Name} (free : context.code.Free name record) : context.Named "lists" name := by
  obtain ⟨fields, node, entries⟩ := reads
  cases free with
  | ident also => cases node.symm.trans also
  | part member unbound deeper =>
    rw [node] at member
    obtain ⟨field, listed, rfl⟩ := List.mem_map.mp member
    obtain ⟨entry, known, reads⟩ := member_of_field entries field listed
    obtain ⟨text, found, called⟩ := reads.value.free deeper
    rwa [free_of_mem_members entry known text found] at called

end Lists

end LazyConfig
