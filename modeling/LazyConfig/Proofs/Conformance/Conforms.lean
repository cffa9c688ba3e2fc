import LazyConfig.Proofs.Types.Sound
import LazyConfig.Value.Data

/-!
What it means that data belong to a type. Aliases and generic types are read through, and nothing is
asked of functions but to be functions.
-/

namespace LazyConfig

/-- The type that is declared for a field; of two declarations of a name the later counts. -/
def TypeGraph.declared? (names : NameTable) (declared : List (Name × TypeId)) (name : String) :
    Option TypeId :=
  (declared.map fun (field, type) => (names.lookup field, type)).reverse.lookup name

/-- Data that belong to a type. -/
inductive Conforms (names : NameTable) (graph : TypeGraph) : TypeId → Data → Prop
  /-- An alias stands for its definition, and a generic type for its body. -/
  | link {id next : TypeId} {data : Data} (linked : graph.link? id = some next)
    (conforms : Conforms names graph next data) : Conforms names graph id data
  | dyn {id : TypeId} (found : graph.node id = .dyn) (data : Data) : Conforms names graph id data
  | var {id : TypeId} {name : Name} (found : graph.node id = .var name) (data : Data) :
    Conforms names graph id data
  | int {id : TypeId} (found : graph.node id = .num) (value : Int64) :
    Conforms names graph id (.int value)
  | float {id : TypeId} (found : graph.node id = .num) (value : Float) :
    Conforms names graph id (.float value)
  | str {id : TypeId} (found : graph.node id = .str) (text : String) :
    Conforms names graph id (.str text)
  | bool {id : TypeId} (found : graph.node id = .bool) (value : Bool) :
    Conforms names graph id (.bool value)
  | closure {id param result : TypeId} (found : graph.node id = .fn param result) :
    Conforms names graph id .closure
  | builtin {id param result : TypeId} (found : graph.node id = .fn param result) (op : Builtin)
    (held missing : Nat) : Conforms names graph id (.builtin op held missing)
  | host {id param result : TypeId} (found : graph.node id = .fn param result) (name : String) :
    Conforms names graph id (.host name)
  | list {id elem : TypeId} {parts : List Data} (found : graph.node id = .list elem)
    (elems : ∀ part ∈ parts, Conforms names graph elem part) : Conforms names graph id (.list parts)
  | dict {id elem : TypeId} {fields : List (String × Data)} (found : graph.node id = .dict elem)
    (elems : ∀ field ∈ fields, Conforms names graph elem field.2) :
    Conforms names graph id (.record fields)
  /-- A record has the declared fields and no others. -/
  | record {id : TypeId} {declared : List (Name × TypeId)} {fields : List (String × Data)}
    (found : graph.node id = .record declared)
    (exact : ∀ name, name ∈ fields.map Prod.fst ↔
      (TypeGraph.declared? names declared name).isSome = true)
    (elems : ∀ field ∈ fields, ∀ type, TypeGraph.declared? names declared field.1 = some type →
      Conforms names graph type field.2) : Conforms names graph id (.record fields)

namespace Conforms

variable {names : NameTable} {graph : TypeGraph} {id shape : TypeId} {data : Data}

/-- Data belong to a type with a link as they belong to what it stands for. -/
theorem link_iff {next : TypeId} (linked : graph.link? id = some next) :
    Conforms names graph id data ↔ Conforms names graph next data := by
  refine ⟨fun conforms => ?_, .link linked⟩
  -- A node with a link belongs to no other rule.
  cases conforms with
  | link other conforms =>
    obtain rfl : _ = _ := Option.some.inj (other.symm.trans linked)
    exact conforms
  | _ => simp_all [TypeGraph.link?]

/-- Data belong to a type as they belong to what the type reads as. -/
theorem reads {count : Nat} (reads : graph.ReadsIn count id shape) :
    Conforms names graph id data ↔ Conforms names graph shape data := by
  induction reads with
  | shape => exact Iff.rfl
  | link linked rest ih => exact (link_iff linked).trans ih

/-- In a graph without loose ends data belong to a type as they belong to its shape. -/
theorem shape_iff (sound : graph.Sound) :
    Conforms names graph id data ↔ Conforms names graph (graph.shape id) data := by
  obtain ⟨count, same, -⟩ := sound.reads id
  exact reads same

/-- Everything belongs to a type that accepts everything. -/
theorem of_acceptsAll (sound : graph.Sound) (accepts : graph.acceptsAll id = true) (data : Data) :
    Conforms names graph id data := by
  -- What accepts everything reads as one of the two types that do.
  obtain ⟨count, same, -⟩ := sound.reads id
  rw [reads same]
  rcases same.acceptsAll accepts with found | ⟨name, found⟩
  · exact .dyn found data
  · exact .var found data

/-- What belongs to a node of lists is a list whose elements belong to the type of elements. -/
theorem node_list_iff {elem : TypeId} (found : graph.node id = .list elem) :
    Conforms names graph id data ↔
      ∃ parts, data = .list parts ∧ ∀ part ∈ parts, Conforms names graph elem part := by
  constructor
  · intro conforms
    cases conforms with
    | list other elems =>
      -- The node is a type of lists, and so no other rule applies.
      rw [found] at other
      cases other
      exact ⟨_, rfl, elems⟩
    | _ => simp_all [TypeGraph.link?]
  · rintro ⟨parts, rfl, elems⟩
    exact .list found elems

/-- What belongs to a node of dictionaries is a record whose fields belong to the one type. -/
theorem node_dict_iff {elem : TypeId} (found : graph.node id = .dict elem) :
    Conforms names graph id data ↔
      ∃ fields, data = .record fields ∧ ∀ field ∈ fields, Conforms names graph elem field.2 := by
  constructor
  · -- Only the rule of this node applies, since a node is of one form.
    intro conforms
    cases conforms with
    | dict other elems =>
      rw [found] at other
      cases other
      exact ⟨_, rfl, elems⟩
    | _ => simp_all [TypeGraph.link?]
  · rintro ⟨parts, rfl, elems⟩
    exact .dict found elems

/-- What belongs to a node of records is a record with the declared fields, each of its type. -/
theorem node_record_iff {declared : List (Name × TypeId)} (found : graph.node id = .record declared) :
    Conforms names graph id data ↔
      ∃ fields, data = .record fields ∧
        (∀ name, name ∈ fields.map Prod.fst ↔
          (TypeGraph.declared? names declared name).isSome = true) ∧
        ∀ field ∈ fields, ∀ type, TypeGraph.declared? names declared field.1 = some type →
          Conforms names graph type field.2 := by
  constructor
  · -- Only the rule of this node applies, since a node is of one form.
    intro conforms
    cases conforms with
    | record other exact elems =>
      rw [found] at other
      cases other
      exact ⟨_, rfl, exact, elems⟩
    | _ => simp_all [TypeGraph.link?]
  · rintro ⟨fields, rfl, exact, elems⟩
    exact .record found exact elems

section Shape

variable (sound : graph.Sound)
include sound

/-- What belongs to a type of lists is a list whose elements belong to the type of elements. -/
theorem list_iff {elem : TypeId} (found : graph.node (graph.shape id) = .list elem) :
    Conforms names graph id data ↔
      ∃ parts, data = .list parts ∧ ∀ part ∈ parts, Conforms names graph elem part :=
  (shape_iff sound).trans (node_list_iff found)

/-- What belongs to a type of dictionaries is a record whose fields belong to the one type. -/
theorem dict_iff {elem : TypeId} (found : graph.node (graph.shape id) = .dict elem) :
    Conforms names graph id data ↔
      ∃ fields, data = .record fields ∧ ∀ field ∈ fields, Conforms names graph elem field.2 :=
  (shape_iff sound).trans (node_dict_iff found)

/-- What belongs to a record type is a record with the declared fields, each of its type. -/
theorem record_iff {declared : List (Name × TypeId)}
    (found : graph.node (graph.shape id) = .record declared) :
    Conforms names graph id data ↔
      ∃ fields, data = .record fields ∧
        (∀ name, name ∈ fields.map Prod.fst ↔
          (TypeGraph.declared? names declared name).isSome = true) ∧
        ∀ field ∈ fields, ∀ type, TypeGraph.declared? names declared field.1 = some type →
          Conforms names graph type field.2 :=
  (shape_iff sound).trans (node_record_iff found)

end Shape

end Conforms

end LazyConfig
