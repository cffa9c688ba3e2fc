import LazyConfig.Proofs.ByName.Value
import LazyConfig.Proofs.Conformance.Conforms
import LazyConfig.Proofs.Value.Entries

/-!
Where data differ from a type, and how a failed check says so. A failure is blamed rightly if its path leads from the
data to a part of them and from the type to what is asked of that part, and the part differs from that at first sight.
-/

namespace LazyConfig

/-- The kind of the values that data are of. -/
def Data.kind? : Data → Option Kind
  | int _ | float _ => some .num
  | bool _ => some .bool
  | str _ => some .str
  | list _ => some .list
  | record _ => some .record
  | closure | builtin _ _ _ | host _ => some .function
  | omitted => none

/-- The kind of value that a type asks for, if it asks for one at first sight. -/
def TypeNode.kind? : TypeNode → Option Kind
  | num => some .num
  | str => some .str
  | bool => some .bool
  | list _ => some .list
  | record _ | dict _ => some .record
  | fn _ _ => some .function
  | _ => none

section

variable (names : NameTable) (graph : TypeGraph)

/-- A path leads from data to a part of them, and from a type to the type that is asked of the part. -/
inductive PathLeads : TypeId → Data → List Segment → TypeId → Data → Prop
  | here (id : TypeId) (data : Data) : PathLeads id data [] id data
  /-- Aliases and generic types are read through. -/
  | link {id next last : TypeId} {data part : Data} {segments : List Segment} (linked : graph.link? id = some next)
    (leads : PathLeads next data segments last part) : PathLeads id data segments last part
  | elem {id elem last : TypeId} {parts : List Data} {first part : Data} {position : Nat} {segments : List Segment}
    (found : graph.node id = .list elem) (listed : parts[position]? = some first)
    (leads : PathLeads elem first segments last part) :
    PathLeads id (.list parts) (.index position :: segments) last part
  | entry {id elem last : TypeId} {fields : List (String × Data)} {name : String} {first part : Data}
    {segments : List Segment} (found : graph.node id = .dict elem) (member : (name, first) ∈ fields)
    (leads : PathLeads elem first segments last part) :
    PathLeads id (.record fields) (.field name :: segments) last part
  /-- Of two declarations of a field the later counts. -/
  | field {id type last : TypeId} {declared : List (Name × TypeId)} {fields : List (String × Data)} {name : String}
    {first part : Data} {segments : List Segment} (found : graph.node id = .record declared)
    (asked : TypeGraph.declared? names declared name = some type) (member : (name, first) ∈ fields)
    (leads : PathLeads type first segments last part) :
    PathLeads id (.record fields) (.field name :: segments) last part

/-- Data differ from a type at first sight: the last step of the path, what was expected and what was found. -/
inductive Violates : TypeId → Data → List Segment → String → String → Prop
  /-- The type asks for another kind of value. -/
  | kind {id : TypeId} {data : Data} {asked found : Kind} (asks : (graph.node id).kind? = some asked)
    (given : data.kind? = some found) (other : found ≠ asked) :
    Violates id data [] (graph.display names id) found.name
  /-- A declared field is missing. -/
  | missing {id type : TypeId} {declared : List (Name × TypeId)} {fields : List (String × Data)} {field : Name}
    (found : graph.node id = .record declared) (declares : (field, type) ∈ declared)
    (absent : names.lookup field ∉ fields.map Prod.fst) :
    Violates id (.record fields) [.field (names.lookup field)] (graph.display names type) "missing field"
  /-- There is a field that is not declared. -/
  | unexpected {id : TypeId} {declared : List (Name × TypeId)} {fields : List (String × Data)} {name : String}
    (found : graph.node id = .record declared) (member : name ∈ fields.map Prod.fst)
    (undeclared : TypeGraph.declared? names declared name = none) :
    Violates id (.record fields) [.field name] "no such field" "unexpected field"

end

/-- A failure reports a mismatch at a place. -/
def Fault.Reports (fault : Fault) (path : Path) (expected found : String) : Prop :=
  ∃ mismatch, fault = .typeMismatch mismatch path ∧ mismatch.expectedText = expected ∧ mismatch.foundText = found

/-- What is asked of a value: a type, at a place in the annotated value. -/
structure Demand where
  path : Path
  type : TypeId

namespace Demand

/-- Data that fulfil what is asked. -/
def Met (names : NameTable) (graph : TypeGraph) (demand : Demand) (data : Data) : Prop :=
  Conforms names graph demand.type data

/-- A failure reports rightly where data differ from what is asked. -/
def Blames (names : NameTable) (graph : TypeGraph) (demand : Demand) (data : Data) (fault : Fault) : Prop :=
  ∃ segments type part last expected found, PathLeads names graph demand.type data segments type part ∧
    Violates names graph type part last expected found ∧
    fault.Reports ⟨demand.path.segments ++ (segments ++ last)⟩ expected found

/-- A failure reports rightly where one of several data differ from what is asked of them. -/
def BlamesOne (names : NameTable) (graph : TypeGraph) (demands : List Demand) (data : List Data) (fault : Fault) :
    Prop :=
  ∃ pair ∈ demands.zip data, pair.1.Blames names graph pair.2 fault

end Demand

variable {names : NameTable} {graph : TypeGraph} {id type last : TypeId} {data part first : Data} {path : Path}
  {segments step : List Segment} {expected found : String} {fault : Fault}

/-- A report is a mismatch, with a text that shows the path. -/
theorem Fault.Reports.message (reports : fault.Reports path expected found) :
    fault.message = "type mismatch at `" ++ path.text ++ "`: expected " ++ expected ++ ", found " ++ found := by
  obtain ⟨mismatch, rfl, rfl, rfl⟩ := reports
  rfl

/-! A violation is one: data that differ from a type in some part do not belong to it. -/

/-- What belongs to a type has parts that belong to what is asked of them. -/
theorem PathLeads.conforms (leads : PathLeads names graph id data segments last part)
    (conforms : Conforms names graph id data) : Conforms names graph last part := by
  -- Each step of the path opens the type once; what it says of the parts goes on with the part of
  -- the path.
  induction leads with
  | here => exact conforms
  | link linked leads ih => exact ih ((Conforms.link_iff linked).mp conforms)
  | elem found listed leads ih =>
    obtain ⟨parts, same, elems⟩ := (Conforms.node_list_iff found).mp conforms
    cases same
    exact ih (elems _ (List.mem_of_getElem? listed))
  | entry found member leads ih =>
    obtain ⟨fields, same, elems⟩ := (Conforms.node_dict_iff found).mp conforms
    cases same
    exact ih (elems _ member)
  | field found asked member leads ih =>
    obtain ⟨fields, same, -, elems⟩ := (Conforms.node_record_iff found).mp conforms
    cases same
    exact ih (elems _ member _ asked)

/-- What belongs to a type that asks for a kind of value at first sight is of that kind. -/
theorem Conforms.kind {asked : Kind} (conforms : Conforms names graph id data)
    (asks : (graph.node id).kind? = some asked) : data.kind? = some asked := by
  cases conforms with
  -- A type with a link asks for nothing at first sight.
  | link linked conforms =>
    unfold TypeGraph.link? at linked
    split at linked
    all_goals simp_all [TypeNode.kind?]
  | dyn found | var found | int found | float found | str found | bool found | closure found | builtin found
  | host found | list found | dict found | record found =>
    rw [found] at asks
    cases asks <;> rfl

/-- A field has a declared type if it is declared. -/
theorem declared?_isSome_iff {declared : List (Name × TypeId)} {name : String} :
    (TypeGraph.declared? names declared name).isSome = true ↔
      name ∈ declared.map fun field => names.lookup field.1 := by
  rw [TypeGraph.declared?, isSome_lookup_iff, List.map_reverse, List.mem_reverse, List.map_map]
  exact Iff.rfl

/-- Data that differ from a type at first sight do not belong to it. -/
theorem Violates.refuses (violates : Violates names graph id data step expected found) :
    ¬ Conforms names graph id data := by
  intro conforms
  cases violates with
  -- The type asks for another kind, for a field that is not there, or for no field of this name.
  | kind asks given other =>
    exact other (Option.some.inj (given.symm.trans (conforms.kind asks)))
  | missing node declares absent =>
    obtain ⟨fields, same, exact, -⟩ := (Conforms.node_record_iff node).mp conforms
    cases same
    exact absent ((exact _).mpr (declared?_isSome_iff.mpr (List.mem_map_of_mem declares)))
  | unexpected node member undeclared =>
    obtain ⟨fields, same, exact, -⟩ := (Conforms.node_record_iff node).mp conforms
    cases same
    have present := (exact _).mp member
    rw [undeclared] at present
    cases present

namespace Demand

variable {demand : Demand}

/-- Data that are blamed do not fulfil what is asked. -/
theorem Blames.refuses (blames : demand.Blames names graph data fault) : ¬ Conforms names graph demand.type data := by
  obtain ⟨segments, type, part, last, expected, found, leads, violates, -⟩ := blames
  exact fun conforms => violates.refuses (leads.conforms conforms)

/-- What blames data is a mismatch. -/
theorem Blames.variant (blames : demand.Blames names graph data fault) : fault.variant = .typeMismatch := by
  obtain ⟨segments, type, part, last, expected, found, -, -, mismatch, rfl, -⟩ := blames
  rfl

/-! Blame is passed on from parts to the whole. -/

/-- Data are blamed where they differ at first sight. -/
theorem Blames.here {mismatch : Mismatch}
    (violates : Violates names graph demand.type data step mismatch.expectedText mismatch.foundText) :
    demand.Blames names graph data (.typeMismatch mismatch ⟨demand.path.segments ++ step⟩) :=
  ⟨[], _, _, step, _, _, .here _ _, violates, mismatch, rfl, rfl, rfl⟩

/-- Aliases and generic types pass on the blame of what they stand for. -/
theorem Blames.of_reads {shape : TypeId} {count : Nat} (reads : graph.ReadsIn count id shape)
    (blames : Blames names graph ⟨path, shape⟩ data fault) : Blames names graph ⟨path, id⟩ data fault := by
  induction reads with
  | shape => exact blames
  | link linked rest ih =>
    obtain ⟨segments, type, part, last, expected, found, leads, rest⟩ := ih blames
    exact ⟨segments, type, part, last, expected, found, .link linked leads, rest⟩

/-- Of several data the first or one of the others are blamed. -/
theorem blamesOne_cons {demands : List Demand} {data : List Data} :
    BlamesOne names graph (demand :: demands) (first :: data) fault ↔
      demand.Blames names graph first fault ∨ BlamesOne names graph demands data fault := by
  simp only [BlamesOne, List.zip_cons_cons, List.mem_cons, exists_eq_or_imp]

/-- A step further on the way to what is blamed. -/
theorem Blames.further {segment : Segment} {whole : Data}
    (blames : Blames names graph ⟨⟨path.segments ++ [segment]⟩, type⟩ first fault)
    (leads : ∀ {segments last part}, PathLeads names graph type first segments last part →
      PathLeads names graph id whole (segment :: segments) last part) :
    Blames names graph ⟨path, id⟩ whole fault := by
  obtain ⟨segments, other, part, last, expected, found, own, violates, mismatch, rfl, texts⟩ := blames
  refine ⟨segment :: segments, other, part, last, expected, found, leads own, violates, mismatch, ?_, texts⟩
  -- The step stands between the path so far and what follows.
  simp

section Shape

variable (sound : graph.Sound)
include sound

/-- Blame of data at the type that a type reads as. -/
theorem Blames.of_shape (blames : Blames names graph ⟨demand.path, graph.shape demand.type⟩ data fault) :
    demand.Blames names graph data fault := by
  obtain ⟨count, reads, -⟩ := sound.reads demand.type
  exact .of_reads reads blames

/-- A list is blamed for an element. -/
theorem Blames.elem {elem : TypeId} (node : graph.node (graph.shape demand.type) = .list elem) {parts : List Data}
    {position : Nat} (listed : parts[position]? = some first)
    (blames : Blames names graph ⟨demand.path.index position, elem⟩ first fault) :
    demand.Blames names graph (.list parts) fault :=
  .of_shape sound (blames.further (.elem node listed))

/-- A dictionary is blamed for a field. -/
theorem Blames.entry {elem : TypeId} (node : graph.node (graph.shape demand.type) = .dict elem)
    {fields : List (String × Data)} {name : String} (member : (name, first) ∈ fields)
    (blames : Blames names graph ⟨demand.path.field name, elem⟩ first fault) :
    demand.Blames names graph (.record fields) fault :=
  .of_shape sound (blames.further (.entry node member))

/-- A record is blamed for a field of a declared type. -/
theorem Blames.field {declared : List (Name × TypeId)}
    (node : graph.node (graph.shape demand.type) = .record declared) {fields : List (String × Data)} {name : String}
    (asked : TypeGraph.declared? names declared name = some type) (member : (name, first) ∈ fields)
    (blames : Blames names graph ⟨demand.path.field name, type⟩ first fault) :
    demand.Blames names graph (.record fields) fault :=
  .of_shape sound (blames.further (.field node asked member))

end Shape

end Demand

end LazyConfig
