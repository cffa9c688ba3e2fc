import LazyConfig.Proofs.Machine.Within
import LazyConfig.Proofs.Twins.Stores

/-!
Two stores of which the second has computations of its own besides the paired ones. They may change and
others may take their place, as long as the pairs stay.
-/

namespace LazyConfig

/-! A store and the same store with more computations. -/

/-- The computations of a store of some size stand for themselves. -/
def Pairing.below (count : Nat) : Pairing :=
  fun id other => id < count ∧ other = id

section Self

variable {bounds : Bounds} {count : Nat}

theorem Inside.twin {ids : List ThunkId} (inside : Inside count ids) :
    List.Forall₂ (Pairing.below count) ids ids :=
  List.forall₂_same.mpr fun id member => ⟨inside id member, rfl⟩

theorem LazyList.Within.twin {list : LazyList} (within : list.Within count) :
    ListTwin (.below count) list list := by
  induction list with
  | elems items start => exact .elems start (Inside.twin within)
  | range next stop => exact .range next stop
  | concat front back ih => exact .concat (ih within.1) ⟨within.2, rfl⟩

theorem Env.Within.twin {env : Env} (within : env.Within count) : EnvTwin (.below count) env env :=
  List.forall₂_same.mpr fun binding member => ⟨rfl, within binding member, rfl⟩

theorem Record.Within.twin {record : Record} (within : record.Within count) :
    RecordTwin (.below count) record record :=
  List.forall₂_same.mpr fun entry member => ⟨rfl, within entry member, rfl⟩

theorem Value.Within.twin {value : Value} (within : value.Within bounds count) :
    ValueTwin (.below count) value value := by
  -- What is within a store names only its computations, and each of them is paired with itself.
  cases value with
  | int value => exact .int value
  | float value => exact .float value
  | bool value => exact .bool value
  | str text => exact .str text
  | list items => exact .list (LazyList.Within.twin within)
  | record fields => exact .record (Record.Within.twin within)
  | closure function => exact .closure (Env.Within.twin within.2)
  | builtin op held => exact .builtin (Inside.twin within)
  | host function => exact .host function

theorem Cell.Within.twin {cell : Cell} (within : cell.Within bounds count) :
    CellTwin (.below count) cell cell := by
  cases cell with
  | suspended work =>
    cases work with
    | expr body env => exact .suspended (.expr (Env.Within.twin within.2))
    | apply func args => exact .suspended (.apply ⟨within.1, rfl⟩ (Inside.twin within.2))
    | check inner type path => exact .suspended (.check type path ⟨within, rfl⟩)
    | checkList source elem path index =>
      exact .suspended (.checkList elem path index (LazyList.Within.twin within))
  | inProgress => exact .inProgress
  | forced value => exact .forced (Value.Within.twin within)
  | failed failure => exact .failed failure

/-- A store and what it becomes when computations are added. -/
theorem Store.Within.twins {store after : Store} (within : store.Within bounds)
    (grown : store.Extends after) : Twins (.below store.cells.size) store after := by
  refine ⟨?_, ?_, ?_⟩
  · -- A computation that was there still is, and stands for itself.
    rintro id _ ⟨inside, rfl⟩
    exact ⟨inside, Nat.lt_of_lt_of_le inside grown.1⟩
  · rintro id _ first _ ⟨-, rfl⟩ ⟨-, rfl⟩
    exact Iff.rfl
  · rintro id _ ⟨inside, rfl⟩
    -- What is added leaves the computations that were there as they were.
    rw [grown.2 _ inside]
    exact (within _ inside).twin

end Self

variable {pairs middle more : Pairing} {left right next after : Store} {own new others : List ThunkId}

/-- A change of the second store that leaves the pairs alone. -/
theorem Twins.change (twins : Twins pairs left right) (size : right.cells.size ≤ after.cells.size)
    (same : ∀ id other, pairs id other → after.cell other = right.cell other) :
    Twins pairs left after := by
  refine ⟨fun id other paired => ?_, twins.matched, fun id other paired => ?_⟩
  · have less := twins.inside id other paired
    exact ⟨less.1, Nat.lt_of_lt_of_le less.2 size⟩
  · rw [same id other paired]
    exact twins.cells id other paired

/-- More computations in the second store. -/
theorem Twins.extend (twins : Twins pairs left right) (grown : right.Extends after) :
    Twins pairs left after :=
  twins.change grown.1 fun id other paired => grown.2 other (twins.inside id other paired).2

/-- A computation of the second store alone comes further. -/
theorem Twins.set_single (twins : Twins pairs left right) {cell : ThunkId}
    (single : ∀ id, ¬ pairs id cell) (state : Cell) : Twins pairs left (right.set cell state) := by
  refine twins.change (Nat.le_of_eq (Store.set_size ..).symm) fun id other paired => ?_
  refine Store.cell_set_of_ne (fun same => ?_) state
  exact single id (same ▸ paired)

/-- Computations that are there and in no pair, each of them once. -/
structure Apart (pairs : Pairing) (right : Store) (cells : List ThunkId) : Prop where
  nodup : cells.Nodup
  inside : ∀ cell ∈ cells, cell < right.cells.size
  single : ∀ cell ∈ cells, ∀ id, ¬ pairs id cell

/--
The second store goes on. Of what is in no pair only some computations of its own change, and some of
these and new ones are its own then.
-/
structure Moves (pairs : Pairing) (right : Store) (own : List ThunkId) (more : Pairing) (after : Store)
    (new : List ThunkId) : Prop where
  keeps : ∀ id other, pairs id other → more id other
  fresh : ∀ id other, more id other → pairs id other ∨ right.cells.size ≤ other
  size : right.cells.size ≤ after.cells.size
  alone : ∀ other < right.cells.size, (∀ id, ¬ pairs id other) → other ∉ own →
    after.cell other = right.cell other
  apart : Apart more after new
  among : ∀ cell ∈ new, cell ∈ own ∨ right.cells.size ≤ cell

namespace Apart

theorem nil : Apart pairs right [] :=
  ⟨.nil, nofun, nofun⟩

/-- Some of the computations. -/
theorem sublist (apart : Apart pairs right own) (fewer : new.Sublist own) : Apart pairs right new :=
  ⟨apart.nodup.sublist fewer, fun cell member => apart.inside cell (fewer.subset member),
    fun cell member => apart.single cell (fewer.subset member)⟩

end Apart

namespace Moves

/-- What happens to the pairs. -/
theorem of_grows (grows : pairs.Grows right more after) (apart : Apart pairs right own) :
    Moves pairs right own more after own := by
  -- Growth leaves alone all that is in no pair, whether it is one of these computations or not.
  refine ⟨grows.keeps, grows.fresh, grows.size, fun other inside single _ => grows.alone other inside single,
    ⟨apart.nodup, fun cell member => ?_, fun cell member => ?_⟩, fun cell => .inl⟩
  · exact Nat.lt_of_lt_of_le (apart.inside cell member) grows.size
  · exact grows.single (apart.inside cell member) (apart.single cell member)

/-- One of the computations that are in no pair comes further. -/
theorem set (apart : Apart pairs right own) {cell : ThunkId} (member : cell ∈ own) (state : Cell) :
    Moves pairs right own pairs (right.set cell state) own := by
  refine ⟨fun _ _ paired => paired, fun _ _ => .inl, Nat.le_of_eq (Store.set_size ..).symm, ?_,
    ⟨apart.nodup, fun other among => ?_, apart.single⟩, fun _ => .inl⟩
  · -- A computation that is none of these is another than the one that changes.
    intro other _ _ outside
    refine Store.cell_set_of_ne (fun same => outside ?_) state
    rw [same]
    exact member
  · rw [Store.set_size]
    exact apart.inside other among

/-- Computations are added that are in no pair. -/
theorem extend (twins : Twins pairs left right) (apart : Apart pairs right own)
    (grown : right.Extends after) (nodup : new.Nodup)
    (fresh : ∀ cell ∈ new, right.cells.size ≤ cell ∧ cell < after.cells.size) :
    Moves pairs right own pairs after (new ++ own) := by
  refine ⟨fun _ _ paired => paired, fun _ _ => .inl, grown.1, fun other inside _ _ => grown.2 other inside,
    ⟨?_, ?_, ?_⟩, ?_⟩
  · -- What is new lies behind all that was there.
    refine List.nodup_append.mpr ⟨nodup, apart.nodup, fun cell added other there same => ?_⟩
    have less := apart.inside other there
    rw [← same] at less
    exact Nat.not_lt.mpr (fresh cell added).1 less
  · intro cell member
    rcases List.mem_append.mp member with added | there
    · exact (fresh cell added).2
    · exact Nat.lt_of_lt_of_le (apart.inside cell there) grown.1
  · intro cell member id paired
    rcases List.mem_append.mp member with added | there
    · -- A new computation is in no pair, since the pairs are of what was there.
      exact Nat.not_lt.mpr (fresh cell added).1 (twins.inside id cell paired).2
    · exact apart.single cell there id paired
  · intro cell member
    rcases List.mem_append.mp member with added | there
    · exact .inr (fresh cell added).1
    · exact .inl there

/-- Some of the new computations are no longer of interest. -/
theorem sublist (moves : Moves pairs right own more after new) (fewer : others.Sublist new) :
    Moves pairs right own more after others :=
  ⟨moves.keeps, moves.fresh, moves.size, moves.alone, moves.apart.sublist fewer,
    fun cell member => moves.among cell (fewer.subset member)⟩

/-- What is in no pair stays in none. -/
theorem single (moves : Moves pairs right own more after new) {other : ThunkId}
    (inside : other < right.cells.size) (alone : ∀ id, ¬ pairs id other) (id : ThunkId) :
    ¬ more id other := by
  intro paired
  rcases moves.fresh id other paired with earlier | late
  · exact alone id earlier
  · exact Nat.not_lt.mpr late inside

theorem trans (first : Moves pairs right own middle next others)
    (second : Moves middle next others more after new) : Moves pairs right own more after new := by
  refine ⟨fun id other paired => second.keeps id other (first.keeps id other paired), ?_,
    Nat.le_trans first.size second.size, ?_, second.apart, ?_⟩
  · -- A pair that is new after both moves is new after one of them, and the second starts where the
    -- first ends.
    intro id other paired
    rcases second.fresh id other paired with earlier | late
    · exact first.fresh id other earlier
    · exact .inr (Nat.le_trans first.size late)
  · -- A computation that was not touched by the first move cannot be touched by the second one.
    intro other inside single outside
    have still : other ∉ others := by
      intro member
      rcases first.among other member with there | late
      · exact outside there
      · exact Nat.not_lt.mpr late inside
    rw [second.alone other (Nat.lt_of_lt_of_le inside first.size) (first.single inside single) still,
      first.alone other inside single outside]
  · intro cell member
    rcases second.among cell member with there | late
    · exact first.among cell there
    · exact .inr (Nat.le_trans first.size late)

/-- A computation in no pair is settled, together with new ones that are added for it. -/
theorem settle {later final : Store} {cell : ThunkId} (twins : Twins more left later)
    (moves : Moves pairs right [cell] more later [cell]) (grown : later.Extends final)
    (nodup : new.Nodup)
    (fresh : ∀ other ∈ new, later.cells.size ≤ other ∧ other < final.cells.size) (state : Cell) :
    Twins more left (final.set cell state) ∧ Moves pairs right [cell] more (final.set cell state) new ∧
      (final.set cell state).cell cell = state ∧
      ∀ other, later.cells.size ≤ other → (final.set cell state).cell other = final.cell other := by
  have added : Moves more later [cell] more final (new ++ [cell]) :=
    .extend twins moves.apart grown nodup fresh
  have own : cell ∈ new ++ [cell] := List.mem_append_right _ (List.mem_singleton_self cell)
  -- The cell that is settled was in no pair before, and the new computations do not change that.
  have single : ∀ id, ¬ more id cell := added.apart.single cell own
  have there : cell < later.cells.size := moves.apart.inside cell List.mem_cons_self
  have settled : Moves more final (new ++ [cell]) more (final.set cell state) new :=
    (set added.apart own state).sublist (List.sublist_append_left new [cell])
  refine ⟨(twins.extend grown).set_single single state, (moves.trans added).trans settled,
    Store.cell_set_self (Nat.lt_of_lt_of_le there grown.1) state, fun other late => ?_⟩
  -- The new computations lie behind the one that is settled.
  exact Store.cell_set_of_ne (Nat.ne_of_gt (Nat.lt_of_lt_of_le there late)) state

/-- Computations that are in no pair either, but are not touched, stay as they are. -/
theorem beside (moves : Moves pairs right own more after new) (apart : Apart pairs right (own ++ others)) :
    Apart more after (new ++ others) ∧ ∀ cell ∈ others, after.cell cell = right.cell cell := by
  obtain ⟨-, nodup, disjoint⟩ := List.nodup_append.mp apart.nodup
  have inside (cell : ThunkId) (member : cell ∈ others) : cell < right.cells.size :=
    apart.inside cell (List.mem_append_right _ member)
  have single (cell : ThunkId) (member : cell ∈ others) : ∀ id, ¬ pairs id cell :=
    apart.single cell (List.mem_append_right _ member)
  -- What is new after a move comes from its own computations or was not there, and so is no other.
  refine ⟨⟨?_, ?_, ?_⟩, ?_⟩
  · refine List.nodup_append.mpr ⟨moves.apart.nodup, nodup, fun cell added other there same => ?_⟩
    obtain rfl := same
    rcases moves.among cell added with own | late
    · exact disjoint cell own cell there rfl
    · exact Nat.not_lt.mpr late (inside cell there)
  · intro cell member
    rcases List.mem_append.mp member with added | there
    · exact moves.apart.inside cell added
    · exact Nat.lt_of_lt_of_le (inside cell there) moves.size
  · intro cell member
    rcases List.mem_append.mp member with added | there
    · exact moves.apart.single cell added
    · exact moves.single (inside cell there) (single cell there)
  · intro cell member
    refine moves.alone cell (inside cell member) (single cell member) fun own => ?_
    exact disjoint cell own cell member rfl

end Moves

end LazyConfig
