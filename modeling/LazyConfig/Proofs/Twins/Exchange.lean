import LazyConfig.Proofs.Twins.Asides
import Mathlib.Logic.Relation

/-!
Stores to which the same was added in another order. A new computation of the first store may stand for one that the
second store has already, and two pairings in a row make one.
-/

namespace LazyConfig

/-! Two pairings in a row. -/

section

variable {pairs more : Pairing}

/-- Computations that are paired one by one, twice in a row. -/
theorem paired_trans {ids images others : List ThunkId} (first : List.Forall₂ pairs ids images)
    (second : List.Forall₂ more images others) : List.Forall₂ (Relation.Comp pairs more) ids others := by
  induction first generalizing others with
  | nil =>
    cases second
    exact .nil
  | cons here _ ih =>
    cases second with
    | cons there rest => exact .cons ⟨_, here, there⟩ (ih rest)

/-- Entries that agree with entries that agree with others. -/
theorem EntriesAgree.trans {Key : Type} {entries images others : List (Key × ThunkId)}
    (first : EntriesAgree pairs entries images) (second : EntriesAgree more images others) :
    EntriesAgree (Relation.Comp pairs more) entries others :=
  .of_parts (first.keys.trans second.keys) (paired_trans first.values second.values)

theorem ListTwin.trans {items images others : LazyList} (first : ListTwin pairs items images)
    (second : ListTwin more images others) : ListTwin (Relation.Comp pairs more) items others := by
  -- The two relations agree on the form, and the computation in the middle joins their pairs.
  induction first generalizing others with
  | elems start paired =>
    cases second with
    | elems _ again => exact .elems start (paired_trans paired again)
  | range next stop =>
    cases second
    exact .range next stop
  | concat _ back ih =>
    cases second with
    | concat front again => exact .concat (ih front) ⟨_, back, again⟩

theorem ValueTwin.trans {value image other : Value} (first : ValueTwin pairs value image)
    (second : ValueTwin more image other) : ValueTwin (Relation.Comp pairs more) value other := by
  -- Values of one form each; the parts are related through those of the value in the middle.
  cases first with
  | int value => cases second; exact .int value
  | float value => cases second; exact .float value
  | bool value => cases second; exact .bool value
  | str text => cases second; exact .str text
  | host function => cases second; exact .host function
  | list same =>
    cases second with
    | list again => exact .list (same.trans again)
  | record same =>
    cases second with
    | record again => exact .record (EntriesAgree.trans same again)
  | closure same =>
    cases second with
    | closure again => exact .closure (EntriesAgree.trans same again)
  | builtin same =>
    cases second with
    | builtin again => exact .builtin (paired_trans same again)

theorem SuspensionTwin.trans {work image other : Suspension} (first : SuspensionTwin pairs work image)
    (second : SuspensionTwin more image other) : SuspensionTwin (Relation.Comp pairs more) work other := by
  cases first with
  | expr same =>
    cases second with
    | expr again => exact .expr (EntriesAgree.trans same again)
  | apply paired same =>
    cases second with
    | apply twice again => exact .apply ⟨_, paired, twice⟩ (paired_trans same again)
  | check type path paired =>
    cases second with
    | check _ _ twice => exact .check type path ⟨_, paired, twice⟩
  | checkList elem path index same =>
    cases second with
    | checkList _ _ _ again => exact .checkList elem path index (same.trans again)

theorem CellTwin.trans {cell image other : Cell} (first : CellTwin pairs cell image)
    (second : CellTwin more image other) : CellTwin (Relation.Comp pairs more) cell other := by
  cases first with
  | suspended same =>
    cases second with
    | suspended again => exact .suspended (same.trans again)
  | inProgress => cases second; exact .inProgress
  | forced same =>
    cases second with
    | forced again => exact .forced (same.trans again)
  | failed failure => cases second; exact .failed failure

end

namespace Twins

variable {pairs more : Pairing} {left middle right : Store}

/-- What stands for a computation that stands for another one stands for that one. -/
theorem trans (first : Twins pairs left middle) (second : Twins more middle right) :
    Twins (Relation.Comp pairs more) left right := by
  refine ⟨?_, ?_, ?_⟩
  · rintro id other ⟨image, here, there⟩
    exact ⟨(first.inside id image here).1, (second.inside image other there).2⟩
  · rintro id other next last ⟨image, here, there⟩ ⟨second_image, also, further⟩
    exact (first.matched here also).trans (second.matched there further)
  · rintro id other ⟨image, here, there⟩
    exact (first.cells id image here).trans (second.cells image other there)

/-- A new computation of the first store is paired with one that the second store has. -/
theorem adopt (twins : Twins pairs left right) {image : ThunkId} (there : image < right.cells.size)
    (single : ∀ id, ¬ pairs id image) {cell : Cell}
    (same : CellTwin (pairs.add left.cells.size image) cell (right.cell image)) :
    Twins (pairs.add left.cells.size image) (left.alloc cell).2 right := by
  -- The new computation is the next one of the first store; the second store stays as it is.
  refine ⟨?_, ?_, ?_⟩
  · rintro id other (paired | ⟨rfl, rfl⟩)
    · have less := twins.inside id other paired
      rw [Store.alloc_size]
      exact ⟨Nat.lt_succ_of_lt less.1, less.2⟩
    · rw [Store.alloc_size]
      exact ⟨Nat.lt_succ_self _, there⟩
  · -- Neither of the new pair is in another one.
    rintro id other first second (one | ⟨rfl, rfl⟩) (two | ⟨rfl, rfl⟩)
    · exact twins.matched one two
    · have less := (twins.inside id other one).1
      exact ⟨fun same => absurd same (Nat.ne_of_lt less), fun same => absurd (same ▸ one) (single id)⟩
    · have less := (twins.inside first second two).1
      exact ⟨fun same => absurd same (Nat.ne_of_gt less), fun same => absurd (same ▸ two) (single first)⟩
    · exact ⟨fun _ => rfl, fun _ => rfl⟩
  · rintro id other (paired | ⟨rfl, rfl⟩)
    · rw [(left.alloc_extends cell).2 id (twins.inside id other paired).1]
      exact (twins.cells id other paired).mono fun _ _ => .inl
    · rw [Store.cell_alloc, if_pos rfl]
      exact same

end Twins

end LazyConfig
