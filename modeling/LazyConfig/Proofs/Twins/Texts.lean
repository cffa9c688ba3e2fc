import LazyConfig.Proofs.Twins.Stores
import LazyConfig.Value.Text

/-!
Values of the same form have the same text. A text shows how far the parts of a value have come, and paired
computations have come equally far.
-/

namespace LazyConfig

/-- Elements that are there, as seen in both stores. -/
inductive VisibleTwin (pairs : Pairing) : Visible → Visible → Prop
  | thunk {id other : ThunkId} (paired : pairs id other) : VisibleTwin pairs (.thunk id) (.thunk other)
  | int (value : Int64) : VisibleTwin pairs (.int value) (.int value)

/-- Pieces for which the same is written. -/
inductive PieceTwin (pairs : Pairing) : Piece → Piece → Prop
  | text (text : String) : PieceTwin pairs (.text text) (.text text)
  | value {value other : Value} (same : ValueTwin pairs value other) :
    PieceTwin pairs (.value value) (.value other)
  | element {element other : Visible} (same : VisibleTwin pairs element other) :
    PieceTwin pairs (.element element) (.element other)

/-- The elements that a walk has seen, and whether these are all. -/
def SeenTwin (pairs : Pairing) (seen other : Array Visible × Bool) : Prop :=
  List.Forall₂ (VisibleTwin pairs) seen.1.toList other.1.toList ∧ seen.2 = other.2

/-- Pieces with commas between them are written alike if the pieces are. -/
theorem commas_twin {pairs : Pairing} {pieces images : List (List Piece)}
    (same : List.Forall₂ (List.Forall₂ (PieceTwin pairs)) pieces images) :
    List.Forall₂ (PieceTwin pairs) (Piece.commas pieces) (Piece.commas images) := by
  induction same with
  | nil => exact .nil
  | cons first rest ih =>
    cases rest with
    | nil => exact first
    -- A comma stands between two groups of pieces only.
    | cons second others => exact List.rel_append first (.cons (.text _) ih)

namespace Twins

variable {pairs : Pairing} {left right : Store} (twins : Twins pairs left right)
include twins

/-- What can be read off a computation is of the same form for its twin. -/
theorem peek? {id other : ThunkId} (paired : pairs id other) :
    Option.Rel (ValueTwin pairs) (left.peek? id) (right.peek? other) := by
  have cells := twins.cells id other paired
  unfold Store.peek?
  generalize left.cell id = cell at cells
  generalize right.cell other = image at cells
  cases cells with
  | forced same => exact .some same
  | _ => exact .none

theorem visible? {element other : Visible} (same : VisibleTwin pairs element other) :
    Option.Rel (ValueTwin pairs) (left.visible? element) (right.visible? other) := by
  cases same with
  | thunk paired => exact twins.peek? paired
  | int value => exact .some (.int value)

/-- A right part is evaluated to a list in both stores or in none. -/
theorem evaluatedList? {id other : ThunkId} (paired : pairs id other) :
    Option.Rel (ListTwin pairs) (left.evaluatedList? id) (right.evaluatedList? other) := by
  have found := twins.peek? paired
  unfold Store.evaluatedList?
  generalize left.peek? id = one at found
  generalize right.peek? other = two at found
  cases found with
  | none => exact .none
  | some same =>
    cases same with
    | list same => exact .some same
    | _ => exact .none

/-- The elements that are there are paired, and come to an end together. -/
theorem walk (limit : Option Nat) (fuel : Nat) {parts images : List (Option LazyList)}
    (same : List.Forall₂ (Option.Rel (ListTwin pairs)) parts images) {seen others : Array Visible}
    (before : List.Forall₂ (VisibleTwin pairs) seen.toList others.toList) :
    Option.Rel (SeenTwin pairs) (left.walk limit fuel parts seen)
      (right.walk limit fuel images others) := by
  induction fuel generalizing parts images seen others with
  | zero => exact .none
  | succ fuel ih =>
    have count : seen.size = others.size := by simpa using before.length_eq
    cases same with
    | nil => exact .some ⟨before, rfl⟩
    | cons first rest =>
      cases first with
      | none => exact .some ⟨before, rfl⟩
      | some list =>
        cases list with
        | @elems items elements start paired =>
          have size : items.size = elements.size := by simpa using paired.length_eq
          simp only [Store.walk, count, size]
          generalize Store.roomFor limit others.size (elements.size - start) = room
          -- The elements that there is room for are the same stretch of both arrays.
          have found : List.Forall₂ (VisibleTwin pairs)
              (seen ++ (items.extract start (start + room)).map Visible.thunk).toList
              (others ++ (elements.extract start (start + room)).map Visible.thunk).toList := by
            simp only [Array.toList_append, Array.toList_map, Array.toList_extract, List.extract]
            refine List.rel_append before ?_
            rw [List.forall₂_map_left_iff, List.forall₂_map_right_iff]
            exact (List.forall₂_take _ (List.forall₂_drop _ paired)).imp fun _ _ => .thunk
          split
          · exact .some ⟨found, rfl⟩
          · exact ih rest found
        -- The integers that there is room for are the same on both sides, and are shown without a
        -- place of their own.
        | range next stop =>
          simp only [Store.walk, count]
          have found (room : Nat) : List.Forall₂ (VisibleTwin pairs)
              (seen ++ (Array.range room).map fun n => Visible.int (next + Int64.ofNat n)).toList
              (others ++ (Array.range room).map fun n => Visible.int (next + Int64.ofNat n)).toList := by
            simp only [Array.toList_append, Array.toList_map]
            refine List.rel_append before ?_
            rw [List.forall₂_map_left_iff, List.forall₂_map_right_iff, List.forall₂_same]
            exact fun _ _ => .int _
          split
          · exact .some ⟨found _, rfl⟩
          · exact ih rest (found _)
        -- A joined list is taken apart; its right part is looked at only if it is an evaluated
        -- list.
        | concat front back =>
          exact ih (.cons (.some front) (.cons (twins.evaluatedList? back) rest)) before

theorem elements? (fuel : Nat) (limit : Option Nat) {items others : LazyList}
    (same : ListTwin pairs items others) :
    Option.Rel (SeenTwin pairs) (left.elements? fuel limit items)
      (right.elements? fuel limit others) :=
  twins.walk limit fuel (.cons (.some same) .nil) .nil

/-- Pieces for which the same is written, in place of a value and before what comes after it. -/
theorem write (fuel : Nat) {pieces images : List Piece}
    (same : List.Forall₂ (PieceTwin pairs) pieces images) (out : String) :
    left.write fuel pieces out = right.write fuel images out := by
  induction fuel generalizing pieces images out with
  | zero => rfl
  | succ fuel ih =>
    cases same with
    | nil => rfl
    | cons first rest =>
      cases first with
      | text text => exact ih rest _
      | @element element other same =>
        -- A computation that is not evaluated is written the same way in both stores, without
        -- looking into it.
        have found := twins.visible? same
        simp only [Store.write]
        generalize left.visible? element = one at found
        generalize right.visible? other = two at found
        cases found with
        | none => exact ih rest _
        | some same => exact ih (.cons (.value same) rest) _
      | value same =>
        cases same with
        | @list items others same =>
          have found := twins.elements? fuel (some displayLimit) same
          simp only [Store.write]
          generalize left.elements? fuel (some displayLimit) items = one at found
          generalize right.elements? fuel (some displayLimit) others = two at found
          cases found with
          | none => rfl
          | @some seen shown same =>
            obtain ⟨seen, complete⟩ := seen
            obtain ⟨shown, _⟩ := shown
            obtain ⟨same, rfl⟩ := same
            dsimp only
            -- The elements that are shown are the pieces of the text, with dots for those left out.
            have elements : List.Forall₂ (List.Forall₂ (PieceTwin pairs))
                (seen.toList.map fun element => [.element element])
                (shown.toList.map fun element => [.element element]) := by
              rw [List.forall₂_map_left_iff, List.forall₂_map_right_iff]
              exact same.imp fun _ _ same => .cons (.element same) .nil
            refine ih (.cons (.text _) (List.rel_append (commas_twin ?_) (.cons (.text _) rest))) _
            split
            · exact elements
            · exact List.rel_append elements (.cons (.cons (.text _) .nil) .nil)
        | @record fields others same =>
          have empty : fields.isEmpty = others.isEmpty := by
            simpa [Record.isEmpty] using congrArg List.isEmpty same.keys
          simp only [Store.write, empty]
          split
          · exact ih rest _
          · refine ih (.cons (.text _) (List.rel_append (commas_twin ?_) (.cons (.text _) rest))) _
            rw [List.forall₂_map_left_iff, List.forall₂_map_right_iff]
            -- Each field is its name, which is the same, and its value, which is paired.
            refine same.imp fun entry other agree => ?_
            obtain ⟨name, id⟩ := entry
            obtain ⟨_, image⟩ := other
            obtain ⟨rfl, paired⟩ := agree
            exact .cons (.text _) (.cons (.element (.thunk paired)) .nil)
        | _ => exact ih rest _

/-- Values of the same form are quoted alike. -/
theorem quoted {value other : Value} (same : ValueTwin pairs value other) :
    left.quoted value = right.quoted other :=
  congrArg (·.getD "") (twins.write ample (.cons (.value same) .nil) "")

end Twins

end LazyConfig
