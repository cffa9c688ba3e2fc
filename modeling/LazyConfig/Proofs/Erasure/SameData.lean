import LazyConfig.Proofs.ByName.Adequacy
import LazyConfig.Proofs.Erasure.Runs

/-!
Annotations can be erased. They never change data, and all that a program gains from them is that it
may fail for the type; in particular they evaluate nothing that is not evaluated anyway.
-/

namespace LazyConfig

open ByName

/-- The evaluation of a program ends with a value that has the given data. -/
def Program.HasData (program : Program) (settings : Settings) (annotations : Annotations)
    (data : Data) : Prop :=
  ∃ fuel value store, program.evaluate settings annotations [] fuel = some ⟨.ok value, store⟩ ∧
    store.Holds value data

section Evaluate

variable {program : Program} {settings : Settings} {annotations : Annotations} {data : Data}
  {result : ByName.Value}

/-- A program that comes to a value by name has its data with a store, or meets the limit. -/
theorem hasData_of_reaches (deep : settings.deepForce = true)
    (reached : Reaches (program.context annotations) (ByName.start settings program.root)
      ⟨.give result, []⟩) :
    (∃ data, result.Holds (program.context annotations) data ∧
      program.HasData settings annotations data) ∨
      program.Fails settings annotations .stackOverflow := by
  obtain ⟨rounds, ran⟩ := reached
  rcases evaluate_of_value ran with ⟨fuel, value, store, answered, same⟩ | ⟨-, overflow⟩
  · obtain ⟨data, holds, given⟩ := same.whole deep
    exact .inl ⟨data, given, fuel, value, store, answered, holds⟩
  · exact .inr overflow

/-- A program that fails by name fails for a reason of the same kind, or meets the limit. -/
theorem fails_of_reaches {variant : Variant}
    (reached : Reaches (program.context annotations) (ByName.start settings program.root)
      ⟨.raise variant, []⟩) :
    program.Fails settings annotations variant ∨
      program.Fails settings annotations .stackOverflow := by
  obtain ⟨rounds, ran⟩ := reached
  exact (evaluate_of_failure ran).imp_right And.right

end Evaluate

/-- A program whose annotations are resolved. -/
def Program.annotated (program : Program) (annotations : Annotations)
    (sound : annotations.graph.Sound) : Annotated :=
  ⟨program.names, program.code, annotations, program.root + 1, sound⟩

/-- Evaluation starts at the same point with annotations and without. -/
theorem erases_start {program : Program} {annotations : Annotations} {settings others : Settings}
    (deep : settings.deepForce = true) (otherDeep : others.deepForce = true)
    (sound : annotations.graph.Sound)
    (covers : annotations.Covers program.code (program.root + 1) program.root) :
    Erases (program.annotated annotations sound) (ByName.start settings program.root)
      (ByName.start others program.root) := by
  rw [ByName.start, ByName.start, if_pos deep, if_pos otherDeep]
  exact .eval covers rfl .nil (.frame .deepen .nil)

/--
Erasure. A program whose annotations are resolved has none left to resolve when they are erased. If
it evaluates to data, so does the erased program, to the same data. If the erased program evaluates
to data, so does the program, or one of its checks fails. All this is up to the limits of levels,
which may be different for the two.
-/
theorem erase_same_data (program : Program) (settings others : Settings)
    (deep : settings.deepForce = true) (otherDeep : others.deepForce = true)
    (annotations : Annotations) (resolved : program.annotations = .ok annotations) :
    ∃ bare, program.erase.annotations = .ok bare ∧
      (∀ fuel value store,
        program.evaluate settings annotations [] fuel = some ⟨.ok value, store⟩ →
          ∃ data, store.Holds value data ∧
            (program.erase.HasData others bare data ∨
              program.erase.Fails others bare .stackOverflow)) ∧
      ∀ fuel value store,
        program.erase.evaluate others bare [] fuel = some ⟨.ok value, store⟩ →
          ∃ data, store.Holds value data ∧
            (program.HasData settings annotations data ∨
              program.Fails settings annotations .typeMismatch ∨
              program.Fails settings annotations .stackOverflow) := by
  obtain ⟨sound, covers⟩ := Annotations.ofRoot_ok resolved
  have erases := erases_start deep otherDeep sound covers
  refine ⟨{}, covers.visit_erase (Nat.le_refl _) {}, ?_, ?_⟩
  · -- By name the value with annotations is a value without, which the erased program comes to as
    -- well.
    intro fuel value store answered
    obtain ⟨result, reached, same⟩ := evaluate_value answered
    obtain ⟨data, holds, given⟩ := same.whole deep
    obtain ⟨bare, erased, passed⟩ := @Erases.bare_value _ {} _ _ erases _ reached
    refine ⟨data, holds, ?_⟩
    have ends : Reaches (program.erase.context {}) (ByName.start others program.erase.root)
      ⟨.give bare, []⟩ := passed
    rcases hasData_of_reaches otherDeep ends with ⟨other, bareGiven, found⟩ | overflow
    · rw [erased.same_data given bareGiven]
      exact .inl found
    · exact .inr overflow
  · -- The other way round a check may fail, and then the program fails with it.
    intro fuel value store answered
    obtain ⟨bare, reached, same⟩ := evaluate_value answered
    obtain ⟨data, holds, given⟩ := same.whole otherDeep
    refine ⟨data, holds, ?_⟩
    rcases @Erases.annotated_value _ {} _ _ erases _ reached with ⟨result, erased, passed⟩ | failed
    · have ends : Reaches (program.context annotations) (ByName.start settings program.root)
        ⟨.give result, []⟩ := passed
      rcases hasData_of_reaches deep ends with ⟨other, otherGiven, found⟩ | overflow
      · rw [← erased.same_data otherGiven given]
        exact .inl found
      · exact .inr (.inr overflow)
    · exact .inr (fails_of_reaches failed)

/-- The code of `typealias T = List Num in let xs = ([1] ++ xs : T) in [head xs]`. -/
def endlessOnes : Code where
  exprs := #[.int 1, .list [0], .ident 1, .binary .concat 1 2, .ascribe 3 2, .builtin .head [2],
    .list [5], .letIn 1 4 6, .aliases [⟨0, 1⟩] 7]
  types := #[.num, .list 0, .aliasRef 0]

/-- An endless list is checked no further than it is needed, and the head is the same unchecked. -/
theorem erase_same_data_endlessOnes :
    ∃ annotations bare, (Program.mk {} endlessOnes 8).annotations = .ok annotations ∧
      (Program.mk {} endlessOnes 8).erase.annotations = .ok bare ∧
      ∃ data, (Program.mk {} endlessOnes 8).HasData {} annotations data ∧
        ((Program.mk {} endlessOnes 8).erase.HasData {} bare data ∨
          (Program.mk {} endlessOnes 8).erase.Fails {} bare .stackOverflow) := by
  obtain ⟨bare, unannotated, forward, -⟩ :=
    erase_same_data ⟨{}, endlessOnes, 8⟩ {} {} rfl rfl _ rfl
  obtain ⟨data, holds, same⟩ := forward 60 _ _ rfl
  exact ⟨_, bare, rfl, unannotated, data, ⟨60, _, _, rfl, holds⟩, same⟩

end LazyConfig
