import LazyConfig.Proofs.Records.Literals
import LazyConfig.Proofs.Suspending.Adopted

/-!
Record literals whose fields are written in another order. What a field is put off as in the first order stands for
what it is put off as in the second one, wherever that is in the store.
-/

namespace LazyConfig

namespace Twins

variable {pairs : Pairing} {left right base : Store} {context : Context} {env : Env}

/-- What a field is put off as stands for what it was put off as before. -/
theorem adopts_suspendField (twins : Twins pairs left right) (field : Field) (binds : EnvTwin pairs env env)
    (leaves : pairs.Leaves right base (context.suspendField env field base).2) :
    ∃ more, pairs.Adopts right base (context.suspendField env field left) (context.suspendField env field base) more := by
  -- A field is checked if it has a type that is resolved; otherwise its value is all there is to
  -- put off.
  cases checked : field.type.bind context.annotations.get? with
  | none =>
    have put (store : Store) : context.suspendField env field store = context.suspend store field.value env := by
      simp only [Context.suspendField, checked]
    rw [put] at leaves
    rw [put, put]
    exact twins.adopts_suspend field.value binds leaves
  | some type =>
    have put (store : Store) : context.suspendField env field store =
        (context.suspend store field.value env).2.suspend
          (.check (context.suspend store field.value env).1 type (Path.root.field (context.nameOf field))) := by
      simp only [Context.suspendField, checked]
    rw [put] at leaves
    rw [put, put]
    -- The value is put off first, and then the check that asks for it.
    have low := (context.suspend_extends base field.value env).1
    have grown := (context.suspend base field.value env).2.suspend_extends
      (.check (context.suspend base field.value env).1 type (Path.root.field (context.nameOf field)))
    obtain ⟨middle, first⟩ := twins.adopts_suspend field.value binds (leaves.first grown)
    have second := first.twins.adopts (context.suspend left field.value env).2.closures
      (first.leaves (leaves.last low)) (.suspended (.check type _ (.inl first.paired)))
    exact ⟨_, first.trans second low grown.1⟩

/-- A field is put off in both stores. -/
theorem suspendField (twins : Twins pairs left right) (context : Context) (field : Field) (binds : EnvTwin pairs env env) :
    TwinsAfter pairs right (context.suspendField env field left).2 (context.suspendField env field right).2 fun more =>
      more (context.suspendField env field left).1 (context.suspendField env field right).1 := by
  unfold Context.suspendField
  cases field.type.bind context.annotations.get? with
  | none => exact twins.suspendExpr context binds field.value
  | some type =>
    exact (twins.suspendExpr context binds field.value).bind fun _ _ between first =>
      between.suspend (.check type _ first)

/-- Fields are put off in both stores. -/
theorem suspendEntries (twins : Twins pairs left right) (context : Context) (fields : List Field)
    (binds : EnvTwin pairs env env) :
    TwinsAfter pairs right (context.suspendEntries env fields left).2 (context.suspendEntries env fields right).2 fun more =>
      EntriesAgree more (context.suspendEntries env fields left).1 (context.suspendEntries env fields right).1 := by
  induction fields generalizing pairs left right with
  | nil => exact .same twins .nil
  | cons field rest ih =>
    refine (twins.suspendField context field binds).bind fun middle grown between first => ?_
    refine (ih between (agree_mono grown.keeps binds)).imp fun more further others => ?_
    exact .cons ⟨rfl, further.keeps _ _ first⟩ others

end Twins

namespace Context

variable (context : Context) {env : Env} {store : Store}

/-- Putting off a field adds to the store only. -/
theorem suspendField_extends (env : Env) (field : Field) (store : Store) :
    store.Extends (context.suspendField env field store).2 := by
  have first := context.suspend_extends store field.value env
  unfold suspendField
  cases field.type.bind context.annotations.get? with
  | none => exact first
  | some type => exact first.trans (Store.suspend_extends _ _)

/-- Putting off fields adds to the store only. -/
theorem suspendEntries_extends (env : Env) (fields : List Field) (store : Store) :
    store.Extends (context.suspendEntries env fields store).2 := by
  induction fields generalizing store with
  | nil => exact .refl store
  | cons field rest ih => exact (context.suspendField_extends env field store).trans (ih _)

/-- Putting off a field notes no call. -/
theorem suspendField_calls (env : Env) (field : Field) (store : Store) :
    (context.suspendField env field store).2.calls = store.calls := by
  unfold suspendField
  cases field.type.bind context.annotations.get? with
  | none => exact context.suspend_calls store field.value env
  | some type => exact context.suspend_calls store field.value env

/-- Putting off fields notes no call. -/
theorem suspendEntries_calls (env : Env) (fields : List Field) (store : Store) :
    (context.suspendEntries env fields store).2.calls = store.calls := by
  induction fields generalizing store with
  | nil => rfl
  | cons field rest ih => exact (ih _).trans (context.suspendField_calls env field store)

/-- A field is put off within the store. -/
theorem suspendField_within (closed : store.Closed) (bound : env.Within store.cells.size) (field : Field) :
    (context.suspendField env field store).2.Closed ∧
      (context.suspendField env field store).1 < (context.suspendField env field store).2.cells.size := by
  obtain ⟨grows, inside⟩ := @suspend_grows .all context store env Bounds.all_fits field.value trivial bound
  unfold suspendField
  cases field.type.bind context.annotations.get? with
  | none => exact ⟨grows.within closed, inside⟩
  | some type =>
    have work : Suspension.Within .all (context.suspend store field.value env).2.cells.size
      (.check (context.suspend store field.value env).1 type (Path.root.field (context.nameOf field))) := inside
    obtain ⟨further, placed⟩ := Store.suspend_grows work
    exact ⟨further.within (grows.within closed), placed⟩

/-- Two fields are put off in either order. -/
theorem suspendField_swap (closed : store.Closed) (bound : env.Within store.cells.size) (first second : Field) :
    let one := context.suspendField env first store
    let both := context.suspendField env second one.2
    let other := context.suspendField env second store
    let all := context.suspendField env first other.2
    ∃ pairs : Pairing, (∀ id < store.cells.size, pairs id id) ∧ Twins pairs both.2 all.2 ∧
      pairs one.1 all.1 ∧ pairs both.1 other.1 := by
  intro one both other all
  have grown : store.Extends other.2 := context.suspendField_extends env second store
  have further : other.2.Extends all.2 := context.suspendField_extends env first other.2
  have alike : Twins (.below store.cells.size) store all.2 := Store.Within.twins closed (grown.trans further)
  have binds : EnvTwin (.below store.cells.size) env env := Env.Within.twin bound
  -- Nothing stands for what is new in the second store.
  have leaves {made : Store} (within : made.Extends all.2) :
      Pairing.Leaves (.below store.cells.size) all.2 store made :=
    fun image least most => ⟨Nat.lt_of_lt_of_le most within.1, within.2 image most,
      fun _ paired => absurd (paired.2 ▸ paired.1) (Nat.not_lt.mpr least)⟩
  obtain ⟨middle, adopts⟩ := alike.adopts_suspendField first binds ((leaves (.refl all.2)).last grown.1)
  have kept : middle.Leaves all.2 store other.2 := by
    intro image least most
    obtain ⟨inside, same, single⟩ := leaves further image least most
    refine ⟨inside, same, fun id paired => ?_⟩
    -- What the first field is put off as comes later in the second store.
    rcases adopts.fresh id image paired with before | ⟨low, -⟩
    · exact single id before
    · exact absurd most (Nat.not_lt.mpr low)
  obtain ⟨more, final⟩ := adopts.twins.adopts_suspendField second (agree_mono adopts.keeps binds) kept
  exact ⟨more, fun id inside => final.keeps id id (adopts.keeps id id ⟨inside, rfl⟩), final.twins,
    final.keeps _ _ adopts.paired, final.paired⟩

/-- Entries of the first store agree with those of the second one in some order. -/
def EntriesMatch (pairs : Pairing) (entries others : List Entry) : Prop :=
  ∃ images, EntriesAgree pairs entries images ∧ images.Perm others

/-- Fields that are put off in another order are the same, wherever they are in the store. -/
theorem suspendEntries_perm {fields others : List Field} (perm : fields.Perm others) (closed : store.Closed)
    (bound : env.Within store.cells.size) :
    ∃ pairs : Pairing, (∀ id < store.cells.size, pairs id id) ∧
      Twins pairs (context.suspendEntries env fields store).2 (context.suspendEntries env others store).2 ∧
      EntriesMatch pairs (context.suspendEntries env fields store).1 (context.suspendEntries env others store).1 := by
  -- By induction on the permutation: neighbours are exchanged in the store by the pairing.
  induction perm generalizing store with
  | nil =>
    exact ⟨.below store.cells.size, fun id inside => ⟨inside, rfl⟩, Store.Within.twins closed (.refl store), [], .nil, .nil⟩
  | cons field _ ih =>
    have grown := context.suspendField_extends env field store
    obtain ⟨within, inside⟩ := context.suspendField_within closed bound field
    obtain ⟨pairs, same, twins, images, agree, perm⟩ := ih within (bound.grow grown.1)
    exact ⟨pairs, fun id less => same id (Nat.lt_of_lt_of_le less grown.1), twins, _ :: images,
      .cons ⟨rfl, same _ inside⟩ agree, perm.cons _⟩
  | swap second first rest =>
    obtain ⟨pairs, same, twins, left, right⟩ := context.suspendField_swap closed bound first second
    have binds : EnvTwin pairs env env :=
      agree_mono (fun id _ paired => paired.2 ▸ same id paired.1) (Env.Within.twin bound)
    obtain ⟨more, grows, alike, agree⟩ := twins.suspendEntries context rest binds
    refine ⟨more, fun id inside => grows.keeps id id (same id inside), alike,
      (context.nameOf first, _) :: (context.nameOf second, _) :: _, ?_, .swap _ _ _⟩
    exact .cons ⟨rfl, grows.keeps _ _ left⟩ (.cons ⟨rfl, grows.keeps _ _ right⟩ agree)
  | trans _ _ first second =>
    obtain ⟨pairs, same, twins, images, agree, perm⟩ := first closed bound
    obtain ⟨more, still, alike, others, agrees, permed⟩ := second closed bound
    obtain ⟨lasts, matched, final⟩ := List.perm_comp_forall₂ perm agrees
    exact ⟨Relation.Comp pairs more, fun id inside => ⟨id, same id inside, still id inside⟩, twins.trans alike, lasts,
      agree.trans matched, final.trans permed⟩

end Context

end LazyConfig
