import LazyConfig.Depth
import Mathlib.Data.List.Nodup
import Mathlib.Logic.Relation

/-!
Guards of a nesting counter. A level that is entered comes with a guard, and dropping the guard leaves the level.
Guards are dropped in any order, and the counter is always the number of those that are live.
-/

namespace LazyConfig

/-- The guard of a level, which is one of those that a meter has given out. -/
abbrev LevelGuard := Nat

/-- A meter together with its live guards, the newest first, and the number of guards given out so far. -/
structure GuardedMeter where
  meter : DepthMeter
  live : List LevelGuard := []
  issued : Nat := 0
  deriving DecidableEq

namespace GuardedMeter

/-- A meter on which no level has been entered. -/
def ofLimit (limit : Nat) : GuardedMeter where
  meter := { limit }

/-- Enters one more level, which comes with a new guard; there is none if the entry is refused. -/
def enter (guarded : GuardedMeter) : Option LevelGuard × GuardedMeter :=
  match guarded.meter.enter? with
  | some meter => (some guarded.issued, ⟨meter, guarded.issued :: guarded.live, guarded.issued + 1⟩)
  | none => (none, guarded)

/-- Drops a guard, which leaves one level. -/
def drop (guarded : GuardedMeter) (guard : LevelGuard) : GuardedMeter :=
  { guarded with meter := guarded.meter.leave, live := guarded.live.erase guard }

/-- What can be done with a meter: a level is tried to be entered, or any guard that is still live is dropped. -/
inductive Next : GuardedMeter → GuardedMeter → Prop
  | enter (guarded : GuardedMeter) : Next guarded guarded.enter.2
  | drop (guarded : GuardedMeter) {guard : LevelGuard} (live : guard ∈ guarded.live) :
    Next guarded (guarded.drop guard)

/-- Entries and drops one after another, in any order. -/
abbrev Reaches : GuardedMeter → GuardedMeter → Prop :=
  Relation.ReflTransGen Next

/-- What holds of a meter at any time: each live guard stands for one of the levels that are counted. -/
structure Balanced (limit : Nat) (guarded : GuardedMeter) : Prop where
  limited : guarded.meter.limit = limit
  counted : guarded.meter.current = guarded.live.length
  bounded : guarded.meter.current ≤ limit
  distinct : guarded.live.Nodup
  known : ∀ guard ∈ guarded.live, guard < guarded.issued

variable {limit : Nat} {guarded later : GuardedMeter} {guard : LevelGuard}

/-- Below the limit an entry gives a new guard and counts one more level. -/
theorem enter_of_lt (room : guarded.meter.current < guarded.meter.limit) :
    guarded.enter = (some guarded.issued,
      ⟨⟨guarded.meter.limit, guarded.meter.current + 1⟩, guarded.issued :: guarded.live, guarded.issued + 1⟩) := by
  simp [enter, DepthMeter.enter?, room]

/-- At the limit an entry is refused, and nothing has changed. -/
theorem enter_of_not_lt (full : ¬ guarded.meter.current < guarded.meter.limit) : guarded.enter = (none, guarded) := by
  simp [enter, DepthMeter.enter?, full]

/-- A meter starts without levels and without guards. -/
theorem Balanced.ofLimit (limit : Nat) : (ofLimit limit).Balanced limit :=
  ⟨rfl, rfl, Nat.zero_le _, .nil, nofun⟩

/-- An entry keeps the balance, whether it is refused or not. -/
theorem Balanced.enter (balanced : guarded.Balanced limit) : guarded.enter.2.Balanced limit := by
  by_cases room : guarded.meter.current < guarded.meter.limit
  · rw [enter_of_lt room]
    have fresh : guarded.issued ∉ guarded.live := fun member => Nat.lt_irrefl _ (balanced.known _ member)
    refine ⟨balanced.limited, ?_, ?_, balanced.distinct.cons fresh, fun guard member => ?_⟩
    · simp [balanced.counted]
    · exact balanced.limited ▸ room
    · rcases List.mem_cons.mp member with rfl | old
      · exact Nat.lt_succ_self _
      · exact Nat.lt_succ_of_lt (balanced.known guard old)
  · rwa [enter_of_not_lt room]

/-- While a guard is live there is a level to leave. -/
theorem Balanced.positive (balanced : guarded.Balanced limit) (live : guard ∈ guarded.live) :
    0 < guarded.meter.current := by
  rw [balanced.counted]
  exact List.length_pos_of_mem live

/-- Dropping a live guard keeps the balance, whichever guard it is. -/
theorem Balanced.drop (balanced : guarded.Balanced limit) (live : guard ∈ guarded.live) :
    (guarded.drop guard).Balanced limit := by
  have counted := balanced.counted
  have bounded := balanced.bounded
  refine ⟨balanced.limited, ?_, ?_, balanced.distinct.erase guard, fun other member => ?_⟩
  · simp only [GuardedMeter.drop, DepthMeter.leave, List.length_erase_of_mem live, counted]
  · simp only [GuardedMeter.drop, DepthMeter.leave]
    omega
  · exact balanced.known other (List.mem_of_mem_erase member)

/-- Each step keeps the balance. -/
theorem Next.balanced (next : Next guarded later) (balanced : guarded.Balanced limit) : later.Balanced limit := by
  cases next with
  | enter => exact balanced.enter
  | drop live => exact balanced.drop live

/-- However levels are entered and guards are dropped, the balance is kept. -/
theorem Reaches.balanced (reached : Reaches (ofLimit limit) guarded) : guarded.Balanced limit := by
  induction reached with
  | refl => exact .ofLimit limit
  | tail _ next ih => exact next.balanced ih

/--
However levels are entered and guards are dropped, the counter is the number of live guards and at most the limit. An
entry succeeds exactly below the limit, and then there is one more level with a guard of its own; a refused entry
changes nothing. Dropping a guard takes one level away, so there is one to be taken away, and leaves the other guards.
-/
theorem depth_accounts_for_guards (reached : Reaches (ofLimit limit) guarded) :
    (guarded.meter.limit = limit ∧ guarded.meter.current = guarded.live.length ∧ guarded.live.Nodup ∧
      guarded.meter.current ≤ limit) ∧
    (∀ outcome later, guarded.enter = (outcome, later) →
      (outcome.isSome = true ↔ guarded.meter.current < limit) ∧
      (∀ guard, outcome = some guard → guard ∉ guarded.live ∧ later.live = guard :: guarded.live ∧
        later.meter.current = guarded.meter.current + 1) ∧
      (outcome = none → later = guarded)) ∧
    ∀ guard ∈ guarded.live, (guarded.drop guard).meter.current + 1 = guarded.meter.current ∧
      ∀ other, other ∈ (guarded.drop guard).live ↔ other ≠ guard ∧ other ∈ guarded.live := by
  have balanced := reached.balanced
  refine ⟨⟨balanced.limited, balanced.counted, balanced.distinct, balanced.bounded⟩, fun outcome later entered => ?_,
    fun guard live => ⟨?_, fun other => balanced.distinct.mem_erase_iff⟩⟩
  · rw [← balanced.limited]
    by_cases room : guarded.meter.current < guarded.meter.limit
    · -- The guard is new, since all that are live were given out before.
      rw [enter_of_lt room] at entered
      obtain ⟨rfl, rfl⟩ := Prod.mk.inj entered
      refine ⟨by simpa using room, fun guard given => ?_, nofun⟩
      obtain rfl := Option.some.inj given
      exact ⟨fun member => Nat.lt_irrefl _ (balanced.known _ member), rfl, rfl⟩
    · rw [enter_of_not_lt room] at entered
      obtain ⟨rfl, rfl⟩ := Prod.mk.inj entered
      exact ⟨by simpa using room, nofun, fun _ => rfl⟩
  · -- The subtraction is exact, because the guard stands for a level that is counted.
    exact Nat.sub_add_cancel (balanced.positive live)

example : (ofLimit 0).enter = (none, ofLimit 0) := rfl

/-- With two levels entered on a limit of two, a third is refused; once the older guard is dropped there is room again. -/
theorem depth_accounts_for_guards_olderFirst :
    let full : GuardedMeter := (ofLimit 2).enter.2.enter.2
    let freed : GuardedMeter := full.drop 0
    full.live = [1, 0] ∧ full.meter.current = 2 ∧ full.enter = (none, full) ∧ freed.live = [1] ∧
      freed.meter.current = 1 ∧ freed.enter.1.isSome = true ∧ (freed.drop 1).meter.current = 0 := by
  intro full freed
  have entered : Reaches (ofLimit 2) full := (Relation.ReflTransGen.single (.enter _)).tail (.enter _)
  have dropped : Reaches (ofLimit 2) freed := entered.tail (.drop full (by decide))
  obtain ⟨⟨-, counted, -⟩, enter, -⟩ := depth_accounts_for_guards entered
  obtain ⟨⟨-, one, -⟩, enters, further⟩ := depth_accounts_for_guards dropped
  have two : full.meter.current = 2 := counted.trans rfl
  have left : freed.meter.current = 1 := one.trans rfl
  have room : freed.enter.1.isSome = true := (enters _ _ rfl).1.mpr (by omega)
  have refused : full.enter.2 = full := (enter _ _ rfl).2.2 rfl
  have last := (further 1 (by decide)).1
  exact ⟨rfl, two, Prod.ext rfl refused, rfl, left, room, by omega⟩

end GuardedMeter

end LazyConfig
