import LazyConfig.Types.Cycle
import Mathlib.Data.List.Chain
import Mathlib.Data.List.Nodup

/-!
The search for a circle in a group of aliases. What it comes to is a circle; where it comes to none, every chain
of definitions that are merely names for each other ends.
-/

namespace LazyConfig

/-- Positions that lead from one to the next and back to the first one, with none passed twice. -/
def IsCircle (leads : Nat → Nat → Prop) (circle : List Nat) : Prop :=
  ∃ first between, circle = first :: between ++ [first] ∧ (first :: between).Nodup ∧ circle.IsChain leads

namespace CycleSearch

variable {edges : Nat → List Nat} {marks after : Array Mark} {position other next : Nat}
  {path below : List (Nat × Nat)}

/-- The first edges of a definition lead to definitions that are done. -/
def Followed (edges : Nat → List Nat) (marks : Array Mark) (position count : Nat) : Prop :=
  ∀ other ∈ (edges position).take count, marks[other]? = some .done

/-- The path to a definition: each edge on it is the one that is being followed. -/
inductive Below (edges : Nat → List Nat) (marks : Array Mark) : Nat → List (Nat × Nat) → Prop
  | start {position : Nat} : Below edges marks position []
  | step {position earlier next : Nat} {below : List (Nat × Nat)} (edge : (edges earlier)[next]? = some position)
    (followed : Followed edges marks earlier next) (rest : Below edges marks earlier below) :
    Below edges marks position ((earlier, next + 1) :: below)

/-- What holds of a search between its turns. -/
structure Sound (edges : Nat → List Nat) (marks : Array Mark) (path : List (Nat × Nat)) : Prop where
  onPath : ∀ position : Nat, marks[position]? = some .onPath ↔ position ∈ path.map Prod.fst
  nodup : (path.map Prod.fst).Nodup
  trail : ∀ {position next below}, path = (position, next) :: below →
    Followed edges marks position next ∧ Below edges marks position below
  /-- No circle can be reached from what is done. -/
  done : ∀ position : Nat, marks[position]? = some .done → Acc (fun other earlier => other ∈ edges earlier) position

/-- What a search that has not come to a circle leaves behind. -/
structure Settles (edges : Nat → List Nat) (before after : Array Mark) : Prop where
  size : after.size = before.size
  left : ∀ position : Nat, after[position]? ≠ some .onPath
  visited : ∀ position : Nat, before[position]? ≠ some .unvisited → after[position]? ≠ some .unvisited
  done : ∀ position : Nat, after[position]? = some .done → Acc (fun other earlier => other ∈ edges earlier) position

/-- What has been followed stays so when more is marked. -/
theorem Followed.mono {count : Nat} (followed : Followed edges marks position count)
    (kept : ∀ other : Nat, marks[other]? = some .done → after[other]? = some .done) :
    Followed edges after position count :=
  fun other member => kept other (followed other member)

/-- A path stays one when more is marked. -/
theorem Below.mono (trail : Below edges marks position below)
    (kept : ∀ other : Nat, marks[other]? = some .done → after[other]? = some .done) :
    Below edges after position below := by
  induction trail with
  | start => exact .start
  | step edge followed rest ih => exact .step edge (followed.mono kept) ih

/-- One more edge has been followed when it leads to something that is done. -/
theorem Followed.succ (followed : Followed edges marks position next) (edge : (edges position)[next]? = some other)
    (found : marks[other]? = some .done) : Followed edges marks position (next + 1) := by
  intro target member
  rw [List.take_add_one, edge] at member
  rcases List.mem_append.mp member with earlier | here
  · exact followed target earlier
  · obtain rfl : target = other := by simpa using here
    exact found

/-- From the path to a definition there is a chain of edges to it. -/
theorem Below.isChain (trail : Below edges marks position below) :
    (position :: below.map Prod.fst).IsChain fun later earlier => later ∈ edges earlier := by
  induction trail with
  | start => exact .singleton _
  | step edge followed rest ih => exact .cons_cons (List.mem_of_getElem? edge) ih

/-- The first place of a definition in front of which it does not stand. -/
theorem idxOf?_append_self {front back : List Nat} (fresh : other ∉ front) :
    (front ++ other :: back).idxOf? other = some front.length := by
  induction front with
  | nil => simp [List.idxOf?_cons]
  | cons position front ih =>
    obtain ⟨apart, fresh⟩ : other ≠ position ∧ other ∉ front := by simpa using fresh
    have different : ¬ (position == other) = true := by simpa using apart.symm
    rw [List.cons_append, List.idxOf?_cons, if_neg different, ih fresh]
    rfl

/-- A path from a place in it on, and back to this place along an edge of its last definition. -/
theorem isCircle_circle {top : Nat} (chain : (top :: below.map Prod.fst).IsChain fun later earlier => later ∈ edges earlier)
    (nodup : (top :: below.map Prod.fst).Nodup) (edge : other ∈ edges top)
    (member : other ∈ top :: below.map Prod.fst) :
    IsCircle (fun earlier later => later ∈ edges earlier) (circle ((top, next) :: below) other) := by
  -- The circle is the part of the path from that place on, read in the order in which it was gone.
  obtain ⟨later, earlier, split⟩ := List.append_of_mem member
  rw [split] at nodup chain
  have fresh : other ∉ earlier.reverse := by
    simpa using (List.nodup_cons.mp (List.nodup_append.mp nodup).2.1).1
  have shown : circle ((top, next) :: below) other = other :: later.reverse ++ [other] := by
    have positions : (((top, next) :: below).map Prod.fst).reverse = earlier.reverse ++ other :: later.reverse := by
      simp [split]
    simp only [circle, positions, idxOf?_append_self fresh, Option.getD_some, List.drop_left]
  have part : (later ++ [other]).Nodup := by
    rw [List.append_cons] at nodup
    exact (List.nodup_append.mp nodup).1
  have linked : (later ++ [other]).IsChain fun later earlier => later ∈ edges earlier := by
    rw [List.append_cons] at chain
    exact chain.left_of_append
  -- The last definition of the path is the first one of the reversed part.
  have closed : (other :: later ++ [other]).IsChain fun later earlier => later ∈ edges earlier := by
    refine List.isChain_cons.mpr ⟨fun first here => ?_, linked⟩
    have same : (top :: below.map Prod.fst).head? = (later ++ [other]).head? := by
      rw [split]
      cases later <;> rfl
    obtain rfl : top = first := Option.some.inj (same.trans here)
    exact edge
  refine ⟨other, later.reverse, shown, ?_, ?_⟩
  · -- The reversed path is read forwards, which turns the direction of its edges and keeps its
    -- places distinct.
    have turned := List.nodup_reverse.mpr part
    simpa using turned
  · rw [shown]
    have turned := List.isChain_reverse.mpr closed
    simpa using turned

/-- Marking a definition that is not done leaves what is done. -/
theorem done_setIfInBounds {mark : Mark} (found : marks[position]? ≠ some .done) (other : Nat)
    (done : marks[other]? = some .done) : (marks.setIfInBounds position mark)[other]? = some .done := by
  have apart : position ≠ other := fun same => found (same ▸ done)
  rw [Array.getElem?_setIfInBounds_ne apart, done]

/-- A definition that is marked is one of those that have marks. -/
theorem lt_size_of_mark {mark : Mark} (found : marks[position]? = some mark) : position < marks.size :=
  (Array.getElem?_eq_some_iff.mp found).1

/-- A definition that is marked anew has the new mark, and every other one the mark that it had. -/
theorem getElem?_marked {mark : Mark} (found : marks[position]? = some mark) (new : Mark) (other : Nat) :
    (marks.setIfInBounds position new)[other]? = if position = other then some new else marks[other]? := by
  rw [Array.getElem?_setIfInBounds, if_pos (lt_size_of_mark found)]

namespace Sound

/-- Where the path has ended, nothing is left on it. -/
theorem settles (sound : Sound edges marks []) : Settles edges marks marks :=
  ⟨rfl, fun position found => by simpa using (sound.onPath position).mp found, fun _ kept => kept, sound.done⟩

/-- An edge to a definition that has not been visited makes the path longer. -/
theorem visit (sound : Sound edges marks ((position, next) :: below)) (edge : (edges position)[next]? = some other)
    (found : marks[other]? = some .unvisited) :
    Sound edges (marks.setIfInBounds other .onPath) ((other, 0) :: (position, next + 1) :: below) := by
  have unfinished : marks[other]? ≠ some .done := by simp [found]
  have kept := @done_setIfInBounds _ _ .onPath unfinished
  have here := getElem?_marked found .onPath
  have new : other ∉ ((position, next) :: below).map Prod.fst := fun member => by
    simp [(sound.onPath other).mpr member] at found
  obtain ⟨followed, trail⟩ := sound.trail rfl
  -- The new place is on the path and nowhere before it; all other marks stay as they were.
  refine ⟨fun place => ?_, List.nodup_cons.mpr ⟨new, sound.nodup⟩, fun shape => ?_, fun place done => ?_⟩
  · rw [here]
    by_cases same : other = place
    · simp [same]
    · simp [same, Ne.symm same, sound.onPath]
  · obtain ⟨rfl, rfl⟩ := Prod.mk.inj (List.cons.inj shape).1
    obtain rfl := (List.cons.inj shape).2
    exact ⟨by simp [Followed], .step edge (followed.mono kept) (trail.mono kept)⟩
  · rw [here] at done
    split at done
    · nomatch done
    · exact sound.done place done

/-- An edge to a definition that is done is passed. -/
theorem pass (sound : Sound edges marks ((position, next) :: below)) (edge : (edges position)[next]? = some other)
    (found : marks[other]? = some .done) : Sound edges marks ((position, next + 1) :: below) := by
  obtain ⟨followed, trail⟩ := sound.trail rfl
  refine ⟨sound.onPath, sound.nodup, fun shape => ?_, sound.done⟩
  obtain ⟨rfl, rfl⟩ := Prod.mk.inj (List.cons.inj shape).1
  obtain rfl := (List.cons.inj shape).2
  exact ⟨followed.succ edge found, trail⟩

/-- A definition whose edges have all been followed is done. -/
theorem leave (sound : Sound edges marks ((position, next) :: below)) (all : (edges position).length ≤ next) :
    Sound edges (marks.setIfInBounds position .done) below := by
  have found : marks[position]? = some .onPath := (sound.onPath position).mpr List.mem_cons_self
  have unfinished : marks[position]? ≠ some .done := by simp [found]
  have kept := @done_setIfInBounds _ _ .done unfinished
  have here := getElem?_marked found .done
  obtain ⟨new, nodup⟩ := List.nodup_cons.mp sound.nodup
  obtain ⟨followed, trail⟩ := sound.trail rfl
  -- The place leaves the path, and it is done because each of its edges leads to one that is done.
  refine ⟨fun place => ?_, nodup, fun shape => ?_, fun place done => ?_⟩
  · rw [here]
    by_cases same : position = place
    · subst same
      simp [new]
    · simp [same, Ne.symm same, sound.onPath]
  · subst shape
    cases trail with
    | step edge followed rest =>
      exact ⟨(followed.mono kept).succ edge ((here position).trans (if_pos rfl)), rest.mono kept⟩
  · rw [here] at done
    split at done
    · rename_i same
      subst same
      refine Acc.intro _ fun other member => sound.done other (followed other ?_)
      rwa [List.take_of_length_le all]
    · exact sound.done place done

end Sound

/-- A definition that has been marked is visited from then on. -/
theorem count_visited (marks : Array Mark) (position : Nat) {mark : Mark} (visited : mark ≠ .unvisited) :
    (marks.setIfInBounds position mark).count .unvisited ≤ marks.count .unvisited := by
  have other : ¬ (mark == .unvisited) = true := by simpa using visited
  rw [Array.setIfInBounds]
  split
  · rw [Array.count_set, if_neg other]
    omega
  · exact Nat.le_refl _

/-- Each definition is visited once. -/
theorem count_first (found : marks[position]? = some .unvisited) {mark : Mark} (visited : mark ≠ .unvisited) :
    (marks.setIfInBounds position mark).count .unvisited < marks.count .unvisited := by
  have other : ¬ (mark == .unvisited) = true := by simpa using visited
  obtain ⟨inside, here⟩ := Array.getElem?_eq_some_iff.mp found
  have positive : 0 < marks.count .unvisited := Array.count_pos_iff.mpr (here ▸ Array.getElem_mem inside)
  rw [Array.setIfInBounds, dif_pos inside, Array.count_set, here, if_neg other]
  simp only [beq_self_eq_true, if_true]
  omega

/-- How many turns are left at most, where a definition has a number of edges at most. -/
def left (edges : Nat → List Nat) (degree : Nat) (marks : Array Mark) (path : List (Nat × Nat)) : Nat :=
  marks.count .unvisited * (degree + 1) +
    path.foldr (fun entry total => (edges entry.1).length - entry.2 + 1 + total) 0

/-- What a turn leaves behind of a search with a path: a search for which fewer turns are left. -/
structure Goes (edges : Nat → List Nat) (degree : Nat) (marks : Array Mark) (path : List (Nat × Nat))
    (after : Array Mark) (ahead : List (Nat × Nat)) : Prop where
  sound : Sound edges after ahead
  size : after.size = marks.size
  visited : ∀ position : Nat, marks[position]? ≠ some .unvisited → after[position]? ≠ some .unvisited
  fewer : left edges degree after ahead < left edges degree marks path

/-- Marking a definition leaves none unvisited that was visited. -/
theorem visited_setIfInBounds {mark : Mark} (visited : mark ≠ .unvisited) (other : Nat)
    (found : marks[other]? ≠ some .unvisited) : (marks.setIfInBounds position mark)[other]? ≠ some .unvisited := by
  by_cases same : position = other
  · subst same
    rw [Array.getElem?_setIfInBounds_self]
    split <;> simp [visited]
  · rwa [Array.getElem?_setIfInBounds_ne same]

/-- A turn of a sound search comes to a circle, or to a sound search for which fewer turns are left. -/
theorem turn_spec {degree : Nat} (sound : Sound edges marks ((position, next) :: below))
    (bounded : ∀ position, ∀ other ∈ edges position, other < marks.size)
    (few : ∀ position, (edges position).length ≤ degree) :
    match turn edges ⟨marks, (position, next) :: below⟩ with
    | .ok search => Goes edges degree marks ((position, next) :: below) search.marks search.path
    | .error circle => IsCircle (fun earlier later => later ∈ edges earlier) circle := by
  -- Either all edges of the last place have been followed, or the next one leads on, back or to a
  -- place that is done.
  cases edge : (edges position)[next]? with
  | none =>
    have all := List.getElem?_eq_none_iff.mp edge
    have count := @count_visited marks position .done nofun
    have product := Nat.mul_le_mul_right (degree + 1) count
    simp only [turn, edge]
    refine ⟨sound.leave all, Array.size_setIfInBounds, visited_setIfInBounds nofun, ?_⟩
    simp only [left, List.foldr_cons]
    omega
  | some other =>
    obtain ⟨more, here⟩ := List.getElem?_eq_some_iff.mp edge
    have among := List.mem_of_getElem? edge
    obtain ⟨shown, mark⟩ : ∃ shown, marks[other]? = some shown :=
      ⟨_, Array.getElem?_eq_getElem (bounded position other among)⟩
    cases shown with
    | unvisited =>
      have count := @count_first _ _ mark .onPath nofun
      have product := Nat.mul_le_mul_right (degree + 1) (Nat.succ_le_of_lt count)
      have edges' := few other
      simp only [turn, edge, mark]
      refine ⟨sound.visit edge mark, Array.size_setIfInBounds, visited_setIfInBounds nofun, ?_⟩
      simp only [left, List.foldr_cons]
      rw [Nat.succ_mul] at product
      omega
    | onPath =>
      obtain ⟨-, trail⟩ := sound.trail rfl
      simp only [turn, edge, mark]
      exact isCircle_circle trail.isChain sound.nodup among ((sound.onPath other).mp mark)
    | done =>
      simp only [turn, edge, mark]
      refine ⟨sound.pass edge mark, rfl, fun _ kept => kept, ?_⟩
      simp only [left, List.foldr_cons]
      omega

/-- With turns enough a sound search comes to a circle, or to the end of its path. -/
theorem walk_spec {degree : Nat} (fuel : Nat) {marks : Array Mark} {path : List (Nat × Nat)}
    (sound : Sound edges marks path) (bounded : ∀ position, ∀ other ∈ edges position, other < marks.size)
    (few : ∀ position, (edges position).length ≤ degree) (enough : left edges degree marks path ≤ fuel) :
    match walk edges fuel ⟨marks, path⟩ with
    | .ok ended => ended.path = [] ∧ Settles edges marks ended.marks
    | .error circle => IsCircle (fun earlier later => later ∈ edges earlier) circle := by
  -- By induction on the turns: each of them leaves fewer, which the bound counts.
  induction fuel generalizing marks path with
  | zero =>
    cases path with
    | nil => exact ⟨rfl, sound.settles⟩
    | cons entry path => simp [left] at enough
  | succ fuel ih =>
    cases path with
    | nil => exact ⟨rfl, sound.settles⟩
    | cons entry below =>
      obtain ⟨position, next⟩ := entry
      have turned := turn_spec sound bounded few
      rw [walk, if_neg (by simp)]
      cases came : turn edges ⟨marks, (position, next) :: below⟩ with
      | error circle =>
        rw [came] at turned
        exact turned
      | ok search =>
        rw [came] at turned
        have rest := ih turned.sound (turned.size ▸ bounded) (Nat.le_of_lt_succ (Nat.lt_of_lt_of_le turned.fewer enough))
        dsimp only
        split at rest
        · rename_i last walked
          rw [show walk edges fuel search = _ from walked]
          exact ⟨rest.1, rest.2.size.trans turned.size, rest.2.left,
            fun place kept => rest.2.visited place (turned.visited place kept), rest.2.done⟩
        · rename_i circle walked
          rw [show walk edges fuel search = _ from walked]
          exact rest

/-- More turns than are left do not change what a walk comes to. -/
theorem walk_stable {degree : Nat} {fuel more : Nat} {marks : Array Mark} {path : List (Nat × Nat)}
    (sound : Sound edges marks path) (bounded : ∀ position, ∀ other ∈ edges position, other < marks.size)
    (few : ∀ position, (edges position).length ≤ degree) (enough : left edges degree marks path ≤ fuel)
    (further : fuel ≤ more) : walk edges more ⟨marks, path⟩ = walk edges fuel ⟨marks, path⟩ := by
  -- By induction on the turns that are enough; each of them leaves fewer to be made.
  induction fuel generalizing more marks path with
  | zero =>
    cases path with
    | nil => cases more <;> rfl
    | cons entry path => simp [left] at enough
  | succ fuel ih =>
    obtain ⟨more, rfl⟩ := Nat.exists_eq_succ_of_ne_zero (Nat.ne_zero_of_lt (Nat.lt_of_succ_le further))
    cases path with
    | nil => rfl
    | cons entry below =>
      obtain ⟨position, next⟩ := entry
      have turned := turn_spec sound bounded few
      rw [walk, walk]
      cases came : turn edges ⟨marks, (position, next) :: below⟩ with
      | error circle => rfl
      | ok search =>
        rw [came] at turned
        have same := ih turned.sound (turned.size ▸ bounded)
          (Nat.le_of_lt_succ (Nat.lt_of_lt_of_le turned.fewer enough)) (Nat.le_of_succ_le_succ further)
        rw [if_neg (by simp), if_neg (by simp)]
        exact same

/-- A search that has settled everything so far goes on with a path of one definition. -/
theorem Sound.single (left : ∀ position : Nat, marks[position]? ≠ some .onPath)
    (done : ∀ position : Nat, marks[position]? = some .done → Acc (fun other earlier => other ∈ edges earlier) position)
    (found : marks[position]? = some .unvisited) :
    Sound edges (marks.setIfInBounds position .onPath) [(position, 0)] := by
  have here := getElem?_marked found .onPath
  refine ⟨fun place => ?_, List.nodup_singleton _, fun shape => ?_, fun place ended => ?_⟩
  · rw [here]
    by_cases same : position = place
    · simp [same]
    · simp [same, Ne.symm same, left]
  · obtain ⟨rfl, rfl⟩ := Prod.mk.inj (List.cons.inj shape).1
    obtain rfl := (List.cons.inj shape).2
    exact ⟨by simp [Followed], .start⟩
  · rw [here] at ended
    split at ended
    · nomatch ended
    · exact done place ended

/-- In what has been settled, a definition that was visited is done. -/
theorem acc_of_visited (free : ∀ position : Nat, marks[position]? ≠ some .onPath)
    (done : ∀ position : Nat, marks[position]? = some .done → Acc (fun other earlier => other ∈ edges earlier) position)
    (visited : marks[position]? ≠ some .unvisited) (inside : position < marks.size) :
    Acc (fun other earlier => other ∈ edges earlier) position := by
  obtain ⟨shown, mark⟩ : ∃ shown, marks[position]? = some shown := ⟨_, Array.getElem?_eq_getElem inside⟩
  cases shown with
  | unvisited => exact absurd mark visited
  | onPath => exact absurd mark (free position)
  | done => exact done position mark

/-- Where one definition is on the path, the others are unvisited at most. -/
theorem left_single_le {degree fuel : Nat} (found : marks[position]? = some .unvisited)
    (few : ∀ position, (edges position).length ≤ degree) (enough : (degree + 1) * marks.size ≤ fuel) :
    left edges degree (marks.setIfInBounds position .onPath) [(position, 0)] ≤ fuel := by
  have count := Nat.lt_of_lt_of_le (@count_first _ _ found .onPath nofun) Array.count_le_size
  have product := Nat.mul_le_mul_right (degree + 1) (Nat.succ_le_of_lt count)
  have edges' := few position
  rw [Nat.succ_mul] at product
  rw [Nat.mul_comm] at enough
  simp only [left, List.foldr_cons, List.foldr_nil]
  omega

/-- What the search comes to is a circle; where it comes to none, none can be reached from its starts. -/
theorem search_spec {degree fuel : Nat} (starts : List Nat) {marks : Array Mark}
    (free : ∀ position : Nat, marks[position]? ≠ some .onPath)
    (done : ∀ position : Nat, marks[position]? = some .done → Acc (fun other earlier => other ∈ edges earlier) position)
    (bounded : ∀ position, ∀ other ∈ edges position, other < marks.size)
    (few : ∀ position, (edges position).length ≤ degree) (enough : (degree + 1) * marks.size ≤ fuel) :
    match search edges fuel starts marks with
    | some circle => IsCircle (fun earlier later => later ∈ edges earlier) circle
    | none => ∀ start ∈ starts, start < marks.size → Acc (fun other earlier => other ∈ edges earlier) start := by
  -- By induction on the starts: a walk from one of them leaves nothing on the path for the next.
  induction starts generalizing marks with
  | nil => exact nofun
  | cons start starts ih =>
    by_cases found : marks[start]? = some .unvisited
    · have turns := left_single_le found few enough
      have walked := walk_spec fuel (Sound.single free done found) (by simpa using bounded) few turns
      rw [search, if_pos found]
      cases came : walk edges fuel ⟨marks.setIfInBounds start .onPath, [(start, 0)]⟩ with
      | error circle =>
        rw [came] at walked
        exact walked
      | ok ended =>
        rw [came] at walked
        obtain ⟨-, settles⟩ := walked
        have size : ended.marks.size = marks.size := settles.size.trans Array.size_setIfInBounds
        have visited : ended.marks[start]? ≠ some .unvisited := by
          refine settles.visited start ?_
          rw [getElem?_marked found, if_pos rfl]
          nofun
        have rest := ih settles.left settles.done (size ▸ bounded) (size ▸ enough)
        split at rest
        · rename_i circle searched
          simpa only [searched] using rest
        · rename_i searched
          simp only [searched]
          exact List.forall_mem_cons.mpr
            ⟨fun inside => acc_of_visited settles.left settles.done visited (size ▸ inside),
              fun other member inside => rest other member (size ▸ inside)⟩
    · have rest := ih free done bounded enough
      rw [search, if_neg found]
      split at rest
      · exact rest
      · exact List.forall_mem_cons.mpr ⟨acc_of_visited free done found, rest⟩

/-- More turns than there can be do not change what the search comes to. -/
theorem search_stable {degree fuel more : Nat} (starts : List Nat) {marks : Array Mark}
    (free : ∀ position : Nat, marks[position]? ≠ some .onPath)
    (done : ∀ position : Nat, marks[position]? = some .done → Acc (fun other earlier => other ∈ edges earlier) position)
    (bounded : ∀ position, ∀ other ∈ edges position, other < marks.size)
    (few : ∀ position, (edges position).length ≤ degree) (enough : (degree + 1) * marks.size ≤ fuel)
    (further : fuel ≤ more) : search edges more starts marks = search edges fuel starts marks := by
  induction starts generalizing marks with
  | nil => rfl
  | cons start starts ih =>
    by_cases found : marks[start]? = some .unvisited
    · have turns := left_single_le found few enough
      have sound := Sound.single free done found
      have inside : ∀ position, ∀ other ∈ edges position, other < (marks.setIfInBounds start .onPath).size := by
        simpa using bounded
      have walked := walk_spec fuel sound inside few turns
      rw [search, search, if_pos found, if_pos found, walk_stable sound inside few turns further]
      cases came : walk edges fuel ⟨marks.setIfInBounds start .onPath, [(start, 0)]⟩ with
      | error circle => rfl
      | ok ended =>
        rw [came] at walked
        obtain ⟨-, settles⟩ := walked
        have size : ended.marks.size = marks.size := settles.size.trans Array.size_setIfInBounds
        exact ih settles.left settles.done (size ▸ bounded) (size ▸ enough)
    · rw [search, search, if_neg found, if_neg found]
      exact ih free done bounded enough

end CycleSearch

/-- A chain of successors that comes to a position without one. -/
inductive Ends (successor : Nat → Option Nat) : Nat → Prop
  | last {position : Nat} (final : successor position = none) : Ends successor position
  | step {position next : Nat} (follows : successor position = some next)
    (rest : Ends successor next) : Ends successor position

namespace Code

/-- A definition that a name stands for is one of the group. -/
theorem lt_of_definitionOf {defs : List AliasDef} {name : Name} {position : Nat}
    (found : definitionOf defs name = some position) : position < defs.length := by
  rw [definitionOf, Option.map_eq_some_iff] at found
  obtain ⟨⟨definition, other⟩, picked, rfl⟩ := found
  have member := List.mem_of_find?_eq_some picked
  rw [List.mem_reverse] at member
  have bound := List.snd_lt_of_mem_zipIdx member
  simpa using bound

/-- A definition that another one is merely a name for is one of the group. -/
theorem lt_of_successor {code : Code} {defs : List AliasDef} {position next : Nat}
    (follows : code.successor defs position = some next) : next < defs.length := by
  simp only [successor, bind, Option.bind_eq_some_iff] at follows
  obtain ⟨definition, -, name, -, found⟩ := follows
  exact lt_of_definitionOf found

/-- A definition is merely another name for one definition at most. -/
theorem length_successor_le (code : Code) (defs : List AliasDef) (position : Nat) :
    (code.successor defs position).toList.length ≤ 1 := by
  cases code.successor defs position <;> simp

/-- At its beginning the search has visited nothing. -/
theorem unvisited_replicate (count position : Nat) {mark : Mark} (other : mark ≠ .unvisited) :
    (Array.replicate count Mark.unvisited)[position]? ≠ some mark := by
  rw [Array.getElem?_replicate]
  split <;> simp [other.symm]

/-- What the search in a group comes to is a circle, or there is none to be reached from any definition. -/
theorem aliasCycle_spec (code : Code) (defs : List AliasDef) :
    match code.aliasCycle defs with
    | some circle => IsCircle (fun earlier later => code.successor defs earlier = some later) circle
    | none => ∀ position < defs.length,
        Acc (fun other earlier => code.successor defs earlier = some other) position := by
  have searched := @CycleSearch.search_spec (fun position => (code.successor defs position).toList) 1
    (2 * defs.length) (List.range defs.length) (Array.replicate defs.length .unvisited)
    (fun position => unvisited_replicate _ position nofun)
    (fun position found => absurd found (unvisited_replicate _ position nofun))
    (fun position other member => by simpa using lt_of_successor (Option.mem_toList.mp member))
    (length_successor_le code defs) (by simp)
  simp only [Option.mem_toList, List.mem_range, Array.size_replicate] at searched
  rw [aliasCycle]
  split at searched
  · exact searched
  · exact fun position inside => searched position inside inside

/-- More turns do not change what the search in a group comes to. -/
theorem aliasCycle_stable (code : Code) (defs : List AliasDef) {fuel : Nat} (enough : 2 * defs.length ≤ fuel) :
    CycleSearch.search (fun position => (code.successor defs position).toList) fuel (List.range defs.length)
      (Array.replicate defs.length .unvisited) = code.aliasCycle defs :=
  CycleSearch.search_stable _ (fun position => unvisited_replicate _ position nofun)
    (fun position found => absurd found (unvisited_replicate _ position nofun))
    (fun position other member => by simpa using lt_of_successor (Option.mem_toList.mp member))
    (length_successor_le code defs) (by simp) enough

/-- In a group without circles every definition leads to one that is not merely another name. -/
theorem ends_of_aliasCycle {code : Code} {defs : List AliasDef}
    (free : code.aliasCycle defs = none) {position : Nat} (inside : position < defs.length) :
    Ends (code.successor defs) position := by
  have all := code.aliasCycle_spec defs
  rw [free] at all
  have reached := all position inside
  induction reached with
  | intro position _ ih =>
    cases follows : code.successor defs position with
    | none => exact .last follows
    | some next => exact .step follows (ih next follows (lt_of_successor follows))

end Code

end LazyConfig
