import Mathlib.Data.Set.Card
import Mathlib.Logic.Relation

/-!
# Parallel moves

Moves that are meant to happen at once, made one after the other. A move is a pair of
its destination and its source. `run_of_order` says when one after the other is as good
as at once: when no move reads what an earlier one has written. `not_delivered_of_cycle`
says that moves along a cycle cannot do without reading a register that is no destination.
-/

namespace Qbt.ParallelMove

variable {α W : Type} [DecidableEq α]

/-- Make one move. -/
def make (state : α → W) (move : α × α) : α → W :=
  Function.update state move.1 (state move.2)

/-- Make the moves of a list one after the other. -/
def run (moves : List (α × α)) (state : α → W) : α → W := moves.foldl make state

@[simp] theorem run_nil (state : α → W) : run [] state = state := rfl

@[simp] theorem run_cons (move : α × α) (moves : List (α × α)) (state : α → W) :
    run (move :: moves) state = run moves (make state move) := rfl

private theorem run_append (first second : List (α × α)) (state : α → W) :
    run (first ++ second) state = run second (run first state) := by
  simp [run, List.foldl_append]

/-- What is only moved to itself keeps its value. -/
theorem run_of_kept {moves : List (α × α)} {x : α} (kept : ∀ m ∈ moves, m.1 = x → m.2 = x)
    (state : α → W) : run moves state x = state x := by
  induction moves generalizing state with
  | nil => rfl
  | cons move rest ih =>
    rw [run_cons, ih fun m member => kept m (List.mem_cons_of_mem _ member)]
    by_cases same : move.1 = x
    · rw [make, kept move List.mem_cons_self same, same, Function.update_self]
    · simp [make, Ne.symm same]

/-- No destination is to receive two values. -/
def Functional (moves : List (α × α)) : Prop :=
  ∀ m ∈ moves, ∀ n ∈ moves, m.1 = n.1 → m.2 = n.2

/-- The value of `x` is moved to `y`. -/
def Feeds (moves : List (α × α)) (x y : α) : Prop := (y, x) ∈ moves ∧ y ≠ x

/-- No value has to be moved before itself. -/
def Acyclic (moves : List (α × α)) : Prop := ∀ x, ¬ Relation.TransGen (Feeds moves) x x

omit [DecidableEq α] in
/-- Moves that all go down a ranking are acyclic. -/
theorem acyclic_of_rank {moves : List (α × α)} (rank : α → Nat)
    (down : ∀ m ∈ moves, m.1 ≠ m.2 → rank m.1 < rank m.2) : Acyclic moves := by
  have path {x y : α} (feeds : Relation.TransGen (Feeds moves) x y) : rank y < rank x := by
    induction feeds with
    | single edge => exact down _ edge.1 edge.2
    | tail _ edge ih => exact (down _ edge.1 edge.2).trans ih
  exact fun x loop => Nat.lt_irrefl _ (path loop)

/-- Every destination has received the value of its source. -/
def Delivered (moves : List (α × α)) (before after : α → W) : Prop :=
  ∀ m ∈ moves, after m.1 = before m.2

/-- Moves of which none reads what an earlier one has written happen as if at once. -/
theorem run_of_order {moves : List (α × α)} (order : moves.Pairwise fun m n => n.2 ≠ m.1)
    (functional : Functional moves) (state : α → W) : Delivered moves state (run moves state) := by
  induction moves generalizing state with
  | nil => simp [Delivered]
  | cons move rest ih =>
    obtain ⟨later, order⟩ := List.pairwise_cons.mp order
    have delivered := ih order
      (fun m member n member' => functional m (List.mem_cons_of_mem _ member) n
        (List.mem_cons_of_mem _ member')) (make state move)
    have unread : ∀ n ∈ rest, make state move n.2 = state n.2 := by
      intro n member
      simp [make, later n member]
    intro m member
    rw [run_cons]
    rcases List.mem_cons.mp member with rfl | member
    · by_cases again : ∃ n ∈ rest, n.1 = m.1
      · obtain ⟨n, member', same⟩ := again
        rw [← same, delivered n member', unread n member']
        rw [functional n (List.mem_cons_of_mem _ member') m List.mem_cons_self same]
      · rw [run_of_kept fun n member' same => absurd ⟨n, member', same⟩ again]
        simp [make]
    · rw [delivered m member, unread m member]

omit [DecidableEq α] in
/-- Values that are all different can be delivered to functional moves only. -/
theorem functional_of_delivered {moves : List (α × α)} {before after : α → W}
    (injective : ∀ m ∈ moves, ∀ n ∈ moves, before m.2 = before n.2 → m.2 = n.2)
    (delivered : Delivered moves before after) : Functional moves := by
  intro m member n member' same
  apply injective m member n member'
  rw [← delivered m member, ← delivered n member', same]

section Cycle

variable {moves made : List (α × α)} {x : α}

/-- What is on a cycle with `x`. -/
private def cycle (moves : List (α × α)) (x : α) : Set α :=
  {y | Relation.ReflTransGen (Feeds moves) x y ∧ Relation.ReflTransGen (Feeds moves) y x}

omit [DecidableEq α] in
/-- What is on a cycle is moved on along it. -/
private theorem cycle_next (loop : Relation.TransGen (Feeds moves) x x) {y : α}
    (member : y ∈ cycle moves x) : ∃ z ∈ cycle moves x, Feeds moves y z := by
  obtain ⟨there, back⟩ := member
  have back' : Relation.TransGen (Feeds moves) y x := Relation.TransGen.trans_right back loop
  obtain ⟨z, first, rest⟩ := Relation.TransGen.head'_iff.mp back'
  exact ⟨z, ⟨there.tail first, rest⟩, first⟩

omit [DecidableEq α] in
/-- What is on a cycle comes from it. -/
private theorem cycle_prev (loop : Relation.TransGen (Feeds moves) x x) {y : α}
    (member : y ∈ cycle moves x) : ∃ z ∈ cycle moves x, Feeds moves z y := by
  obtain ⟨there, back⟩ := member
  have there' : Relation.TransGen (Feeds moves) x y := Relation.TransGen.trans_left loop there
  obtain ⟨z, rest, last⟩ := Relation.TransGen.tail'_iff.mp there'
  exact ⟨z, ⟨rest, .head last back⟩, last⟩

omit [DecidableEq α] in
private theorem cycle_finite (loop : Relation.TransGen (Feeds moves) x x) :
    (cycle moves x).Finite := by
  refine (List.finite_toSet (moves.map Prod.fst)).subset fun y member => ?_
  obtain ⟨z, _, listed, _⟩ := cycle_prev loop member
  exact List.mem_map_of_mem (f := Prod.fst) listed

omit [DecidableEq α] in
/-- The source of a move to a cycle is on the cycle. -/
private theorem cycle_source (functional : Functional moves)
    (loop : Relation.TransGen (Feeds moves) x x) {m : α × α} (member : m ∈ moves)
    (on : m.1 ∈ cycle moves x) : m.2 ∈ cycle moves x := by
  obtain ⟨z, onZ, listed, _⟩ := cycle_prev loop on
  rwa [functional m member (m.1, z) listed rfl]

/-- Moves that come from the cycle, or do not go to it, bring no new value to it. -/
private theorem image_run_subset {C : Set α} (closed : ∀ m ∈ made, m.1 ∈ C → m.2 ∈ C)
    (state : α → W) : run made state '' C ⊆ state '' C := by
  induction made generalizing state with
  | nil => exact subset_rfl
  | cons move rest ih =>
    refine (ih (fun m member => closed m (List.mem_cons_of_mem _ member)) _).trans ?_
    rintro _ ⟨y, on, rfl⟩
    by_cases same : y = move.1
    · subst y
      exact ⟨move.2, closed move List.mem_cons_self on, by simp [make]⟩
    · exact ⟨y, on, by simp [make, same]⟩

/-- A move within a finite set leaves fewer values than places. -/
private theorem card_make_lt {C : Set α} (finite : C.Finite) {m : α × α} (dst : m.1 ∈ C)
    (src : m.2 ∈ C) (differ : m.1 ≠ m.2) (state : α → W) :
    (make state m '' C).ncard < C.ncard := by
  have covered : make state m '' C ⊆ make state m '' (C \ {m.1}) := by
    rintro _ ⟨y, on, rfl⟩
    by_cases same : y = m.1
    · subst y
      refine ⟨m.2, ⟨src, differ.symm⟩, ?_⟩
      simp [make, differ.symm]
    · exact ⟨y, ⟨on, same⟩, rfl⟩
  calc (make state m '' C).ncard
      ≤ (make state m '' (C \ {m.1})).ncard := Set.ncard_le_ncard covered (finite.sdiff.image _)
    _ ≤ (C \ {m.1}).ncard := Set.ncard_image_le finite.sdiff
    _ < C.ncard := Set.ncard_sdiff_singleton_lt_of_mem dst finite

/-- Moves along a cycle, made one after the other, lose a value: however often they are
made, and whatever is saved to places that are never read. -/
theorem not_delivered_of_cycle (functional : Functional moves)
    (loop : Relation.TransGen (Feeds moves) x x)
    (only : ∀ m ∈ made, m ∈ moves ∨ ∀ n ∈ moves, n.1 ≠ m.1)
    (all : ∀ m ∈ moves, m.1 ≠ m.2 → m ∈ made) {before : α → W}
    (injective : ∀ m ∈ moves, ∀ n ∈ moves, before m.2 = before n.2 → m.2 = n.2)
    (start : α → W) : ¬ Delivered moves before (run made start) := by
  intro delivered
  have finite := cycle_finite loop
  have closed : ∀ m ∈ made, m.1 ∈ cycle moves x → m.2 ∈ cycle moves x := by
    intro m member on
    rcases only m member with listed | scratch
    · exact cycle_source functional loop listed on
    · obtain ⟨z, _, listed, _⟩ := cycle_prev loop on
      exact absurd rfl (scratch (m.1, z) listed)
  -- All values of the cycle have to be there in the end.
  have values : before '' cycle moves x ⊆ run made start '' cycle moves x := by
    rintro _ ⟨z, on, rfl⟩
    obtain ⟨y, onY, listed, _⟩ := cycle_next loop on
    exact ⟨y, onY, delivered _ listed⟩
  have distinct : (before '' cycle moves x).ncard = (cycle moves x).ncard := by
    refine Set.InjOn.ncard_image fun y on z on' same => ?_
    obtain ⟨_, _, listed, _⟩ := cycle_next loop on
    obtain ⟨_, _, listed', _⟩ := cycle_next loop on'
    exact injective _ listed _ listed' same
  -- But one of them is gone behind any move along it.
  have start' : x ∈ cycle moves x := ⟨.refl, .refl⟩
  obtain ⟨z, on, listed, differ⟩ := cycle_prev loop start'
  obtain ⟨first, later, split⟩ := List.append_of_mem (all _ listed differ)
  have lost := card_make_lt finite (m := (x, z)) start' on differ (run first start)
  have kept : run made start '' cycle moves x ⊆
      make (run first start) (x, z) '' cycle moves x := by
    rw [split, run_append, run_cons]
    exact image_run_subset (fun m member => closed m (by rw [split]; simp [member])) _
  have bounded := Set.ncard_le_ncard (values.trans kept) (finite.image _)
  omega

end Cycle

/-- The moves can be made one after the other in some order. -/
structure Sequential (moves : List (α × α)) : Prop where
  functional : Functional moves
  acyclic : Acyclic moves

/-- Another value is moved to `x`. -/
def Clobbers (moves : List (α × α)) (x : α) : Prop := ∃ y, (x, y) ∈ moves ∧ y ≠ x

/-- How moves are made: every move that is needed, and moves to a scratch register where
there is a cycle. Otherwise no move reads what an earlier one has written. -/
structure Implements (scratch : α) (moves made : List (α × α)) : Prop where
  only : ∀ m ∈ made, m ∈ moves ∨ m.1 = scratch
  all : ∀ m ∈ moves, m.1 ≠ m.2 → m ∈ made
  order : Acyclic moves → (∀ m ∈ made, m ∈ moves) ∧ made.Pairwise fun m n => n.2 ≠ m.1
  /-- the scratch register is no destination -/
  fresh : ∀ m ∈ moves, m.1 ≠ scratch

namespace Implements

variable {scratch : α} {moves made : List (α × α)} (implements : Implements scratch moves made)
include implements

/-- What no other value is moved to keeps its value. -/
theorem kept {x : α} (unclobbered : ¬ Clobbers moves x) (real : x ≠ scratch) (state : α → W) :
    run made state x = state x := by
  apply run_of_kept
  rintro ⟨_, y⟩ member rfl
  rcases implements.only _ member with listed | isScratch
  · by_contra differ
    exact unclobbered ⟨y, listed, differ⟩
  · exact absurd isScratch real

/-- Moves that can be made one after the other happen as if at once. -/
theorem delivered (sequential : Sequential moves) (state : α → W) :
    Delivered moves state (run made state) := by
  obtain ⟨within, order⟩ := implements.order sequential.acyclic
  have delivered := run_of_order order (fun m member n member' =>
    sequential.functional m (within m member) n (within n member')) state
  intro m member
  by_cases differ : m.1 = m.2
  · rw [← differ]
    apply implements.kept _ (implements.fresh m member)
    rintro ⟨y, listed, other⟩
    exact other ((sequential.functional _ listed _ member rfl).trans differ.symm)
  · exact delivered m (implements.all m member differ)

/-- Afterwards every register holds what some register held before: its own value, or
the value that was moved to it. -/
theorem sources (sequential : Sequential moves) :
    ∃ source : α → α, (∀ x, source x ≠ x → (x, source x) ∈ moves) ∧
      (∀ x, Clobbers moves x → source x ≠ x) ∧
      ∀ x, x ≠ scratch → ∀ state : α → W, run made state x = state (source x) := by
  have each (x : α) : ∃ y, (y ≠ x → (x, y) ∈ moves) ∧ (Clobbers moves x → y ≠ x) ∧
      (x ≠ scratch → ∀ state : α → W, run made state x = state y) := by
    by_cases clobbered : Clobbers moves x
    · obtain ⟨y, listed, differ⟩ := clobbered
      exact ⟨y, fun _ => listed, fun _ => differ,
        fun _ state => implements.delivered sequential state _ listed⟩
    · exact ⟨x, fun differ => absurd rfl differ, fun clobbers => absurd clobbers clobbered,
        implements.kept clobbered⟩
  choose source listed clobbers holds using each
  exact ⟨source, listed, clobbers, holds⟩

/-- Values that are all different have been delivered, so the moves can be made one after
the other. -/
theorem sequential_of_delivered {before start : α → W}
    (injective : ∀ m ∈ moves, ∀ n ∈ moves, before m.2 = before n.2 → m.2 = n.2)
    (delivered : Delivered moves before (run made start)) : Sequential moves := by
  have functional := functional_of_delivered injective delivered
  refine ⟨functional, fun x loop => ?_⟩
  apply not_delivered_of_cycle functional loop _ implements.all injective start delivered
  intro m member
  refine (implements.only m member).imp_right fun isScratch n listed => ?_
  rw [isScratch]
  exact implements.fresh n listed

end Implements

end Qbt.ParallelMove
