import Qbt.Ssa.Traverse

/-!
# The iterations of a traversal

An iteration of the loop of `build_params` or `collect_params` pops a block. It drops a block that
is done, enters one that it sees for the first time, and does its work for one that has been
entered. `traverse` returns a function exactly when iterations lead there and empty the stack, so
that what is said about iterations is said about the loop.
-/

namespace Qbt.Ssa

/-- What the loop holds between two iterations. -/
structure Loop where
  fn : Fn
  stack : List Nat

/-- One iteration, with the block it does the work for, if any. -/
inductive Iteration (prepare : Blk → Blk) (work : Fn → Blk → Result Blk) (visited : Nat) :
    Loop → Option Nat → Loop → Prop
  | drop {f : Fn} {id : Nat} {stack : List Nat} {b : Blk} (found : f.deref id = .ok b)
      (done : b.done visited) : Iteration prepare work visited ⟨f, id :: stack⟩ none ⟨f, stack⟩
  | enter {f : Fn} {id : Nat} {stack : List Nat} {b : Blk} (found : f.deref id = .ok b)
      (undone : ¬ b.done visited) (first : ¬ (prepare b).entered visited) :
      Iteration prepare work visited ⟨f, id :: stack⟩ none
        ⟨f.put (prepare b).visit, (prepare b).pushed ++ (prepare b).id :: stack⟩
  | work {f : Fn} {id : Nat} {stack : List Nat} {b b' : Blk} (found : f.deref id = .ok b)
      (undone : ¬ b.done visited) (entered : (prepare b).entered visited)
      (worked : work (f.put (prepare b)) (prepare b) = .ok b') :
      Iteration prepare work visited ⟨f, id :: stack⟩ (some id) ⟨f.put b'.visit, stack⟩

/-- Iterations one behind the other, with the blocks they do the work for, in order. -/
inductive Iterations (prepare : Blk → Blk) (work : Fn → Blk → Result Blk) (visited : Nat) :
    Loop → List Nat → Loop → Prop
  | refl {loop : Loop} : Iterations prepare work visited loop [] loop
  | step {loop next last : Loop} {turn : Option Nat} {worked : List Nat}
      (iteration : Iteration prepare work visited loop turn next)
      (others : Iterations prepare work visited next worked last) :
      Iterations prepare work visited loop (turn.toList ++ worked) last

/-- What the traversals write into a block. -/
def annotations (f : Fn) (id : Nat) : Option (List Val × List Val × List Val) :=
  (f.find? id).map fun b => (b.params, b.args1, b.args2)

section Iterations

variable {prepare : Blk → Blk} {work : Fn → Blk → Result Blk} {visited fuel : Nat}
  {stack worked worked' : List Nat} {f g : Fn} {loop next next' : Loop} {turn turn' : Option Nat}

/-- There is nothing left to do when the stack is empty. -/
private theorem Iteration.nonempty (iteration : Iteration prepare work visited loop turn next) :
    loop.stack ≠ [] := by
  cases iteration <;> simp

private theorem Iteration.deterministic (iteration : Iteration prepare work visited loop turn next)
    (other : Iteration prepare work visited loop turn' next') : turn = turn' ∧ next = next' := by
  cases iteration with
  | drop found done =>
    cases other <;> simp_all
  | enter found undone first =>
    cases other <;> simp_all
  | work found undone entered worked =>
    cases other <;> simp_all

/-- The iterations that empty the stack are determined. -/
theorem Iterations.deterministic (iterations : Iterations prepare work visited loop worked ⟨f, []⟩)
    (others : Iterations prepare work visited loop worked' ⟨g, []⟩) : worked = worked' ∧ f = g := by
  generalize same : Loop.mk f [] = last at iterations
  induction iterations generalizing worked' with
  | refl =>
    subst same
    cases others with
    | refl => exact ⟨rfl, rfl⟩
    | step iteration _ => exact absurd rfl iteration.nonempty
  | step iteration _ ih =>
    cases others with
    | refl => exact absurd rfl iteration.nonempty
    | step iteration' others =>
      obtain ⟨rfl, rfl⟩ := iteration.deterministic iteration'
      obtain ⟨rfl, same⟩ := ih others same
      exact ⟨rfl, same⟩

private theorem iterations_of_traverse
    (returned : traverse prepare work visited fuel stack f = .ok g) :
    ∃ worked, Iterations prepare work visited ⟨f, stack⟩ worked ⟨g, []⟩ := by
  induction fuel generalizing stack f with
  | zero =>
    cases stack with
    | nil =>
      obtain rfl : f = g := by simpa [traverse] using returned
      exact ⟨[], .refl⟩
    | cons => simp [traverse] at returned
  | succ fuel ih =>
    cases stack with
    | nil =>
      obtain rfl : f = g := by simpa [traverse] using returned
      exact ⟨[], .refl⟩
    | cons id stack =>
      simp only [traverse, Result.bind_eq_ok] at returned
      obtain ⟨b, found, returned⟩ := returned
      by_cases done : b.done visited
      · rw [if_pos done] at returned
        obtain ⟨worked, others⟩ := ih returned
        exact ⟨_, .step (.drop found done) others⟩
      rw [if_neg done] at returned
      by_cases entered : (prepare b).entered visited
      · rw [if_pos entered] at returned
        obtain ⟨b', made, returned⟩ := Result.bind_eq_ok.mp returned
        obtain ⟨worked, others⟩ := ih returned
        exact ⟨_, .step (.work found done entered made) others⟩
      · rw [if_neg entered] at returned
        obtain ⟨worked, others⟩ := ih returned
        exact ⟨_, .step (.enter found done entered) others⟩

/-- The loop goes through an iteration and on from there. -/
theorem Iteration.traverse_succ (iteration : Iteration prepare work visited loop turn next)
    (fuel : Nat) : traverse prepare work visited (fuel + 1) loop.stack loop.fn =
      traverse prepare work visited fuel next.stack next.fn := by
  cases iteration with
  | drop found done =>
    simp only [traverse, found, Result.ok_bind, if_pos done]
  | enter found undone first =>
    simp only [traverse, found, Result.ok_bind, if_neg undone, if_neg first]
  | work found undone entered worked =>
    simp only [traverse, found, Result.ok_bind, if_neg undone, if_pos entered, worked]

private theorem traverse_of_iterations
    (iterations : Iterations prepare work visited loop worked ⟨g, []⟩) :
    ∃ fuel, traverse prepare work visited fuel loop.stack loop.fn = .ok g := by
  generalize last : Loop.mk g [] = target at iterations
  induction iterations with
  | refl =>
    subst last
    exact ⟨0, rfl⟩
  | step iteration _ ih =>
    obtain ⟨fuel, returned⟩ := ih last
    exact ⟨fuel + 1, (iteration.traverse_succ fuel).trans returned⟩

/-- The loop returns a function exactly when its iterations lead there and empty the stack. -/
theorem exists_traverse_iff :
    (∃ fuel, traverse prepare work visited fuel stack f = .ok g) ↔
      ∃ worked, Iterations prepare work visited ⟨f, stack⟩ worked ⟨g, []⟩ :=
  ⟨fun ⟨_, returned⟩ => iterations_of_traverse returned,
    fun ⟨_, iterations⟩ => traverse_of_iterations iterations⟩

/-- An iteration writes into the block it does the work for, and into no other. -/
theorem Iteration.elsewhere (iteration : Iteration prepare work visited loop turn next)
    (prepares : ∀ b, (prepare b).id = b.id ∧ (prepare b).params = b.params ∧
      (prepare b).args1 = b.args1 ∧ (prepare b).args2 = b.args2)
    (keepsId : ∀ f b b', work f b = .ok b' → b'.id = b.id) {id : Nat} (other : turn ≠ some id) :
    annotations next.fn id = annotations loop.fn id := by
  have listed {f : Fn} {node : Nat} {b : Blk} (found : f.deref node = .ok b) :
      f.find? node = some b ∧ b.id = node := by
    have found' : f.find? node = some b := by
      unfold Fn.deref at found
      split at found
      · rename_i found'
        rw [found', Except.ok.inj found]
      · cases found
    exact ⟨found', Fn.find?_id found'⟩
  cases iteration with
  | drop => rfl
  | @enter f node stack b found undone first =>
    obtain ⟨found, rfl⟩ := listed found
    obtain ⟨sameId, params, args1, args2⟩ := prepares b
    have same : (prepare b).visit.id = b.id := sameId
    have inside : (prepare b).visit.id ∈ f.ids := by
      rw [same]
      exact Fn.find?_isSome_iff.mp (by simp [found])
    unfold annotations
    rw [Fn.find?_put inside, same]
    by_cases here : id = b.id
    · subst here
      simp [found, Blk.visit, params, args1, args2]
    · rw [if_neg here]
  | @work f node stack b b' found undone entered worked =>
    obtain ⟨found, rfl⟩ := listed found
    have same : b'.visit.id = b.id := (keepsId _ _ _ worked).trans (prepares b).1
    have inside : b'.visit.id ∈ f.ids := by
      rw [same]
      exact Fn.find?_isSome_iff.mp (by simp [found])
    unfold annotations
    rw [Fn.find?_put inside, same, if_neg fun here => other (by rw [here])]

end Iterations

end Qbt.Ssa
