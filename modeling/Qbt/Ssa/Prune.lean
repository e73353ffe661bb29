import Qbt.Correct.Keeps
import Qbt.Ssa.Build

/-!
# Removal of unreachable blocks

`build_params` counts two visits of every block it reaches and none of the others, so
`remove_unvisited` keeps exactly the reachable blocks. A kept block keeps its
successors, and what fell through to the block behind still does.
-/

namespace Qbt.Ssa

/-- The reachable blocks of a function, with the parameters `build_params` gives them. -/
def prune (f : Fn) (root : Nat) : Fn :=
  Fn.mapBlks { f with blks := f.blks.filter (·.id ∈ order f root) }
    (setParams (paramTable f (order f root)) fun _ => 2)

section Prune

variable {f : Fn} {root : Nat}

/-- What `remove_unvisited` leaves of the function `build_params` returns. -/
theorem removeUnvisited_eq (f : Fn) (root : Nat) :
    removeUnvisited (annotated f root) 2 = prune f root := by
  simp only [removeUnvisited, annotated, withParams, prune, Fn.mapBlks, List.filter_map]
  congr 1
  have kept : ((fun b : Blk => decide (2 ≤ b.visited)) ∘
      setParams (paramTable f (order f root)) fun b => if b.id ∈ order f root then 2 else 0) =
        fun b => decide (b.id ∈ order f root) := by
    funext b
    by_cases reached : b.id ∈ order f root <;> simp [setParams, reached]
  rw [kept]
  apply List.map_congr_left
  intro b member
  have reached : b.id ∈ order f root := by simpa using (List.mem_filter.mp member).2
  simp [setParams, reached]

private theorem ids_prune (f : Fn) (root : Nat) :
    (prune f root).ids = f.ids.filter (· ∈ order f root) := by
  simp only [prune, Fn.ids, Fn.mapBlks, List.map_map, List.filter_map]
  exact List.map_congr_left fun b _ => rfl

/-- Pruning leaves the blocks that are reached. -/
theorem mem_ids_prune (layout : Layout f) (listed : root ∈ f.ids) (id : Nat) :
    id ∈ (prune f root).ids ↔ Reaches f root id := by
  rw [ids_prune, List.mem_filter, decide_eq_true_iff, mem_order_iff layout listed]
  exact ⟨And.right, fun path =>
    ⟨order_listed layout listed ((mem_order_iff layout listed id).mpr path), path⟩⟩

/-- The reachable blocks of a well-formed function are well formed. -/
theorem prune_layout (layout : Layout f) (listed : root ∈ f.ids) : Layout (prune f root) := by
  apply Layout.mapBlks
  · apply layout.filter
    · obtain ⟨b, member, rfl⟩ := List.mem_map.mp listed
      refine ⟨b, member, ?_⟩
      rw [decide_eq_true_iff, mem_order_iff layout listed]
      exact .refl
    · intro b member kept next _ edge
      rw [decide_eq_true_iff, mem_order_iff layout listed] at kept ⊢
      exact kept.tail ⟨b, Fn.find?_of_mem layout.nodup member, edge⟩
  · exact setParams_sameNode _ _

end Prune

/-- `h` is what is left of `f` when all blocks that `root` does not reach are removed. -/
structure Pruned (f h : Fn) (root : Nat) : Prop where
  /-- exactly the reachable blocks are left -/
  reachable : ∀ id, id ∈ h.ids ↔ Reaches f root id
  /-- in their original order -/
  order : h.ids.Sublist f.ids
  /-- with the entry block first -/
  entry : h.ids.head? = some root
  /-- unchanged but for their parameters and visit counters -/
  nodes : ∀ b ∈ h.blks, ∃ original ∈ f.blks,
    b = { original with params := b.params, visited := b.visited }
  /-- no successor has been destroyed -/
  successors : ∀ b ∈ h.blks, ∀ id, b.s1 = some id ∨ b.s2 = some id → id ∈ h.ids
  /-- what does not return falls through to the block behind it -/
  falls : ∀ before b after, h.blks = before ++ b :: after → ¬ b.isReturn →
    ∃ next rest, after = next :: rest ∧ b.s1 = some next.id

private theorem prune_pruned {f : Fn} (layout : Layout f) {entry : Blk} {rest : List Blk}
    (blks : f.blks = entry :: rest) : Pruned f (prune f entry.id) entry.id := by
  have listed : entry.id ∈ f.ids := by simp [Fn.ids, blks]
  have layout' := prune_layout layout listed
  exact {
    reachable := mem_ids_prune layout listed
    order := by
      rw [ids_prune]
      exact List.filter_sublist
    entry := by
      have reached : entry.id ∈ order f entry.id := (mem_order_iff layout listed _).mpr .refl
      rw [ids_prune]
      simp [Fn.ids, blks, reached]
    nodes := by
      intro b member
      obtain ⟨original, kept, rfl⟩ := List.mem_map.mp member
      exact ⟨original, (List.mem_filter.mp kept).1, rfl⟩
    successors := fun b member id edge => layout'.successor member edge
    falls := layout'.falls }

/-- After `build_params` and `remove_unvisited` a function consists of its reachable
blocks, laid out so that every fall-through reaches the right block. -/
theorem remove_unvisited_exact {f : Fn} (before : BeforeSsa f) :
    ∃ entry rest g b, f.blks = entry :: rest ∧
      buildParams f entry.id entry.visited = .ok g ∧ g.deref entry.id = .ok b ∧
      Pruned f (removeUnvisited g b.visited) entry.id := by
  have raw := before.raw
  obtain ⟨entry, rest, blks⟩ := List.exists_cons_of_ne_nil raw.nonempty
  have member : entry ∈ f.blks := by simp [blks]
  have listed : entry.id ∈ f.ids := List.mem_map_of_mem (f := Blk.id) member
  have reached : entry.id ∈ order f entry.id := (mem_order_iff raw.toLayout listed _).mpr .refl
  have built : buildParams f entry.id entry.visited = .ok (annotated f entry.id) := by
    rw [raw.visited entry member]
    exact buildParams_eq raw listed
  refine ⟨entry, rest, annotated f entry.id, _, blks, built,
    deref_annotated (Fn.find?_of_mem raw.nodup member), ?_⟩
  rw [if_pos reached, removeUnvisited_eq]
  exact prune_pruned raw.toLayout blks

/-- `in_jump` of `tests/unreachable/unreachable.qbt`. -/
def inJump : Frontend.Function where
  name := "in_jump"
  body := {
    items := [
      { stmt := .plain (.immInt .i27 "r0" 0) },
      { stmt := .jump "after" },
      { stmt := .plain (.immInt .i27 "r1" 0) },
      { stmt := .leave [.id "r1"] },
      { labels := ["after"], stmt := .leave [.id "r0"] }] }

/-- The dead block of the test is removed. -/
theorem remove_unvisited_exact_inJump :
    ∃ f g, Frontend.buildFunction 0 inJump = .ok f ∧ buildParams f 1 0 = .ok g ∧
      Pruned f (removeUnvisited g 2) 1 := by
  have parsed : ∃ f, Frontend.buildFunction 0 inJump = .ok f ∧
      (f.blks.head?.map fun b => (b.id, b.visited)) = some (1, 0) ∧
        (buildParams f 1 0).toOption.bind (·.find? 1 |>.map (·.visited)) = some 2 :=
    ⟨_, by rfl, by decide, by decide⟩
  obtain ⟨f, parsed, start, visits⟩ := parsed
  obtain ⟨entry, rest, g, b, blks, built, found, pruned⟩ :=
    remove_unvisited_exact (.parsed ⟨0, inJump, parsed⟩)
  rw [blks] at start
  obtain ⟨id, visited⟩ : entry.id = 1 ∧ entry.visited = 0 := by simpa using start
  rw [id] at found pruned
  rw [id, visited] at built
  have counted : b.visited = 2 := by
    rw [built] at visits
    unfold Fn.deref at found
    cases reads : g.find? 1 with
    | none => simp [reads] at found
    | some b' =>
      obtain rfl : b' = b := by simpa [reads] using found
      simpa [Except.toOption, reads] using visits
  rw [counted] at pruned
  exact ⟨f, g, parsed, built, pruned⟩

end Qbt.Ssa
