import Qbt.IR.Layout
import Qbt.Std.Worklist

/-!
# Depth-first traversal of the blocks

`build_params` and `collect_params` share their loop: an explicit stack of block
pointers, and a counter in each block that is raised when the block is entered and
again when it is done. `traverse` is that loop; it differs between the two only in
what happens to a block when it is popped, `prepare`, and when it is finished, `work`.
-/

namespace Qbt

/-- `entered`. -/
def Blk.entered (b : Blk) (visited : Nat) : Bool := visited + 1 ≤ b.visited

/-- `done`. -/
def Blk.done (b : Blk) (visited : Nat) : Bool := visited + 2 ≤ b.visited

/-- `enter` and `leave`, which are the same increment. -/
def Blk.visit (b : Blk) : Blk := { b with visited := b.visited + 1 }

namespace Ssa

/-- The loop of `build_params` and of `collect_params`. The loops have no bound of
their own: `fuel` is the number of iterations they are given. -/
def traverse (prepare : Blk → Blk) (work : Fn → Blk → Result Blk) (visited : Nat) :
    Nat → List Nat → Fn → Result Fn
  | _, [], f => pure f
  | 0, _ :: _, _ => .error .diverged
  | fuel + 1, id :: stack, f => do
    let b ← f.deref id
    if b.done visited then
      traverse prepare work visited fuel stack f
    else
      let b := prepare b
      if b.entered visited then
        let b ← work (f.put b) b
        traverse prepare work visited fuel stack (f.put b.visit)
      else
        traverse prepare work visited fuel (b.pushed ++ b.id :: stack) (f.put b.visit)

/-- The successors a traversal pushes for a block. -/
def succs (f : Fn) (id : Nat) : List Nat :=
  match f.find? id with
  | none => []
  | some b => b.pushed

/-- The order in which a traversal from `root` finishes the blocks. -/
def order (f : Fn) (root : Nat) : List Nat :=
  Worklist.order (succs f) (3 * f.blks.length + 1) root

/-- The targets of both edges are pushed. -/
theorem mem_pushed_iff {b : Blk} {id : Nat} :
    id ∈ b.pushed ↔ b.s1 = some id ∨ b.s2 = some id := by
  unfold Blk.pushed
  cases first : b.s1 with
  | none =>
    cases second : b.s2 with
    | none => simp
    | some t => simp [eq_comm]
  | some s =>
    cases second : b.s2 with
    | none => simp [eq_comm]
    | some t =>
      by_cases same : t = s
      · simp [same, eq_comm]
      · have differ : s ≠ t := fun equal => same equal.symm
        simp [differ, eq_comm, or_comm]

theorem length_pushed_le (b : Blk) : b.pushed.length ≤ 2 := by
  unfold Blk.pushed
  cases b.s1 <;> cases b.s2 <;> simp
  split <;> simp

private theorem length_succs_le (f : Fn) (node : Nat) : (succs f node).length ≤ 2 := by
  unfold succs
  cases f.find? node with
  | none => simp
  | some b => exact length_pushed_le b

section Order

variable {f : Fn}

/-- The graph of a function is closed. -/
theorem succs_listed (layout : Layout f) : ∀ node ∈ f.ids, ∀ next ∈ succs f node, next ∈ f.ids := by
  intro node _ next edge
  unfold succs at edge
  cases found : f.find? node with
  | none => simp [found] at edge
  | some b =>
    simp only [found] at edge
    exact layout.successor (Fn.find?_mem found) (mem_pushed_iff.mp edge)

/-- The successors are the targets of the edges. -/
theorem mem_succs_iff {id next : Nat} : next ∈ succs f id ↔ Edge f id next := by
  unfold succs Edge
  cases found : f.find? id with
  | none => simp
  | some b => simp [mem_pushed_iff]

theorem edge_eq (f : Fn) : Edge f = fun id next => next ∈ succs f id := by
  funext id next
  exact propext mem_succs_iff.symm

/-- The finished blocks are the reachable ones. -/
theorem mem_order_iff (layout : Layout f) {root : Nat} (listed : root ∈ f.ids) (id : Nat) :
    id ∈ order f root ↔ Reaches f root id := by
  rw [Reaches, edge_eq]
  exact Worklist.mem_order_iff listed (succs_listed layout) (length_succs_le f)
    (by simp only [Fn.ids, List.length_map]; omega) id

/-- Only listed blocks are finished. -/
theorem order_listed (layout : Layout f) {root : Nat} (listed : root ∈ f.ids) {id : Nat}
    (finished : id ∈ order f root) : id ∈ f.ids := by
  have path := (mem_order_iff layout listed id).mp finished
  rw [Reaches, edge_eq] at path
  exact Worklist.reachable_mem listed (succs_listed layout) path

/-- No block is finished twice. -/
theorem order_nodup (layout : Layout f) {root : Nat} (listed : root ∈ f.ids) :
    (order f root).Nodup :=
  Worklist.order_nodup listed (succs_listed layout) (length_succs_le f)
    (by simp only [Fn.ids, List.length_map]; omega)

end Order

/-- What each block looks like when the blocks of `done` are finished: `prepare` leaves
it alone, and finishing a block changes that block only. -/
structure Staged (f : Fn) (prepare : Blk → Blk) (work : Fn → Blk → Result Blk)
    (stage : List Nat → Blk → Blk) : Prop where
  layout : Layout f
  keepsId : ∀ done b, (stage done b).id = b.id
  keepsPushed : ∀ done b, (stage done b).pushed = b.pushed
  prepared : ∀ b ∈ f.blks, ∀ done visited,
    prepare { stage done b with visited } = { stage done b with visited }
  other : ∀ done id b, b.id ≠ id → stage (done ++ [id]) b = stage done b
  works : ∀ (done : List Nat) (marks : Blk → Nat), ∀ b ∈ f.blks, b.id ∉ done →
    work (f.mapBlks fun b => { stage done b with visited := marks b })
      { stage done b with visited := marks b } =
        .ok { stage (done ++ [b.id]) b with visited := marks b }

/-- A block at some point of a traversal. -/
def at' (stage : List Nat → Blk → Blk) (visited : Nat) (p : Worklist.Progress Nat) (b : Blk) :
    Blk :=
  { stage p.finished b with
    visited := visited + (if b.id ∈ p.entered then 1 else 0) +
      (if b.id ∈ p.finished then 1 else 0) }

section Run

variable {f : Fn} {prepare : Blk → Blk} {work : Fn → Blk → Result Blk}
  {stage : List Nat → Blk → Blk} {visited : Nat}

/-- An iteration takes a step of the abstract traversal. -/
private theorem traverse_step (staged : Staged f prepare work stage) {root : Nat}
    (listed : root ∈ f.ids) {p next : Worklist.Progress Nat}
    (invariant : Worklist.Invariant (succs f) root p)
    (stepped : Worklist.step (succs f) p = some next) (fuel : Nat) :
    traverse prepare work visited (fuel + 1) p.stack (f.mapBlks (at' stage visited p)) =
      traverse prepare work visited fuel next.stack (f.mapBlks (at' stage visited next)) := by
  obtain ⟨node, rest, onStack, outcome⟩ := Worklist.step_cases stepped
  have here : node ∈ f.ids := Worklist.reachable_mem listed (succs_listed staged.layout)
    (invariant.reached node (Or.inr (by simp [onStack])))
  obtain ⟨b, found⟩ := Fn.exists_find? here
  have id := Fn.find?_id found
  have member := Fn.find?_mem found
  have keeps (q : Worklist.Progress Nat) (b : Blk) : (at' stage visited q b).id = b.id :=
    staged.keepsId q.finished b
  have deref : (f.mapBlks (at' stage visited p)).deref node = .ok (at' stage visited p b) :=
    Fn.deref_of_find? (by rw [Fn.find?_mapBlks (keeps p), found]; rfl)
  rw [onStack]
  simp only [traverse, deref, Result.ok_bind]
  rcases outcome with ⟨done, rfl⟩ | ⟨undone, seen, rfl⟩ | ⟨undone, unseen, rfl⟩
  · have seen := invariant.finished node done
    have isDone : (at' stage visited p b).done visited := by
      simp [Blk.done, at', id, done, seen]
    rw [if_pos isDone]
    rfl
  · have notDone : ¬ (at' stage visited p b).done visited := by
      simp [Blk.done, at', id, undone, seen]
    have entered : (at' stage visited p b).entered visited := by
      simp [Blk.entered, at', id, undone, seen]
    have prepared : prepare (at' stage visited p b) = at' stage visited p b :=
      staged.prepared b member _ _
    have stored : (f.mapBlks (at' stage visited p)).put (at' stage visited p b) =
        f.mapBlks (at' stage visited p) :=
      Fn.put_mapBlks staged.layout.nodup (keeps p) member (keeps p b) fun _ _ _ => rfl
    have worked := staged.works p.finished
      (fun b => visited + (if b.id ∈ p.entered then 1 else 0) +
        (if b.id ∈ p.finished then 1 else 0)) b member (by rwa [id])
    -- The finished block is what the stage of the longer list makes of it.
    have left : ({ stage (p.finished ++ [b.id]) b with
          visited := visited + (if b.id ∈ p.entered then 1 else 0) +
            (if b.id ∈ p.finished then 1 else 0) } : Blk).visit =
        at' stage visited { p with finished := p.finished ++ [node], stack := rest } b := by
      simp [at', Blk.visit, id, undone, seen]
    rw [if_neg notDone, prepared, if_pos entered, stored,
      show work (f.mapBlks (at' stage visited p)) (at' stage visited p b) = _ from worked]
    simp only [Result.ok_bind]
    rw [left, Fn.put_mapBlks staged.layout.nodup (keeps p) member (keeps _ b)]
    intro old _ differs
    have outside : old.id ≠ node := by rwa [id] at differs
    simp [at', staged.other _ _ _ outside, outside]
  · have notDone : ¬ (at' stage visited p b).done visited := by
      simp [Blk.done, at', id, undone, unseen]
    have notEntered : ¬ (at' stage visited p b).entered visited := by
      simp [Blk.entered, at', id, undone, unseen]
    have prepared : prepare (at' stage visited p b) = at' stage visited p b :=
      staged.prepared b member _ _
    have left : (at' stage visited p b).visit = at' stage visited { p with
          entered := node :: p.entered, stack := succs f node ++ node :: rest } b := by
      simp [at', Blk.visit, id, undone, unseen]
    have pushes : (at' stage visited p b).pushed ++ (at' stage visited p b).id :: rest =
        succs f node ++ node :: rest := by
      rw [keeps p b, id, succs, found]
      exact congrArg (· ++ _) (staged.keepsPushed p.finished b)
    rw [if_neg notDone, prepared, if_neg notEntered, pushes, left,
      Fn.put_mapBlks staged.layout.nodup (keeps p) member (keeps _ b)]
    intro old _ differs
    have outside : old.id ≠ node := by rwa [id] at differs
    simp [at', outside]

/-- The traversal of the blocks follows the abstract one step by step. -/
private theorem traverse_iterate (staged : Staged f prepare work stage) {root : Nat}
    (listed : root ∈ f.ids) {fuel : Nat} {p : Worklist.Progress Nat}
    (invariant : Worklist.Invariant (succs f) root p)
    (enough : Worklist.remaining f.ids.length 2 p ≤ fuel) :
    traverse prepare work visited fuel p.stack (f.mapBlks (at' stage visited p)) =
      .ok (f.mapBlks (at' stage visited (Worklist.iterate (succs f) fuel p))) := by
  induction fuel generalizing p with
  | zero =>
    have empty : p.stack = [] := by
      apply List.eq_nil_of_length_eq_zero
      unfold Worklist.remaining at enough
      omega
    simp [empty, traverse, Worklist.iterate]
  | succ fuel ih =>
    cases stepped : Worklist.step (succs f) p with
    | none =>
      have empty := Worklist.step_eq_none_iff.mp stepped
      simp [Worklist.iterate, stepped, empty, traverse]
    | some next =>
      have used := Worklist.remaining_step invariant listed (succs_listed staged.layout)
        (length_succs_le f) stepped
      have onward := ih (invariant.step stepped) (by omega)
      have iterated : Worklist.iterate (succs f) (fuel + 1) p =
          Worklist.iterate (succs f) fuel next := by
        simp [Worklist.iterate, stepped]
      rw [iterated, ← onward]
      exact traverse_step staged listed invariant stepped fuel

/-- A traversal from `root` finishes the reachable blocks in order and marks them
twice. -/
theorem traverse_eq (staged : Staged f prepare work stage) {root : Nat} (listed : root ∈ f.ids)
    (unvisited : ∀ b ∈ f.blks, b.visited = visited) (unstaged : ∀ b ∈ f.blks, stage [] b = b) :
    traverse prepare work visited (3 * f.blks.length + 1) [root] f =
      .ok (f.mapBlks fun b => { stage (order f root) b with
        visited := visited + if b.id ∈ order f root then 2 else 0 }) := by
  have bound : Worklist.remaining f.ids.length 2 (Worklist.start root) ≤
      3 * f.blks.length + 1 := by
    simp only [Worklist.remaining, Worklist.start, List.length_singleton, List.length_nil,
      Fn.ids, List.length_map]
    omega
  have traversed : traverse prepare work visited _ _ (f.mapBlks (at' stage visited _)) = _ :=
    traverse_iterate staged listed (.start (succs f) root) bound
  have started : f.mapBlks (at' stage visited (Worklist.start root)) = f := by
    apply Fn.mapBlks_id
    intro b member
    simp [at', Worklist.start, unstaged b member, ← unvisited b member]
  rw [started] at traversed
  rw [show [root] = (Worklist.start root).stack from rfl, traversed]
  congr 1
  apply Fn.mapBlks_congr
  intro b _
  obtain ⟨ended, empty⟩ := Worklist.iterate_spec listed (succs_listed staged.layout)
    (length_succs_le f) (.start (succs f) root) bound
  have entered : b.id ∈ (Worklist.iterate (succs f) (3 * f.blks.length + 1)
      (Worklist.start root)).entered ↔ b.id ∈ order f root := by
    constructor
    · intro seen
      simpa [empty, order, Worklist.order] using ended.pending b.id seen
    · exact ended.finished b.id
  by_cases reached : b.id ∈ order f root
  · have seen := entered.mpr reached
    have done : b.id ∈ (Worklist.iterate (succs f) (3 * f.blks.length + 1)
      (Worklist.start root)).finished := reached
    simp only [at', seen, done, reached, if_true]
    rfl
  · have unseen := mt entered.mp reached
    have undone : b.id ∉ (Worklist.iterate (succs f) (3 * f.blks.length + 1)
      (Worklist.start root)).finished := reached
    simp only [at', unseen, undone, reached, if_false]
    rfl

end Run

end Ssa
end Qbt
