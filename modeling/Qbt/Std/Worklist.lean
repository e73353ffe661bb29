import Mathlib.Data.List.Nodup
import Mathlib.Logic.Relation
import Mathlib.Algebra.BigOperators.Group.List.Basic
import Mathlib.Data.List.Induction

/-!
# Two-phase depth-first traversal

A traversal of a graph with an explicit stack. The first time a node is popped it is
entered: it goes back onto the stack below its successors. The next time it is popped
it is finished. A node that is popped again is dropped. `order` is the list of nodes
in the order in which they are finished: it holds every node that is reachable from
the root exactly once. A node is finished before a successor exactly where the edge
closes a cycle, so the order is a post-order on acyclic graphs only.
-/

namespace Qbt.Worklist

variable {α : Type}

/-- The nodes entered, the nodes finished in that order, and the stack, top first. -/
structure Progress (α : Type) where
  entered : List α
  finished : List α
  stack : List α

/-- A traversal that is about to pop the root. -/
def start (root : α) : Progress α := { entered := [], finished := [], stack := [root] }

/-- What holds throughout a traversal from `root`. -/
structure Invariant (succs : α → List α) (root : α) (p : Progress α) : Prop where
  enteredNodup : p.entered.Nodup
  finishedNodup : p.finished.Nodup
  finished : ∀ node ∈ p.finished, node ∈ p.entered
  reached : ∀ node, node ∈ p.entered ∨ node ∈ p.stack →
    Relation.ReflTransGen (fun a b => b ∈ succs a) root node
  pending : ∀ node ∈ p.entered, node ∈ p.finished ∨ node ∈ p.stack
  closed : ∀ node ∈ p.entered, ∀ next ∈ succs node, next ∈ p.entered ∨ next ∈ p.stack
  rooted : root ∈ p.entered ∨ root ∈ p.stack

/-- The invariant holds at the start. -/
theorem Invariant.start (succs : α → List α) (root : α) : Invariant succs root (start root) where
  enteredNodup := List.nodup_nil
  finishedNodup := List.nodup_nil
  finished := by simp [Worklist.start]
  reached := by
    intro node present
    obtain rfl : node = root := by simpa [Worklist.start] using present
    exact .refl
  pending := by simp [Worklist.start]
  closed := by simp [Worklist.start]
  rooted := by simp [Worklist.start]

/-- The top of the stack may be dropped once its node is finished. -/
private theorem Invariant.pop {succs : α → List α} {root node : α}
    {entered finished finished' : List α}
    {rest : List α} (invariant : Invariant succs root ⟨entered, finished, node :: rest⟩)
    (grown : ∀ n, n ∈ finished' ↔ n ∈ finished ∨ n = node) (nodup : finished'.Nodup)
    (seen : node ∈ entered) : Invariant succs root ⟨entered, finished', rest⟩ where
  enteredNodup := invariant.enteredNodup
  finishedNodup := nodup
  finished := by
    intro n member
    rcases (grown n).mp member with old | rfl
    · exact invariant.finished n old
    · exact seen
  reached n present := invariant.reached n (present.imp id (List.mem_cons_of_mem _))
  pending := by
    intro n member
    rw [grown]
    rcases invariant.pending n member with old | onStack
    · exact Or.inl (Or.inl old)
    · exact (List.mem_cons.mp onStack).imp Or.inr id
  closed := by
    intro n member next edge
    rcases invariant.closed n member next edge with old | onStack
    · exact Or.inl old
    · rcases List.mem_cons.mp onStack with rfl | below
      · exact Or.inl seen
      · exact Or.inr below
  rooted := by
    rcases invariant.rooted with old | onStack
    · exact Or.inl old
    · rcases List.mem_cons.mp onStack with rfl | below
      · exact Or.inl seen
      · exact Or.inr below

/-- Entering a node pushes its successors and the node itself. -/
private theorem Invariant.push {succs : α → List α} {root node : α}
    {entered finished rest : List α}
    (invariant : Invariant succs root ⟨entered, finished, node :: rest⟩)
    (unseen : node ∉ entered) :
    Invariant succs root ⟨node :: entered, finished, succs node ++ node :: rest⟩ where
  enteredNodup := List.nodup_cons.mpr ⟨unseen, invariant.enteredNodup⟩
  finishedNodup := invariant.finishedNodup
  finished n member := List.mem_cons_of_mem _ (invariant.finished n member)
  reached := by
    intro n present
    have here := invariant.reached node (Or.inr List.mem_cons_self)
    simp only [List.mem_cons, List.mem_append] at present
    rcases present with (rfl | old) | pushed | rfl | below
    · exact here
    · exact invariant.reached n (Or.inl old)
    · exact here.tail pushed
    · exact here
    · exact invariant.reached n (Or.inr (List.mem_cons_of_mem _ below))
  pending := by
    intro n member
    rcases List.mem_cons.mp member with rfl | old
    · exact Or.inr (List.mem_append_right _ List.mem_cons_self)
    · exact (invariant.pending n old).imp id (List.mem_append_right _)
  closed := by
    intro n member next edge
    rcases List.mem_cons.mp member with rfl | old
    · exact Or.inr (List.mem_append_left _ edge)
    · exact (invariant.closed n old next edge).imp (List.mem_cons_of_mem _)
        (List.mem_append_right _)
  rooted := invariant.rooted.imp (List.mem_cons_of_mem _) (List.mem_append_right _)

/-- Once the stack is empty, exactly the reachable nodes are finished. -/
theorem Invariant.finished_iff {succs : α → List α} {root : α} {p : Progress α}
    (invariant : Invariant succs root p) (ended : p.stack = []) (node : α) :
    node ∈ p.finished ↔ Relation.ReflTransGen (fun a b => b ∈ succs a) root node := by
  constructor
  · intro member
    exact invariant.reached node (Or.inl (invariant.finished node member))
  · intro path
    have entered : node ∈ p.entered := by
      induction path with
      | refl => simpa [ended] using invariant.rooted
      | tail _ edge ih => simpa [ended] using invariant.closed _ ih _ edge
    simpa [ended] using invariant.pending node entered

/-- Everything reachable from a node of a closed set is in that set. -/
theorem reachable_mem {succs : α → List α} {root : α} {nodes : List α} (inside : root ∈ nodes)
    (closed : ∀ node ∈ nodes, ∀ next ∈ succs node, next ∈ nodes) {node : α}
    (path : Relation.ReflTransGen (fun a b => b ∈ succs a) root node) : node ∈ nodes := by
  induction path with
  | refl => exact inside
  | tail _ edge ih => exact closed _ ih _ edge

/-- A node that has been entered and not yet finished lies on the stack below its
successors, and below nothing that it does not lead to. -/
structure Open (succs : α → List α) (p : Progress α) (node : α) (above below : List α) : Prop where
  stack : p.stack = above ++ node :: below
  descend : ∀ n ∈ above, Relation.TransGen (fun a b => b ∈ succs a) node n
  waiting : ∀ next ∈ succs node, next ∈ p.finished ∨ next ∈ above

/-- What holds throughout a traversal of an acyclic graph. -/
structure PostOrder (succs : α → List α) (p : Progress α) : Prop where
  opened : ∀ node ∈ p.entered, node ∉ p.finished → ∃ above below, Open succs p node above below
  settled : ∀ before node after, p.finished = before ++ node :: after →
    ∀ next ∈ succs node, next ∈ before

/-- Nothing reachable from the root leads back to itself. -/
def AcyclicFrom (succs : α → List α) (root : α) : Prop :=
  ∀ node, Relation.ReflTransGen (fun a b => b ∈ succs a) root node →
    ¬ Relation.TransGen (fun a b => b ∈ succs a) node node

/-- The order holds at the start. -/
theorem PostOrder.start (succs : α → List α) (root : α) : PostOrder succs (start root) where
  opened := by simp [Worklist.start]
  settled := by simp [Worklist.start]

/-- A node leaves the top of the stack once it is finished. -/
private theorem Open.pop {succs : α → List α} {p : Progress α} {node top : α}
    {above below rest : List α}
    (opened : Open succs p node above below) (onStack : p.stack = top :: rest)
    (other : node ≠ top) {finished : List α} (grown : ∀ n ∈ p.finished, n ∈ finished)
    (topDone : top ∈ finished) {entered : List α} :
    ∃ above' below', Open succs ⟨entered, finished, rest⟩ node above' below' := by
  have stack := opened.stack
  rw [onStack] at stack
  cases above with
  | nil => exact absurd (List.cons.inj stack).1.symm other
  | cons first above =>
    obtain ⟨rfl, rfl⟩ := List.cons.inj stack
    refine ⟨above, below, rfl, fun n member => opened.descend n (List.mem_cons_of_mem _ member),
      fun next edge => ?_⟩
    rcases opened.waiting next edge with done | member
    · exact Or.inl (grown next done)
    · rcases List.mem_cons.mp member with rfl | later
      · exact Or.inl topDone
      · exact Or.inr later

section Traversal

variable [DecidableEq α]

/-- One iteration. -/
def step (succs : α → List α) (p : Progress α) : Option (Progress α) :=
  match p.stack with
  | [] => none
  | node :: rest =>
    if node ∈ p.finished then some { p with stack := rest }
    else if node ∈ p.entered then
      some { p with finished := p.finished ++ [node], stack := rest }
    else some { p with entered := node :: p.entered, stack := succs node ++ node :: rest }

/-- At most `fuel` iterations. -/
def iterate (succs : α → List α) : Nat → Progress α → Progress α
  | 0, p => p
  | fuel + 1, p =>
    match step succs p with
    | none => p
    | some next => iterate succs fuel next

/-- The nodes finished by a traversal, in order. -/
def order (succs : α → List α) (fuel : Nat) (root : α) : List α :=
  (iterate succs fuel (start root)).finished

/-- The three things an iteration can do. -/
theorem step_cases {succs : α → List α} {p p' : Progress α} (stepped : step succs p = some p') :
    ∃ node rest, p.stack = node :: rest ∧
      ((node ∈ p.finished ∧ p' = { p with stack := rest }) ∨
        (node ∉ p.finished ∧ node ∈ p.entered ∧
          p' = { p with finished := p.finished ++ [node], stack := rest }) ∨
        (node ∉ p.finished ∧ node ∉ p.entered ∧
          p' = { p with
            entered := node :: p.entered, stack := succs node ++ node :: rest })) := by
  unfold step at stepped
  cases onStack : p.stack with
  | nil => simp [onStack] at stepped
  | cons node rest =>
    refine ⟨node, rest, rfl, ?_⟩
    simp only [onStack] at stepped
    by_cases done : node ∈ p.finished
    · exact Or.inl ⟨done, by simpa [done] using stepped.symm⟩
    · by_cases seen : node ∈ p.entered
      · exact Or.inr (Or.inl ⟨done, seen, by simpa [done, seen] using stepped.symm⟩)
      · exact Or.inr (Or.inr ⟨done, seen, by simpa [done, seen] using stepped.symm⟩)

/-- A traversal stops when its stack is empty. -/
theorem step_eq_none_iff {succs : α → List α} {p : Progress α} :
    step succs p = none ↔ p.stack = [] := by
  unfold step
  cases p.stack with
  | nil => simp
  | cons node rest =>
    simp only [reduceCtorEq, iff_false]
    split
    · simp
    · split <;> simp

/-- Every iteration keeps the invariant. -/
theorem Invariant.step {succs : α → List α} {root : α} {p p' : Progress α}
    (invariant : Invariant succs root p) (stepped : step succs p = some p') :
    Invariant succs root p' := by
  obtain ⟨entered, finished, stack⟩ := p
  obtain ⟨node, rest, rfl, ⟨done, rfl⟩ | ⟨undone, seen, rfl⟩ | ⟨_, unseen, rfl⟩⟩ :=
    step_cases stepped
  · refine invariant.pop (fun n => ⟨Or.inl, ?_⟩) invariant.finishedNodup
      (invariant.finished node done)
    rintro (old | rfl)
    · exact old
    · exact done
  · refine invariant.pop (fun n => by simp) ?_ seen
    refine List.nodup_append.mpr ⟨invariant.finishedNodup, List.nodup_singleton _, ?_⟩
    intro n member other otherMember
    rw [List.mem_singleton.mp otherMember]
    rintro rfl
    exact undone member
  · exact invariant.push unseen

/-- The iterations that may still follow: one for each stack entry, and for each node
not yet entered one for every entry it will push. -/
def remaining (nodes width : Nat) (p : Progress α) : Nat :=
  p.stack.length + (width + 1) * (nodes - p.entered.length)

/-- Every iteration uses up one of the remaining ones, on a finite graph of bounded
degree. -/
theorem remaining_step {succs : α → List α} {root : α} {p p' : Progress α}
    (invariant : Invariant succs root p) {nodes : List α} {width : Nat} (inside : root ∈ nodes)
    (closed : ∀ node ∈ nodes, ∀ next ∈ succs node, next ∈ nodes)
    (narrow : ∀ node, (succs node).length ≤ width) (stepped : step succs p = some p') :
    remaining nodes.length width p' + 1 ≤ remaining nodes.length width p := by
  obtain ⟨node, rest, onStack, ⟨_, rfl⟩ | ⟨_, _, rfl⟩ | ⟨_, unseen, rfl⟩⟩ := step_cases stepped
  · simp only [remaining, onStack, List.length_cons]
    omega
  · simp only [remaining, onStack, List.length_cons]
    omega
  · have room : p.entered.length + 1 ≤ nodes.length := by
      have subset : node :: p.entered ⊆ nodes := by
        intro n member
        rcases List.mem_cons.mp member with rfl | old
        · exact reachable_mem inside closed (invariant.reached n (Or.inr (by simp [onStack])))
        · exact reachable_mem inside closed (invariant.reached n (Or.inl old))
      exact (List.subperm_of_subset (List.nodup_cons.mpr ⟨unseen, invariant.enteredNodup⟩)
        subset).length_le
    have degree := narrow node
    have split : nodes.length - p.entered.length =
        (nodes.length - (p.entered.length + 1)) + 1 := by omega
    simp only [remaining, onStack, List.length_cons, List.length_append, split, Nat.mul_add]
    omega

/-- With enough fuel the traversal empties its stack and keeps the invariant. -/
theorem iterate_spec {succs : α → List α} {root : α} {nodes : List α} {width : Nat}
    (inside : root ∈ nodes) (closed : ∀ node ∈ nodes, ∀ next ∈ succs node, next ∈ nodes)
    (narrow : ∀ node, (succs node).length ≤ width) {fuel : Nat} {p : Progress α}
    (invariant : Invariant succs root p) (enough : remaining nodes.length width p ≤ fuel) :
    Invariant succs root (iterate succs fuel p) ∧ (iterate succs fuel p).stack = [] := by
  induction fuel generalizing p with
  | zero =>
    have empty : p.stack.length = 0 := by
      unfold remaining at enough
      omega
    exact ⟨invariant, List.eq_nil_of_length_eq_zero empty⟩
  | succ fuel ih =>
    cases stepped : step succs p with
    | none =>
      have same : iterate succs (fuel + 1) p = p := by simp [iterate, stepped]
      rw [same]
      exact ⟨invariant, step_eq_none_iff.mp stepped⟩
    | some next =>
      have same : iterate succs (fuel + 1) p = iterate succs fuel next := by
        simp [iterate, stepped]
      rw [same]
      have used := remaining_step invariant inside closed narrow stepped
      exact ih (invariant.step stepped) (by omega)

section Order

variable {succs : α → List α} {root : α} {nodes : List α} {width fuel : Nat}

/-- The order holds exactly the nodes reachable from the root. -/
theorem mem_order_iff (inside : root ∈ nodes)
    (closed : ∀ node ∈ nodes, ∀ next ∈ succs node, next ∈ nodes)
    (narrow : ∀ node, (succs node).length ≤ width)
    (enough : 1 + (width + 1) * nodes.length ≤ fuel) (node : α) :
    node ∈ order succs fuel root ↔
      Relation.ReflTransGen (fun a b => b ∈ succs a) root node := by
  have bound : remaining nodes.length width (start root) ≤ fuel := by
    simpa [remaining, start] using enough
  obtain ⟨invariant, ended⟩ := iterate_spec inside closed narrow (.start succs root) bound
  exact invariant.finished_iff ended node

/-- No node is finished twice. -/
theorem order_nodup (inside : root ∈ nodes)
    (closed : ∀ node ∈ nodes, ∀ next ∈ succs node, next ∈ nodes)
    (narrow : ∀ node, (succs node).length ≤ width)
    (enough : 1 + (width + 1) * nodes.length ≤ fuel) : (order succs fuel root).Nodup := by
  have bound : remaining nodes.length width (start root) ≤ fuel := by
    simpa [remaining, start] using enough
  exact (iterate_spec inside closed narrow (.start succs root) bound).1.finishedNodup

end Order

section PostOrder

variable {succs : α → List α} {root : α} {p p' : Progress α}

/-- Every iteration on an acyclic graph keeps the order. -/
theorem PostOrder.step (acyclic : AcyclicFrom succs root) (invariant : Invariant succs root p)
    (ordered : PostOrder succs p) (stepped : step succs p = some p') : PostOrder succs p' := by
  obtain ⟨top, rest, onStack, ⟨done, rfl⟩ | ⟨undone, seen, rfl⟩ | ⟨undone, unseen, rfl⟩⟩ :=
    step_cases stepped
  · refine ⟨fun node entered unfinished => ?_, ordered.settled⟩
    obtain ⟨above, below, opened⟩ := ordered.opened node entered unfinished
    exact opened.pop onStack (fun same => unfinished (by rw [same]; exact done))
      (fun _ => id) done
  · -- Nothing that the finished node waits for is above it.
    have ready : ∀ next ∈ succs top, next ∈ p.finished := by
      obtain ⟨above, below, opened⟩ := ordered.opened top seen undone
      have atTop := opened.stack
      rw [onStack] at atTop
      cases above with
      | nil => exact fun next edge => (opened.waiting next edge).resolve_right (by simp)
      | cons first above =>
        obtain ⟨rfl, -⟩ := List.cons.inj atTop
        exact absurd (opened.descend _ List.mem_cons_self)
          (acyclic _ (invariant.reached _ (Or.inl seen)))
    refine ⟨fun node entered unfinished => ?_, fun before node after split next edge => ?_⟩
    · simp only [List.mem_append, List.mem_singleton, not_or] at unfinished
      obtain ⟨above, below, opened⟩ := ordered.opened node entered unfinished.1
      exact opened.pop onStack unfinished.2 (fun _ => List.mem_append_left _) (by simp)
    · cases after using List.reverseRecOn with
      | nil =>
        obtain ⟨rfl, same⟩ := List.append_inj' split rfl
        obtain rfl : top = node := by simpa using same
        exact ready next edge
      | append_singleton after last _ =>
        have split' : p.finished ++ [top] = (before ++ node :: after) ++ [last] := by
          simpa using split
        exact ordered.settled before node after (List.append_inj' split' rfl).1 next edge
  · refine ⟨fun node entered unfinished => ?_, ordered.settled⟩
    rcases List.mem_cons.mp entered with rfl | old
    · exact ⟨succs node, rest, rfl, fun n edge => .single edge, fun next edge => Or.inr edge⟩
    · obtain ⟨above, below, opened⟩ := ordered.opened node old unfinished
      have stack := opened.stack
      rw [onStack] at stack
      cases above with
      | nil =>
        obtain ⟨rfl, -⟩ := List.cons.inj stack
        exact absurd old unseen
      | cons first above =>
        obtain ⟨rfl, rfl⟩ := List.cons.inj stack
        have leads := opened.descend _ List.mem_cons_self
        refine ⟨succs top ++ top :: above, below, by simp, fun n member => ?_, fun next edge => ?_⟩
        · rcases List.mem_append.mp member with pushed | kept
          · exact leads.tail pushed
          · exact opened.descend n kept
        · exact (opened.waiting next edge).imp_right (List.mem_append_right _)

private theorem iterate_postOrder (acyclic : AcyclicFrom succs root) {fuel : Nat}
    (invariant : Invariant succs root p) (ordered : PostOrder succs p) :
    PostOrder succs (iterate succs fuel p) := by
  induction fuel generalizing p with
  | zero => exact ordered
  | succ fuel ih =>
    cases stepped : step succs p with
    | none =>
      have same : iterate succs (fuel + 1) p = p := by simp [iterate, stepped]
      rwa [same]
    | some next =>
      have same : iterate succs (fuel + 1) p = iterate succs fuel next := by
        simp [iterate, stepped]
      rw [same]
      exact ih (invariant.step stepped) (ordered.step acyclic invariant stepped)

/-- On an acyclic graph a node is finished after all its successors. -/
theorem order_postOrder (acyclic : AcyclicFrom succs root) {fuel : Nat} {before after : List α}
    {node : α} (split : order succs fuel root = before ++ node :: after) :
    ∀ next ∈ succs node, next ∈ before :=
  (iterate_postOrder acyclic (.start succs root) (.start succs root)).settled before node after
    split

end PostOrder

end Traversal

end Qbt.Worklist
