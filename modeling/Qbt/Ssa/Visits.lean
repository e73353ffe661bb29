import Qbt.Ssa.Iterations

/-!
# Visits of an arbitrary graph

A traversal that starts with equal counters follows the two-phase traversal of the graph it finds
in the blocks, whatever the edges are. It enters each block once and does its work for each block in
one iteration. Until then the block is as it was when it was entered, and behind that it is left
alone.
-/

namespace Qbt.Ssa

/-- The nodes that can be reached from the root. -/
def Within (succs : Nat → List Nat) (root : Nat) : Nat → Prop :=
  Relation.ReflTransGen (fun a b => b ∈ succs a) root

/-- The loop follows the graph `succs` on the blocks `ids` from `root`: every block satisfies
`P`, a block that has been popped also `Q`, and on such blocks the work never fails. -/
structure Follows (ids : List Nat) (succs : Nat → List Nat) (root : Nat) (prepare : Blk → Blk)
    (work : Fn → Blk → Result Blk) (P Q : Blk → Prop) : Prop where
  closed : ∀ node ∈ ids, ∀ next ∈ succs node, next ∈ ids
  narrow : ∀ node, (succs node).length ≤ 2
  prepares : ∀ b, P b → P (prepare b) ∧ Q (prepare b) ∧ (prepare b).id = b.id ∧
    (prepare b).visited = b.visited
  again : ∀ b, prepare (prepare b).visit = (prepare b).visit
  pushes : ∀ b, P b → Within succs root b.id → (prepare b).pushed = succs b.id
  works : ∀ f b, f.ids = ids → (∀ c ∈ f.blks, P c) → P b → Q b →
    ∃ b', work f b = .ok b' ∧ P b' ∧ Q b' ∧ b'.id = b.id ∧ b'.visited = b.visited
  visits : ∀ b, P b → Q b → P b.visit ∧ Q b.visit

/-- What the counter of a block says in the course of a traversal. -/
def marks (visited : Nat) (p : Worklist.Progress Nat) (id : Nat) : Nat :=
  visited + (if id ∈ p.entered then 1 else 0) + if id ∈ p.finished then 1 else 0

/-- The blocks in the course of a traversal that started with `original`. The counters of
blocks that cannot be reached do not matter. -/
structure Tracks (ids : List Nat) (reached : Nat → Prop) (P Q : Blk → Prop) (visited : Nat)
    (original : Nat → Option Blk) (f : Fn) (p : Worklist.Progress Nat) : Prop where
  ids : f.ids = ids
  kept : ∀ b ∈ f.blks, P b
  popped : ∀ b ∈ f.blks, b.id ∈ p.entered → Q b
  counted : ∀ b ∈ f.blks, reached b.id → b.visited = marks visited p b.id
  untouched : ∀ id, id ∉ p.entered → f.find? id = original id

/-- The function `m` as it is when the blocks of `before` have been worked on, in a traversal from
`original` to `f`. -/
structure Moment (prepare : Blk → Blk) (original : Nat → Option Blk) (f : Fn) (before : List Nat)
    (m : Fn) : Prop where
  finished : ∀ id ∈ before, m.find? id = f.find? id
  others : ∀ id, id ∉ before → m.find? id = original id ∨
    ∃ b, original id = some b ∧ m.find? id = some (prepare b).visit

/-- What became of the blocks in the course of a traversal: one that has been entered is as
`prepare` left it, and one that is finished has been worked on once. -/
structure Records (prepare : Blk → Blk) (work : Fn → Blk → Result Blk)
    (original : Nat → Option Blk) (f : Fn) (p : Worklist.Progress Nat) : Prop where
  waiting : ∀ id ∈ p.entered, id ∉ p.finished →
    ∃ b, original id = some b ∧ f.find? id = some (prepare b).visit
  worked : ∀ before id after, p.finished = before ++ id :: after →
    ∃ b m b', original id = some b ∧ Moment prepare original f before m ∧
      work m (prepare b).visit = .ok b' ∧ f.find? id = some b'.visit

section Loop

variable {ids : List Nat} {succs : Nat → List Nat} {root visited : Nat} {prepare : Blk → Blk}
  {work : Fn → Blk → Result Blk} {P Q : Blk → Prop} {original : Nat → Option Blk}
  {f : Fn} {p p' : Worklist.Progress Nat}

private theorem mem_put {b c : Blk} (member : c ∈ (f.put b).blks) :
    c = b ∨ c ∈ f.blks ∧ c.id ≠ b.id := by
  obtain ⟨old, listed, rfl⟩ := List.mem_map.mp member
  by_cases same : old.id = b.id
  · exact Or.inl (if_pos same)
  · rw [if_neg same]
    exact Or.inr ⟨listed, same⟩

/-- A block is stored when its counter has been raised. -/
private theorem Tracks.put
    (tracks : Tracks ids (Within succs root) P Q visited original f p) {b : Blk}
    (listed : b.id ∈ ids) (kept : P b) (popped : Q b)
    (counted : b.visited = marks visited p' b.id) (entered : b.id ∈ p'.entered)
    (others : ∀ id, id ≠ b.id → (id ∈ p'.entered ↔ id ∈ p.entered) ∧
      marks visited p' id = marks visited p id) :
    Tracks ids (Within succs root) P Q visited original (f.put b) p' where
  ids := by rw [Fn.ids_put, tracks.ids]
  kept c member := by
    rcases mem_put member with rfl | ⟨old, -⟩
    · exact kept
    · exact tracks.kept c old
  popped c member inside := by
    rcases mem_put member with rfl | ⟨old, differs⟩
    · exact popped
    · exact tracks.popped c old ((others c.id differs).1.mp inside)
  counted c member inside := by
    rcases mem_put member with rfl | ⟨old, differs⟩
    · exact counted
    · rw [tracks.counted c old inside, (others c.id differs).2]
  untouched id outside := by
    have differs : id ≠ b.id := fun same => outside (by rw [same]; exact entered)
    rw [Fn.find?_put (by rwa [tracks.ids]), if_neg differs]
    exact tracks.untouched id fun inside => outside ((others id differs).1.mpr inside)

/-- Storing a block that is not finished leaves the finished ones and their records alone. -/
private theorem Records.earlier (records : Records prepare work original f p) {b : Blk}
    (listed : b.id ∈ f.ids) (unfinished : b.id ∉ p.finished) {before after : List Nat} {id : Nat}
    (split : p.finished = before ++ id :: after) :
    ∃ c m c', original id = some c ∧ Moment prepare original (f.put b) before m ∧
      work m (prepare c).visit = .ok c' ∧ (f.put b).find? id = some c'.visit := by
  have kept {other : Nat} (finished : other ∈ p.finished) :
      (f.put b).find? other = f.find? other := by
    rw [Fn.find?_put listed, if_neg fun (same : other = b.id) => unfinished (same ▸ finished)]
  obtain ⟨c, m, c', found, moment, worked, final⟩ := records.worked before id after split
  refine ⟨c, m, c', found, ⟨fun other member => ?_, moment.others⟩, worked, ?_⟩
  · rw [kept (by rw [split]; exact List.mem_append_left _ member)]
    exact moment.finished other member
  · rw [kept (by simp [split])]
    exact final

/-- A block is entered. -/
private theorem Records.enter (records : Records prepare work original f p) {b : Blk}
    (found : original b.id = some b) (sameId : (prepare b).id = b.id) (listed : b.id ∈ f.ids)
    (unfinished : b.id ∉ p.finished) (stack : List Nat) :
    Records prepare work original (f.put (prepare b).visit)
      { p with entered := b.id :: p.entered, stack } := by
  have same : (prepare b).visit.id = b.id := sameId
  constructor
  · intro id entered undone
    rw [Fn.find?_put (by rwa [same]), same]
    by_cases here : id = b.id
    · rw [if_pos here, here]
      exact ⟨b, found, rfl⟩
    · rw [if_neg here]
      exact records.waiting id ((List.mem_cons.mp entered).resolve_left here) undone
  · intro before id after split
    exact records.earlier (by rwa [same]) (by rwa [same]) split

/-- A block is worked on. -/
private theorem Records.finish (records : Records prepare work original f p)
    (again : ∀ b, prepare (prepare b).visit = (prepare b).visit)
    (untouched : ∀ id, id ∉ p.entered → f.find? id = original id) {c b' : Blk}
    (here : f.find? c.id = some c) (seen : c.id ∈ p.entered) (unfinished : c.id ∉ p.finished)
    (sameId : b'.id = c.id) (worked : work (f.put (prepare c)) (prepare c) = .ok b')
    (stack : List Nat) :
    Records prepare work original (f.put b'.visit)
      { p with finished := p.finished ++ [c.id], stack } := by
  have same : b'.visit.id = c.id := sameId
  have listed : c.id ∈ f.ids := Fn.find?_isSome_iff.mp (by simp [here])
  have stored (id : Nat) := Fn.find?_put (f := f) (b := b'.visit) (by rwa [same]) id
  rw [same] at stored
  constructor
  · intro id entered undone
    rw [List.mem_append, List.mem_singleton, not_or] at undone
    rw [stored, if_neg undone.2]
    exact records.waiting id entered undone.1
  · intro done id after split
    change p.finished ++ [c.id] = done ++ id :: after at split
    rcases List.eq_nil_or_concat after with rfl | ⟨after, last, rfl⟩
    · -- It is the block that is finished now.
      obtain ⟨rfl, last⟩ := List.append_inj' split rfl
      obtain rfl : c.id = id := by simpa using last
      obtain ⟨b, found, final⟩ := records.waiting c.id seen unfinished
      obtain rfl : c = (prepare b).visit := Option.some.inj (here.symm.trans final)
      rw [again] at worked
      -- Nothing was stored but the block as it was.
      have kept (id : Nat) : (f.put (prepare b).visit).find? id = f.find? id := by
        rw [Fn.find?_put listed]
        split
        · rename_i equal
          rw [equal, here]
        · rfl
      refine ⟨b, f.put (prepare b).visit, b', found, ⟨fun id member => ?_, fun id away => ?_⟩,
        worked, by rw [stored, if_pos rfl]⟩
      · have differs : id ≠ (prepare b).visit.id := fun equal => unfinished (equal ▸ member)
        rw [kept, stored, if_neg differs]
      · rw [kept]
        by_cases entered : id ∈ p.entered
        · exact Or.inr (records.waiting id entered away)
        · exact Or.inl (untouched id entered)
    · have earlier : p.finished = done ++ id :: after := by
        have shape : done ++ id :: (after.concat last) = (done ++ id :: after) ++ [last] := by
          simp
        rw [shape] at split
        exact (List.append_inj' split rfl).1
      exact records.earlier (by rwa [same]) (by rwa [same]) earlier

/-- An iteration of the loop takes a step of the abstract traversal, and works on what that
finishes. -/
private theorem Follows.step (follows : Follows ids succs root prepare work P Q)
    (listed : root ∈ ids) (invariant : Worklist.Invariant succs root p)
    (tracks : Tracks ids (Within succs root) P Q visited original f p)
    (records : Records prepare work original f p) (stepped : Worklist.step succs p = some p') :
    ∃ g turn, Iteration prepare work visited ⟨f, p.stack⟩ turn ⟨g, p'.stack⟩ ∧
      p'.finished = p.finished ++ turn.toList ∧
      Tracks ids (Within succs root) P Q visited original g p' ∧
      Records prepare work original g p' := by
  obtain ⟨node, rest, onStack, outcome⟩ := Worklist.step_cases stepped
  have path := invariant.reached node (Or.inr (by simp [onStack]))
  have here : node ∈ ids := Worklist.reachable_mem listed follows.closed path
  obtain ⟨b, found⟩ := Fn.exists_find? (f := f) (by rw [tracks.ids]; exact here)
  obtain rfl : b.id = node := Fn.find?_id found
  have member := Fn.find?_mem found
  have counted := tracks.counted b member path
  have popped := Fn.deref_of_find? found
  rw [onStack]
  obtain ⟨keptB, poppedB, idB, visitedB⟩ := follows.prepares b (tracks.kept b member)
  rcases outcome with ⟨done, rfl⟩ | ⟨undone, seen, rfl⟩ | ⟨undone, unseen, rfl⟩
  · have isDone : b.done visited := by
      simp [Blk.done, counted, marks, done, invariant.finished b.id done]
    exact ⟨f, none, .drop popped isDone, by simp,
      ⟨tracks.ids, tracks.kept, tracks.popped, tracks.counted, tracks.untouched⟩,
      ⟨records.waiting, records.worked⟩⟩
  · have notDone : ¬ b.done visited := by simp [Blk.done, counted, marks, undone, seen]
    have entered : (prepare b).entered visited := by
      simp [Blk.entered, visitedB, counted, marks, undone, seen]
    have before : Tracks ids (Within succs root) P Q visited original (f.put (prepare b)) p :=
      tracks.put (by rwa [idB]) keptB poppedB (by rw [visitedB, counted, idB])
        (by rwa [idB]) fun _ _ => ⟨Iff.rfl, rfl⟩
    obtain ⟨b', made, kept', popped', id', visited'⟩ :=
      follows.works _ (prepare b) before.ids before.kept keptB poppedB
    obtain ⟨keptV, poppedV⟩ := follows.visits b' kept' popped'
    have same : b'.visit.id = b.id := id'.trans idB
    refine ⟨f.put b'.visit, some b.id, .work popped notDone entered made, rfl,
      tracks.put (by rwa [same]) keptV poppedV ?_ (by rwa [same]) fun id differs => ⟨Iff.rfl, ?_⟩,
      records.finish follows.again tracks.untouched found seen undone
        (show b'.id = b.id from same) made rest⟩
    · rw [same]
      simp [Blk.visit, visited', visitedB, counted, marks, undone, seen]
    · rw [same] at differs
      simp [marks, differs]
  · have notDone : ¬ b.done visited := by simp [Blk.done, counted, marks, undone, unseen]
    have notEntered : ¬ (prepare b).entered visited := by
      simp [Blk.entered, visitedB, counted, marks, undone, unseen]
    obtain ⟨keptV, poppedV⟩ := follows.visits _ keptB poppedB
    have same : (prepare b).visit.id = b.id := idB
    have pushed : (prepare b).pushed ++ (prepare b).id :: rest = succs b.id ++ b.id :: rest := by
      rw [follows.pushes b (tracks.kept b member) path, idB]
    have entering : Iteration prepare work visited ⟨f, b.id :: rest⟩ none _ :=
      .enter popped notDone notEntered
    rw [pushed] at entering
    have unfinished : b.id ∉ p.finished := fun done => unseen (invariant.finished b.id done)
    refine ⟨f.put (prepare b).visit, none, entering, by simp,
      tracks.put (by rwa [same]) keptV poppedV ?_ (by rw [same]; exact List.mem_cons_self)
        fun id differs => ?_,
      records.enter (by rw [← tracks.untouched b.id unseen, found]) idB (by rwa [tracks.ids])
        unfinished _⟩
    · rw [same]
      simp [Blk.visit, visitedB, counted, marks, undone, unseen]
    · rw [same] at differs
      simp [marks, differs]

/-- The loop takes the steps of the abstract traversal, and works on what that finishes. -/
private theorem Follows.traverse (follows : Follows ids succs root prepare work P Q)
    (listed : root ∈ ids) {fuel : Nat} (invariant : Worklist.Invariant succs root p)
    (tracks : Tracks ids (Within succs root) P Q visited original f p)
    (records : Records prepare work original f p)
    (enough : Worklist.remaining ids.length 2 p ≤ fuel) :
    ∃ g worked, traverse prepare work visited fuel p.stack f = .ok g ∧
      Iterations prepare work visited ⟨f, p.stack⟩ worked ⟨g, []⟩ ∧
      p.finished ++ worked = (Worklist.iterate succs fuel p).finished ∧
      Tracks ids (Within succs root) P Q visited original g (Worklist.iterate succs fuel p) ∧
      Records prepare work original g (Worklist.iterate succs fuel p) := by
  induction fuel generalizing p f with
  | zero =>
    have empty : p.stack = [] := by
      apply List.eq_nil_of_length_eq_zero
      unfold Worklist.remaining at enough
      omega
    refine ⟨f, [], by simp [empty, Ssa.traverse], ?_, by simp [Worklist.iterate], tracks, records⟩
    rw [empty]
    exact .refl
  | succ fuel ih =>
    cases stepped : Worklist.step succs p with
    | none =>
      have empty := Worklist.step_eq_none_iff.mp stepped
      have still : Worklist.iterate succs (fuel + 1) p = p := by simp [Worklist.iterate, stepped]
      rw [still]
      refine ⟨f, [], by simp [empty, Ssa.traverse], ?_, by simp, tracks, records⟩
      rw [empty]
      exact .refl
    | some next =>
      have used := Worklist.remaining_step invariant listed follows.closed follows.narrow stepped
      have iterated : Worklist.iterate succs (fuel + 1) p = Worklist.iterate succs fuel next := by
        simp [Worklist.iterate, stepped]
      obtain ⟨g, turn, iteration, finished, tracks, records⟩ :=
        follows.step listed invariant tracks records stepped
      obtain ⟨h, worked, returned, others, all, after⟩ :=
        ih (invariant.step stepped) tracks records (by omega)
      rw [iterated]
      refine ⟨h, turn.toList ++ worked, (iteration.traverse_succ fuel).trans returned,
        .step iteration others, ?_, after⟩
      rw [← all, finished, List.append_assoc]

/-- A traversal from the root returns, works on the reachable blocks in the abstract order, and
leaves the others alone. -/
theorem Follows.run (follows : Follows ids succs root prepare work P Q)
    (listed : root ∈ ids) (sameIds : f.ids = ids) (kept : ∀ b ∈ f.blks, P b)
    (unvisited : ∀ b ∈ f.blks, Within succs root b.id → b.visited = visited) :
    ∃ g, Ssa.traverse prepare work visited (3 * ids.length + 1) [root] f = .ok g ∧
      Iterations prepare work visited ⟨f, [root]⟩
        (Worklist.order succs (3 * ids.length + 1) root) ⟨g, []⟩ ∧
      g.ids = ids ∧ (∀ b ∈ g.blks, P b ∧ (Within succs root b.id → Q b ∧ b.visited = visited + 2)) ∧
      (∀ id, ¬ Within succs root id → g.find? id = f.find? id) ∧
      ∀ before id after, Worklist.order succs (3 * ids.length + 1) root = before ++ id :: after →
        ∃ b m b', f.find? id = some b ∧ Moment prepare f.find? g before m ∧
          work m (prepare b).visit = .ok b' ∧ g.find? id = some b'.visit := by
  have bound : Worklist.remaining ids.length 2 (Worklist.start root) ≤ 3 * ids.length + 1 := by
    simp only [Worklist.remaining, Worklist.start, List.length_singleton, List.length_nil]
    omega
  have invariant := Worklist.Invariant.start succs root
  have tracks : Tracks ids (Within succs root) P Q visited f.find? f (Worklist.start root) := {
    ids := sameIds
    kept := kept
    popped := by simp [Worklist.start]
    counted := fun b member inside => by
      simpa [marks, Worklist.start] using unvisited b member inside
    untouched := fun _ _ => rfl }
  have records : Records prepare work f.find? f (Worklist.start root) := {
    waiting := by simp [Worklist.start]
    worked := by simp [Worklist.start] }
  obtain ⟨g, worked, returned, iterations, numbers, after, records⟩ :=
    follows.traverse listed invariant tracks records bound
  obtain rfl : worked = Worklist.order succs (3 * ids.length + 1) root := numbers
  obtain ⟨ended, empty⟩ :=
    Worklist.iterate_spec listed follows.closed follows.narrow invariant bound
  have finished (id : Nat) := ended.finished_iff empty id
  refine ⟨g, returned, iterations, after.ids,
    fun b member => ⟨after.kept b member, fun inside => ?_⟩,
    fun id outside => after.untouched id fun entered => outside ?_, records.worked⟩
  · have done := (finished b.id).mpr inside
    have entered := ended.finished b.id done
    refine ⟨after.popped b member entered, ?_⟩
    rw [after.counted b member inside]
    simp [marks, done, entered]
  · exact ended.reached id (Or.inl entered)

end Loop

end Qbt.Ssa
