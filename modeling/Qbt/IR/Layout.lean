import Qbt.IR.Nodes
import Qbt.Std.Lists
import Mathlib.Logic.Relation

/-!
# The layout of a block list

The printed code relies on the order of the blocks: what is not a branch falls
through to the block behind. `Layout` is that property of a block list together with
the well-formedness of its pointers; `Raw` adds that no pass has yet written the
parameters, the arguments or the visit counters.
-/

namespace Qbt

/-- Apply a change to every block. -/
def Fn.mapBlks (f : Fn) (change : Blk → Blk) : Fn := { f with blks := f.blks.map change }

namespace Fn

variable {f : Fn} {change : Blk → Blk}

/-- A block is found changed under its name. -/
theorem find?_mapBlks (keepsId : ∀ b, (change b).id = b.id) (id : Nat) :
    (f.mapBlks change).find? id = (f.find? id).map change := by
  have same : ((fun b : Blk => b.id == id) ∘ change) = fun b => b.id == id := by
    funext b
    simp [keepsId b]
  simp only [find?, mapBlks, List.find?_map, same]

/-- Only what a change does to the listed blocks matters. -/
theorem mapBlks_congr {other : Blk → Blk} (same : ∀ b ∈ f.blks, change b = other b) :
    f.mapBlks change = f.mapBlks other := by
  simp only [mapBlks, List.map_congr_left same]

theorem mapBlks_id (same : ∀ b ∈ f.blks, change b = b) : f.mapBlks change = f := by
  have unchanged : f.blks.map change = f.blks :=
    (List.map_congr_left same).trans (List.map_id' f.blks)
  simp only [mapBlks, unchanged]

/-- A block that is found can be dereferenced. -/
theorem deref_of_find? {id : Nat} {b : Blk} (found : f.find? id = some b) :
    f.deref id = .ok b := by
  simp [deref, found]

/-- Storing one block turns a change of all blocks into a change that differs from it
in that block only. -/
theorem put_mapBlks {change' : Blk → Blk} (nodup : f.ids.Nodup)
    (keepsId : ∀ b, (change b).id = b.id) {b : Blk} (member : b ∈ f.blks)
    (sameId : (change' b).id = b.id)
    (others : ∀ old ∈ f.blks, old.id ≠ b.id → change old = change' old) :
    (f.mapBlks change).put (change' b) = f.mapBlks change' := by
  have stored : (f.mapBlks change).put (change' b) =
      f.mapBlks fun old => if (change old).id = (change' b).id then change' b else change old := by
    simp only [put, mapBlks, List.map_map, Function.comp_def]
  rw [stored]
  apply mapBlks_congr
  intro old oldMember
  rw [keepsId, sameId]
  by_cases same : old.id = b.id
  · obtain rfl : old = b := List.inj_on_of_nodup_map nodup oldMember member same
    simp
  · rw [if_neg same]
    exact others old oldMember same

end Fn

/-- The edges of the block graph. -/
def Edge (f : Fn) (id next : Nat) : Prop :=
  ∃ b, f.find? id = some b ∧ (b.s1 = some next ∨ b.s2 = some next)

/-- Reachability along any number of edges. -/
def Reaches (f : Fn) : Nat → Nat → Prop := Relation.ReflTransGen (Edge f)

/-- The pointers of a function are well formed and its blocks fall through to the
block behind them. -/
structure Layout (f : Fn) : Prop where
  nonempty : f.blks ≠ []
  nodup : f.ids.Nodup
  falls : ∀ before b after, f.blks = before ++ b :: after → ¬ b.isReturn →
    ∃ next rest, after = next :: rest ∧ b.s1 = some next.id
  branches : ∀ b ∈ f.blks, ¬ b.isReturn → ∃ id ∈ f.ids, b.s2 = some id
  returns : ∀ b ∈ f.blks, b.isReturn → b.s1 = none ∧ b.s2 = none

/-- Two blocks stand at the same place of the same graph. -/
structure SameNode (b b' : Blk) : Prop where
  id : b'.id = b.id
  btype : b'.btype = b.btype
  s1 : b'.s1 = b.s1
  s2 : b'.s2 = b.s2

/-- The same node returns or does not. -/
theorem SameNode.isReturn {b b' : Blk} (same : SameNode b b') : b'.isReturn = b.isReturn := by
  simp [Blk.isReturn, same.btype]

/-- The same nodes have the same names. -/
theorem ids_of_sameNode {f g : Fn} (same : List.Forall₂ SameNode f.blks g.blks) :
    g.ids = f.ids := by
  unfold Fn.ids
  generalize f.blks = lefts at same
  generalize g.blks = rights at same
  induction same with
  | nil => rfl
  | cons head _ ih => rw [List.map_cons, List.map_cons, ih, head.id]

namespace Layout

variable {f : Fn}

/-- A block that does not return has two listed successors. -/
theorem falls_listed (layout : Layout f) {b : Blk} (member : b ∈ f.blks) (stays : ¬ b.isReturn) :
    ∃ id ∈ f.ids, b.s1 = some id := by
  obtain ⟨before, after, split⟩ := List.append_of_mem member
  obtain ⟨next, rest, rfl, target⟩ := layout.falls before b after split stays
  refine ⟨next.id, ?_, target⟩
  exact List.mem_map_of_mem (f := Blk.id) (by simp [split])

/-- Every successor is a listed block. -/
theorem successor (layout : Layout f) {b : Blk} (member : b ∈ f.blks) {id : Nat}
    (edge : b.s1 = some id ∨ b.s2 = some id) : id ∈ f.ids := by
  by_cases returns : b.isReturn
  · have none := layout.returns b member returns
    rw [none.1, none.2] at edge
    simp at edge
  · rcases edge with falls | branches
    · obtain ⟨id', listed, target⟩ := layout.falls_listed member returns
      obtain rfl : id' = id := Option.some.inj (target.symm.trans falls)
      exact listed
    · obtain ⟨id', listed, target⟩ := layout.branches b member returns
      obtain rfl : id' = id := Option.some.inj (target.symm.trans branches)
      exact listed

/-- The layout depends on the graph alone. -/
theorem congr {g : Fn} (layout : Layout f) (same : List.Forall₂ SameNode f.blks g.blks) :
    Layout g where
  nonempty := by
    intro empty
    rw [empty] at same
    exact layout.nonempty (List.forall₂_nil_right_iff.mp same)
  nodup := by
    rw [ids_of_sameNode same]
    exact layout.nodup
  falls := by
    intro before b after split stays
    rw [split] at same
    obtain ⟨before', b', after', split', -, sameB, behind⟩ := Lists.split_of_forall₂ same
    rw [sameB.isReturn] at stays
    obtain ⟨next, rest, rfl, target⟩ := layout.falls before' b' after' split' stays
    obtain ⟨next', rest', sameNext, _, rfl⟩ := List.forall₂_cons_left_iff.mp behind
    exact ⟨next', rest', rfl, by rw [sameB.s1, target, sameNext.id]⟩
  branches := by
    intro b member stays
    obtain ⟨b', member', sameB⟩ := Lists.mem_of_forall₂ same member
    rw [sameB.isReturn] at stays
    rw [ids_of_sameNode same, sameB.s2]
    exact layout.branches b' member' stays
  returns := by
    intro b member returns
    obtain ⟨b', member', sameB⟩ := Lists.mem_of_forall₂ same member
    rw [sameB.isReturn] at returns
    rw [sameB.s1, sameB.s2]
    exact layout.returns b' member' returns

/-- A change that leaves the graph alone keeps the layout. -/
theorem mapBlks {change : Blk → Blk} (layout : Layout f) (keeps : ∀ b, SameNode b (change b)) :
    Layout (f.mapBlks change) :=
  layout.congr (List.forall₂_map_right_iff.mpr (List.forall₂_same.mpr fun b _ => keeps b))

/-- Dropping blocks keeps the layout if no kept block has a dropped successor. -/
theorem filter {keep : Blk → Bool} (layout : Layout f) (some : ∃ b ∈ f.blks, keep b)
    (closed : ∀ b ∈ f.blks, keep b → ∀ next ∈ f.blks,
      b.s1 = .some next.id ∨ b.s2 = .some next.id → keep next) :
    Layout { f with blks := f.blks.filter keep } where
  nonempty := by
    obtain ⟨b, member, kept⟩ := some
    exact List.ne_nil_of_mem (List.mem_filter.mpr ⟨member, kept⟩)
  nodup := (layout.nodup).sublist (List.filter_sublist.map Blk.id)
  falls := by
    intro before b after split stays
    obtain ⟨before', rest, split', _, filtered⟩ := List.filter_eq_append_iff.mp split
    obtain ⟨dropped, after', rfl, _, kept, rfl⟩ := List.filter_eq_cons_iff.mp filtered
    have split'' : f.blks = (before' ++ dropped) ++ b :: after' := by simp [split']
    obtain ⟨next, rest, rfl, target⟩ := layout.falls _ b after' split'' stays
    have keptNext : keep next :=
      closed b (by simp [split'']) kept next (by simp [split'']) (Or.inl target)
    exact ⟨next, rest.filter keep, by simp [keptNext], target⟩
  branches := by
    intro b member stays
    obtain ⟨listed, kept⟩ := List.mem_filter.mp member
    obtain ⟨id, listedId, target⟩ := layout.branches b listed stays
    obtain ⟨next, memberNext, rfl⟩ := List.mem_map.mp listedId
    have keptNext := closed b listed kept next memberNext (Or.inr target)
    refine ⟨next.id, ?_, target⟩
    exact List.mem_map_of_mem (f := Blk.id) (List.mem_filter.mpr ⟨memberNext, keptNext⟩)
  returns b member := layout.returns b (List.mem_filter.mp member).1

end Layout

/-- A function that no pass after the parser has annotated. -/
structure Raw (f : Fn) : Prop extends Layout f where
  params : ∀ b ∈ f.blks, b.params = []
  args1 : ∀ b ∈ f.blks, b.args1 = []
  args2 : ∀ b ∈ f.blks, b.args2 = []
  visited : ∀ b ∈ f.blks, b.visited = 0

end Qbt
