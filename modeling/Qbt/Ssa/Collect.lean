import Qbt.Ssa.Prune

/-!
# The result of `collect_params`

On the reachable blocks with the parameters `build_params` gave them, `collect_params`
passes to each successor exactly the temporaries the successor was given.
-/

namespace Qbt.Ssa

/-- The block with the arguments a table of parameters asks for. -/
def setArgs (table : Nat → List Val) (b : Blk) : Blk :=
  { b with args1 := tableAt table b.s1, args2 := tableAt table b.s2 }

/-- The block with its arguments and a visit counter. -/
def passArgs (table : Nat → List Val) (visited : Nat) (b : Blk) : Blk :=
  { setArgs table b with visited }

/-- A block has the parameters of a table and no arguments. -/
structure Unfilled (table : Nat → List Val) (b : Blk) : Prop where
  params : b.params = table b.id
  args1 : b.args1 = []
  args2 : b.args2 = []

/-- The blocks of `done` have their arguments. -/
def fill (table : Nat → List Val) (done : List Nat) (b : Blk) : Blk :=
  if b.id ∈ done then setArgs table b else b

/-- The blocks of `done` have their arguments, and each block has a visit counter. -/
def fillMarked (table : Nat → List Val) (done : List Nat) (marks : Blk → Nat) (b : Blk) : Blk :=
  { fill table done b with visited := marks b }

section Fill

variable {table : Nat → List Val} {done : List Nat} {b : Blk}

private theorem fill_of_mem (finished : b.id ∈ done) : fill table done b = setArgs table b :=
  if_pos finished

private theorem fill_of_notMem (unfinished : b.id ∉ done) :
    fill table done b = b := if_neg unfinished

private theorem fill_id : (fill table done b).id = b.id := by
  unfold fill
  split <;> rfl

private theorem fillMarked_id {marks : Blk → Nat} :
    (fillMarked table done marks b).id = b.id := fill_id

private theorem fill_params : (fill table done b).params = b.params := by
  unfold fill
  split <;> rfl

private theorem fill_pushed : (fill table done b).pushed = b.pushed := by
  unfold fill
  split <;> rfl

end Fill

section Collect

variable {p : Fn} {table : Nat → List Val}

/-- The parameters of a successor are those of the table while the arguments are filled
in. -/
theorem targetParams_fill (unfilled : ∀ b ∈ p.blks, Unfilled table b) {done : List Nat}
    {marks : Blk → Nat} {target : Option Nat} (listed : ∀ id, target = some id → id ∈ p.ids) :
    targetParams (p.mapBlks (fillMarked table done marks)) target =
      .ok (tableAt table target) := by
  cases target with
  | none => rfl
  | some id =>
    obtain ⟨b, found⟩ := Fn.exists_find? (listed id rfl)
    have mapped : (p.mapBlks (fillMarked table done marks)).find? id =
        some (fillMarked table done marks b) := by
      rw [Fn.find?_mapBlks fun _ => fillMarked_id, found]
      rfl
    have params := (unfilled b (Fn.find?_mem found)).params
    rw [Fn.find?_id found] at params
    simp [targetParams, Fn.deref_of_find? mapped, tableAt, fillMarked, fill_params, params]

/-- `collect_params` fills in the arguments block by block. -/
theorem collect_staged (layout : Layout p) (unfilled : ∀ b ∈ p.blks, Unfilled table b) :
    Staged p id collectBlkParams (fill table) where
  layout := layout
  keepsId _ _ := fill_id
  keepsPushed _ _ := fill_pushed
  prepared _ _ _ _ := rfl
  other := by
    intro done id b differs
    simp [fill, differs]
  works := by
    intro done marks b member unfinished
    have target1 := @targetParams_fill p table unfilled done marks b.s1
      fun id edge => layout.successor member (Or.inl edge)
    have target2 := @targetParams_fill p table unfilled done marks b.s2
      fun id edge => layout.successor member (Or.inr edge)
    have empty := unfilled b member
    change collectBlkParams (p.mapBlks (fillMarked table done marks)) _ = _
    rw [fill_of_notMem unfinished, fill_of_mem (by simp)]
    simp [collectBlkParams, target1, target2, setArgs, empty.args1, empty.args2]

/-- `collect_params` returns, and fills in the arguments of all blocks it reaches. -/
theorem collectParams_eq (layout : Layout p) (unfilled : ∀ b ∈ p.blks, Unfilled table b)
    {root visited : Nat} (listed : root ∈ p.ids) (marked : ∀ b ∈ p.blks, b.visited = visited)
    (reached : ∀ id ∈ p.ids, Reaches p root id) :
    collectParams p root visited =
      .ok (p.mapBlks (passArgs table (visited + 2))) := by
  have traversed := traverse_eq (collect_staged layout unfilled) listed marked
    fun b _ => fill_of_notMem (by simp)
  rw [collectParams, traversed]
  congr 1
  apply Fn.mapBlks_congr
  intro b member
  have ordered : b.id ∈ order p root :=
    (mem_order_iff layout listed b.id).mpr (reached b.id (List.mem_map_of_mem (f := Blk.id) member))
  rw [fill_of_mem ordered, if_pos ordered]
  rfl

end Collect

section Prune

variable {f : Fn} {root : Nat}

/-- The kept blocks are found under their old pointers. -/
theorem find?_prune {id : Nat} (reached : id ∈ order f root) :
    (prune f root).find? id =
      (f.find? id).map (setParams (paramTable f (order f root)) fun _ => 2) := by
  rw [prune, Fn.find?_mapBlks fun b => (setParams_sameNode _ _ b).id]
  congr 1
  simp only [Fn.find?, List.find?_filter]
  congr 1
  funext b
  by_cases same : b.id = id <;> simp [same, reached]

/-- What was reachable in the function is reachable in what is left of it. -/
theorem reaches_prune (layout : Layout f) (listed : root ∈ f.ids) {id : Nat}
    (path : Reaches f root id) : Reaches (prune f root) root id := by
  induction path with
  | refl => exact .refl
  | @tail before after path edge ih =>
    obtain ⟨b, found, successor⟩ := edge
    have reached := (mem_order_iff layout listed before).mpr path
    exact ih.tail ⟨setParams _ _ b, by rw [find?_prune reached, found]; rfl, successor⟩

/-- A pruned block has its parameters and no arguments. -/
theorem prune_unfilled (raw : Raw f) :
    ∀ b ∈ (prune f root).blks, Unfilled (paramTable f (order f root)) b := by
  intro b member
  obtain ⟨original, kept, rfl⟩ := List.mem_map.mp member
  have listed := (List.mem_filter.mp kept).1
  exact ⟨rfl, raw.args1 original listed, raw.args2 original listed⟩

/-- A pruned block has been passed twice. -/
theorem prune_visited : ∀ b ∈ (prune f root).blks, b.visited = 2 := by
  intro b member
  obtain ⟨original, _, rfl⟩ := List.mem_map.mp member
  rfl

end Prune
end Qbt.Ssa
