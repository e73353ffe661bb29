import Qbt.Ssa.Params

/-!
# The result of `build_params`

On a function that no pass has annotated `build_params` returns, with the parameters
of `paramTable`: each block's are computed from those of the successors finished
before it.
-/

namespace Qbt.Ssa

/-- What a table of parameters holds for a successor. -/
def tableAt (table : Nat → List Val) : Option Nat → List Val
  | none => []
  | some id => table id

/-- The parameters a block is given when it is finished. -/
def newParams (table : Nat → List Val) (b : Blk) : List Val :=
  match requiredParams (tableAt table b.s1) (if b.s2 ≠ b.s1 then tableAt table b.s2 else []) b with
  | .ok required => required
  | .error _ => []

/-- Finishing one block. -/
def finishBlk (f : Fn) (table : Nat → List Val) (id : Nat) : Nat → List Val :=
  match f.find? id with
  | none => table
  | some b => Function.update table id (newParams table b)

/-- The parameters of all blocks when the blocks of `done` are finished. -/
def paramTable (f : Fn) (done : List Nat) : Nat → List Val :=
  done.foldl (finishBlk f) fun _ => []

section Table

variable {f : Fn} {done : List Nat}

/-- The block that is finished last is added last. -/
theorem paramTable_snoc (f : Fn) (done : List Nat) (id : Nat) :
    paramTable f (done ++ [id]) = finishBlk f (paramTable f done) id := by
  simp [paramTable]

private theorem finishBlk_of_ne (f : Fn) (table : Nat → List Val) {id other : Nat}
    (differs : other ≠ id) : finishBlk f table id other = table other := by
  unfold finishBlk
  cases f.find? id with
  | none => rfl
  | some b => exact Function.update_of_ne differs _ _

/-- A finished block has its new parameters. -/
theorem finishBlk_self {table : Nat → List Val} {id : Nat} {b : Blk} (found : f.find? id = some b) :
    finishBlk f table id id = newParams table b := by
  simp only [finishBlk, found]
  exact Function.update_self ..

/-- A block has no parameters before it is finished. -/
theorem paramTable_of_notMem {id : Nat} (unfinished : id ∉ done) : paramTable f done id = [] := by
  induction done using List.reverseRecOn with
  | nil => rfl
  | append_singleton done last ih =>
    simp only [List.mem_append, List.mem_singleton, not_or] at unfinished
    rw [paramTable_snoc, finishBlk_of_ne f _ unfinished.2, ih unfinished.1]

/-- A finished block keeps its parameters. -/
theorem paramTable_append {before after : List Nat} {id : Nat} (finished : id ∉ after) :
    paramTable f (before ++ after) id = paramTable f before id := by
  induction after using List.reverseRecOn with
  | nil => rw [List.append_nil]
  | append_singleton after last ih =>
    simp only [List.mem_append, List.mem_singleton, not_or] at finished
    rw [← List.append_assoc, paramTable_snoc, finishBlk_of_ne f _ finished.2, ih finished.1]

/-- What a finished block's parameters are, as sets. -/
structure ParamList (params : List Val) : Prop where
  nodup : params.Nodup
  temps : ∀ p ∈ params, p.isTmp

/-- Parameters in the table are temporaries. -/
theorem tableAt_temps {table : Nat → List Val} (lists : ∀ id, ParamList (table id))
    (target : Option Nat) : ∀ p ∈ tableAt table target, p.isTmp := by
  cases target with
  | none => simp [tableAt]
  | some id => exact (lists id).temps

/-- The new parameters are what `requiredParams` returns for the block. -/
theorem newParams_spec {table : Nat → List Val} (lists : ∀ id, ParamList (table id)) (b : Blk) :
    requiredParams (tableAt table b.s1) (if b.s2 ≠ b.s1 then tableAt table b.s2 else []) b =
        .ok (newParams table b) ∧
      ParamList (newParams table b) ∧
      tempsOf (newParams table b) = b.exposed ∪
        ((tempsOf (tableAt table b.s1) ∪ tempsOf (tableAt table b.s2)) \ b.defined) := by
  have temps2 : ∀ p ∈ (if b.s2 ≠ b.s1 then tableAt table b.s2 else []), p.isTmp := by
    split
    · exact tableAt_temps lists b.s2
    · simp
  obtain ⟨required, returned, nodup, temps, members⟩ :=
    requiredParams_spec b (tableAt_temps lists b.s1) temps2
  have same : newParams table b = required := by simp only [newParams, returned]
  rw [same]
  refine ⟨returned, ⟨nodup, temps⟩, ?_⟩
  rw [members]
  split
  · rfl
  · -- Two edges to one block forward the same temporaries once.
    rename_i equal
    have equal : b.s2 = b.s1 := not_not.mp equal
    rw [equal]
    simp

/-- Every entry of the table is a list of parameters. -/
theorem paramTable_list (f : Fn) (done : List Nat) (id : Nat) :
    ParamList (paramTable f done id) := by
  induction done using List.reverseRecOn generalizing id with
  | nil => exact ⟨List.nodup_nil, by simp [paramTable]⟩
  | append_singleton done last ih =>
    rw [paramTable_snoc]
    by_cases same : id = last
    · subst id
      cases found : f.find? last with
      | none =>
        simp only [finishBlk, found]
        exact ih last
      | some b =>
        rw [finishBlk_self found]
        exact (newParams_spec ih b).2.1
    · rw [finishBlk_of_ne f _ same]
      exact ih id

end Table

/-- The block with the parameters of a table and a visit counter. -/
def setParams (table : Nat → List Val) (marks : Blk → Nat) (b : Blk) : Blk :=
  { b with params := table b.id, visited := marks b }

theorem setParams_sameNode (table : Nat → List Val) (marks : Blk → Nat) (b : Blk) :
    SameNode b (setParams table marks b) := ⟨rfl, rfl, rfl, rfl⟩

/-- The function whose blocks have the given parameters and visit counters. -/
def withParams (f : Fn) (table : Nat → List Val) (marks : Blk → Nat) : Fn :=
  f.mapBlks (setParams table marks)

/-- A block is found with its parameters under its name. -/
theorem find?_withParams (f : Fn) (table : Nat → List Val) (marks : Blk → Nat) (id : Nat) :
    (withParams f table marks).find? id = (f.find? id).map (setParams table marks) :=
  Fn.find?_mapBlks (fun b => (setParams_sameNode table marks b).id) id

section Staged

variable {f : Fn}

private theorem targetParams_withParams {table : Nat → List Val} {marks : Blk → Nat}
    {target : Option Nat} (listed : ∀ id, target = some id → id ∈ f.ids) :
    targetParams (withParams f table marks) target = .ok (tableAt table target) := by
  cases target with
  | none => rfl
  | some id =>
    obtain ⟨b, found⟩ := Fn.exists_find? (listed id rfl)
    have mapped : (withParams f table marks).find? id = some (setParams table marks b) := by
      rw [find?_withParams, found]
      rfl
    simp [targetParams, Fn.deref_of_find? mapped, tableAt, setParams, Fn.find?_id found]

/-- `build_params` fills in the table block by block. -/
theorem build_staged (raw : Raw f) :
    Staged f clearReturn buildBlkParams
      fun done b => { b with params := paramTable f done b.id } where
  layout := raw.toLayout
  keepsId _ _ := rfl
  keepsPushed _ _ := rfl
  prepared := by
    intro b member done visited
    unfold clearReturn
    by_cases returns : b.isReturn
    · have none := raw.returns b member returns
      simp [none.1, none.2]
    · exact if_neg returns
  other := by
    intro done id b differs
    rw [paramTable_snoc, finishBlk_of_ne f _ differs]
  works := by
    intro done marks b member unfinished
    have found := Fn.find?_of_mem raw.nodup member
    have target1 : targetParams (withParams f (paramTable f done) marks) b.s1 = _ :=
      targetParams_withParams fun id edge => raw.successor member (Or.inl edge)
    have target2 : targetParams (withParams f (paramTable f done) marks) b.s2 = _ :=
      targetParams_withParams fun id edge => raw.successor member (Or.inr edge)
    have required := (newParams_spec (paramTable_list f done) b).1
    have next : paramTable f (done ++ [b.id]) b.id = newParams (paramTable f done) b := by
      rw [paramTable_snoc, finishBlk_self found]
    have empty : paramTable f done b.id = [] := paramTable_of_notMem unfinished
    have worked : buildBlkParams (withParams f (paramTable f done) marks)
        (setParams (paramTable f done) marks b) =
          .ok { b with params := newParams (paramTable f done) b, visited := marks b } := by
      -- What a block requires does not depend on its own parameters.
      have required' : requiredParams (tableAt (paramTable f done) b.s1)
          (if b.s2 ≠ b.s1 then tableAt (paramTable f done) b.s2 else [])
          { b with params := paramTable f done b.id, visited := marks b } = _ := required
      by_cases differ : b.s2 ≠ b.s1
      · rw [if_pos differ, empty] at required'
        simp [buildBlkParams, setParams, target1, target2, differ, required', empty]
      · rw [if_neg differ, empty] at required'
        simp [buildBlkParams, setParams, target1, differ, required', empty]
    rw [next]
    exact worked

/-- The function `build_params` leaves: parameters in all blocks reachable from `root`,
and two visits of each. -/
def annotated (f : Fn) (root : Nat) : Fn :=
  withParams f (paramTable f (order f root)) fun b => if b.id ∈ order f root then 2 else 0

/-- A dereferenced block has its parameters. -/
theorem deref_annotated {root : Nat} {b : Blk} (found : f.find? b.id = some b) :
    (annotated f root).deref b.id = .ok { b with
      params := paramTable f (order f root) b.id
      visited := if b.id ∈ order f root then 2 else 0 } := by
  apply Fn.deref_of_find?
  rw [annotated, find?_withParams, found]
  rfl

/-- `build_params` returns, and the finished blocks are those of the traversal. -/
theorem buildParams_eq (raw : Raw f) {root : Nat} (listed : root ∈ f.ids) :
    buildParams f root 0 = .ok (annotated f root) := by
  have traversed := traverse_eq (build_staged raw) listed raw.visited fun b member => by
    have empty : paramTable f [] b.id = b.params := (raw.params b member).symm
    rw [empty]
  rw [buildParams, traversed]
  simp only [Nat.zero_add]
  rfl

end Staged

end Qbt.Ssa
