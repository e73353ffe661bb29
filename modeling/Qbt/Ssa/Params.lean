import Qbt.IR.Uses
import Qbt.Ssa.Traverse
import Qbt.Std.Dataflow
import Qbt.Std.Padded

/-!
# Block parameters

`build_params` gives every block the temporaries it needs from its predecessors as
parameters, `collect_params` passes them along the edges, and `remove_unvisited`
drops the blocks the traversal did not reach. The sets of temporaries are vectors
that hold a temporary at its own index and `NOCLASS` elsewhere.
-/

namespace Qbt.Ssa

/-- `add_val`. -/
def addVal (map : List Val) (v : Val) : Result (List Val) :=
  match v with
  | .tmp i => .ok (Padded.write .noclass map i v)
  | _ => .error .valClass

/-- `remove_val`. -/
def removeVal (map : List Val) (v : Val) : Result (List Val) :=
  match v with
  | .tmp i => .ok (Padded.erase .noclass map i)
  | _ => .error .valClass

/-- `has_val`. -/
def hasVal (map : List Val) (v : Val) : Result Bool :=
  match v with
  | .tmp i => .ok (map.getD i .noclass).hasclass
  | _ => .error .valClass

/-- The three sets `build_params` keeps for a block. -/
structure Maps where
  generated : List Val := []
  forward : List Val := []
  required : List Val := []

/-- An input of an instruction or comparison is required unless it was generated. -/
def require (maps : Maps) (v : Val) : Result Maps := do
  if v.isTmp then
    if ← hasVal maps.generated v then
      pure maps
    else
      pure { maps with required := ← addVal maps.required v }
  else
    pure maps

/-- An output is generated and no longer forwarded. -/
def generate (maps : Maps) (out : Val) : Result Maps := do
  if out.isTmp then
    let generated ← addVal maps.generated out
    if ← hasVal maps.forward out then
      pure { maps with generated, forward := ← removeVal maps.forward out }
    else
      pure { maps with generated }
  else
    pure maps

/-- The loop over the instructions, for one instruction. -/
def collectInsn (maps : Maps) (n : Insn) : Result Maps := do
  let maps ← require maps n.in0
  let maps ← require maps n.in1
  generate maps n.out

/-- The loop over the forwarded values, for one slot. -/
def requireForward (required : List Val) (p : Val) : Result (List Val) := do
  if p.hasclass then
    if ← hasVal required p then
      pure required
    else
      addVal required p
  else
    pure required

/-- What a block requires, given the parameters of its successors. -/
def requiredParams (params1 params2 : List Val) (b : Blk) : Result (List Val) := do
  let forward ← params1.foldlM addVal []
  let forward ← params2.foldlM addVal forward
  let maps ← b.insns.foldlM collectInsn { forward }
  let maps ← require maps b.cmp0
  let maps ← require maps b.cmp1
  let required ← maps.forward.foldlM requireForward maps.required
  pure (required.filter Val.hasclass)

/-- The parameters of a successor, if there is one. -/
def targetParams (f : Fn) : Option Nat → Result (List Val)
  | none => pure []
  | some id => do
    let b ← f.deref id
    pure b.params

/-- What `build_params` does when a block is finished. -/
def buildBlkParams (f : Fn) (b : Blk) : Result Blk := do
  let params1 ← targetParams f b.s1
  let params2 ← if b.s2 ≠ b.s1 then targetParams f b.s2 else pure []
  let required ← requiredParams params1 params2 b
  pure { b with params := b.params ++ required }

/-- What `build_params` does to every block it pops. -/
def clearReturn (b : Blk) : Blk :=
  if b.isReturn then { b with s1 := none, s2 := none } else b

/-- `build_params`. -/
def buildParams (f : Fn) (root visited : Nat) : Result Fn :=
  traverse clearReturn buildBlkParams visited (3 * f.blks.length + 1) [root] f

/-- What `collect_params` does when a block is finished. -/
def collectBlkParams (f : Fn) (b : Blk) : Result Blk := do
  let params1 ← targetParams f b.s1
  let params2 ← targetParams f b.s2
  pure { b with args1 := b.args1 ++ params1, args2 := b.args2 ++ params2 }

/-- `collect_params`. -/
def collectParams (f : Fn) (root visited : Nat) : Result Fn :=
  traverse id collectBlkParams visited (3 * f.blks.length + 1) [root] f

/-- `remove_unvisited`. -/
def removeUnvisited (f : Fn) (visited : Nat) : Fn :=
  { f with blks := f.blks.filter (visited ≤ ·.visited) }

/-- A vector holds the temporaries of a set, each at its own index. -/
structure Represents (map : List Val) (set : Set Nat) : Prop where
  present : ∀ t ∈ set, map.getD t .noclass = .tmp t
  absent : ∀ t, t ∉ set → map.getD t .noclass = .noclass

namespace Represents

variable {map : List Val} {set : Set Nat}

/-- No parameters stand for no temporaries. -/
theorem nil : Represents [] ∅ where
  present t member := absurd member (Set.notMem_empty t)
  absent _ _ := rfl

/-- `has_val` decides membership. -/
theorem hasVal (represents : Represents map set) (t : Nat) :
    ∃ has, Ssa.hasVal map (.tmp t) = .ok has ∧ (has = true ↔ t ∈ set) := by
  refine ⟨_, rfl, ?_⟩
  by_cases member : t ∈ set
  · rw [represents.present t member]
    exact iff_of_true rfl member
  · rw [represents.absent t member]
    exact iff_of_false Bool.false_ne_true member

/-- `add_val` inserts. -/
theorem addVal (represents : Represents map set) (t : Nat) :
    ∃ map', Ssa.addVal map (.tmp t) = .ok map' ∧ Represents map' (insert t set) := by
  refine ⟨_, rfl, ?_, ?_⟩
  · intro u member
    rw [Padded.getD_write]
    by_cases same : u = t
    · simp [same]
    · rw [if_neg same]
      exact represents.present u ((Set.mem_insert_iff.mp member).resolve_left same)
  · intro u outside
    rw [Set.mem_insert_iff, not_or] at outside
    rw [Padded.getD_write, if_neg outside.1]
    exact represents.absent u outside.2

/-- `remove_val` removes. -/
theorem removeVal (represents : Represents map set) (t : Nat) :
    ∃ map', Ssa.removeVal map (.tmp t) = .ok map' ∧ Represents map' (set \ {t}) := by
  refine ⟨_, rfl, ?_, ?_⟩
  · intro u member
    have differs : u ≠ t := member.2
    rw [Padded.getD_erase, if_neg differs]
    exact represents.present u member.1
  · intro u outside
    rw [Padded.getD_erase]
    by_cases same : u = t
    · rw [if_pos same]
    · rw [if_neg same]
      exact represents.absent u fun member => outside ⟨member, same⟩

/-- The entries of a vector other than `NOCLASS` are the temporaries of its set. -/
theorem mem_iff (represents : Represents map set) (t : Nat) : .tmp t ∈ map ↔ t ∈ set := by
  have real : (Val.tmp t) ≠ .noclass := by simp
  rw [Padded.mem_iff_exists_getD real]
  constructor
  · rintro ⟨index, reads⟩
    by_cases member : index ∈ set
    · rw [represents.present index member] at reads
      obtain rfl : index = t := by simpa using reads
      exact member
    · rw [represents.absent index member] at reads
      cases reads
  · exact fun member => ⟨t, represents.present t member⟩

/-- Nothing but temporaries and `NOCLASS` is stored. -/
theorem entry (represents : Represents map set) {v : Val} (member : v ∈ map) :
    v = .noclass ∨ ∃ t, v = .tmp t := by
  obtain ⟨index, inside, rfl⟩ := List.mem_iff_getElem.mp member
  have reads : map.getD index .noclass = map[index] := by
    simp [List.getD_eq_getElem?_getD, inside]
  rw [← reads]
  by_cases listed : index ∈ set
  · exact Or.inr ⟨index, represents.present index listed⟩
  · exact Or.inl (represents.absent index listed)

/-- Dropping `NOCLASS` from a vector lists its set without repetition. -/
theorem nodup_filter (represents : Represents map set) : (map.filter Val.hasclass).Nodup := by
  rw [List.nodup_iff_pairwise_ne, List.pairwise_filter, List.pairwise_iff_getElem]
  intro i j insideI insideJ less presentI presentJ same
  have reads (k : Nat) (inside : k < map.length) : map.getD k .noclass = map[k] := by
    simp [List.getD_eq_getElem?_getD, inside]
  have own (k : Nat) (inside : k < map.length) (present : map[k].hasclass) : map[k] = .tmp k := by
    rw [← reads k inside] at present ⊢
    by_cases listed : k ∈ set
    · exact represents.present k listed
    · rw [represents.absent k listed] at present
      simp [Val.hasclass] at present
  rw [own i insideI presentI, own j insideJ presentJ, Val.tmp.injEq] at same
  omega

end Represents

/-- The three sets of a block. -/
structure Maps.Represent (maps : Maps) (generated forward required : Set Nat) : Prop where
  generated : Represents maps.generated generated
  forward : Represents maps.forward forward
  required : Represents maps.required required

section Collect

variable {maps : Maps} {G F R : Set Nat}

/-- An input that was not generated becomes required. -/
theorem require_spec (represent : maps.Represent G F R) (v : Val) :
    ∃ maps', require maps v = .ok maps' ∧ maps'.Represent G F (R ∪ (v.temps \ G)) := by
  cases v with
  | tmp t =>
    obtain ⟨has, tested, member⟩ := represent.generated.hasVal t
    cases has with
    | true =>
      have inside : t ∈ G := member.mp rfl
      have same : R ∪ ((Val.tmp t).temps \ G) = R := by
        apply Set.union_eq_self_of_subset_right
        rintro u ⟨read, fresh⟩
        obtain rfl : t = u := by simpa using read
        exact absurd inside fresh
      rw [same]
      exact ⟨maps, by simp [require, Val.isTmp, tested], represent⟩
    | false =>
      obtain ⟨required, added, represents⟩ := represent.required.addVal t
      have outside : t ∉ G := fun inside => Bool.false_ne_true (member.mpr inside)
      have same : R ∪ ((Val.tmp t).temps \ G) = insert t R := by
        ext u
        simp only [Set.mem_union, Set.mem_sdiff, Val.mem_temps, Val.tmp.injEq, Set.mem_insert_iff]
        grind
      rw [same]
      exact ⟨{ maps with required }, by simp [require, Val.isTmp, tested, added],
        represent.generated, represent.forward, represents⟩
  | _ =>
    refine ⟨maps, rfl, ?_⟩
    convert represent using 1
    ext u
    simp

/-- An output is generated and no longer forwarded. -/
theorem generate_spec (represent : maps.Represent G F R) (out : Val) :
    ∃ maps', generate maps out = .ok maps' ∧
      maps'.Represent (G ∪ out.temps) (F \ out.temps) R := by
  cases out with
  | tmp t =>
    have single : (Val.tmp t).temps = {t} := by
      ext u
      simp [eq_comm]
    rw [single, Set.union_singleton]
    obtain ⟨generated, added, represents⟩ := represent.generated.addVal t
    obtain ⟨has, tested, member⟩ := represent.forward.hasVal t
    cases has with
    | true =>
      obtain ⟨forward, removed, represents'⟩ := represent.forward.removeVal t
      exact ⟨{ maps with generated, forward },
        by simp [generate, Val.isTmp, tested, added, removed],
        represents, represents', represent.required⟩
    | false =>
      have outside : t ∉ F := fun inside => Bool.false_ne_true (member.mpr inside)
      rw [Set.sdiff_singleton_eq_self outside]
      exact ⟨{ maps with generated }, by simp [generate, Val.isTmp, tested, added],
        represents, represent.forward, represent.required⟩
  | _ =>
    refine ⟨maps, rfl, ?_⟩
    convert represent using 1
    · ext u
      simp
    · ext u
      simp

/-- One instruction. -/
theorem collectInsn_spec (represent : maps.Represent G F R) (n : Insn) :
    ∃ maps', collectInsn maps n = .ok maps' ∧
      maps'.Represent (G ∪ n.writes) (F \ n.writes) (R ∪ (n.reads \ G)) := by
  obtain ⟨maps1, first, represent1⟩ := require_spec represent n.in0
  obtain ⟨maps2, second, represent2⟩ := require_spec represent1 n.in1
  obtain ⟨maps3, third, represent3⟩ := generate_spec represent2 n.out
  refine ⟨maps3, by simp [collectInsn, first, second, third], ?_⟩
  rwa [Set.union_assoc, ← Set.union_sdiff_distrib] at represent3

/-- All instructions of a block. -/
theorem collectInsns_spec (represent : maps.Represent G F R) (insns : List Insn) :
    ∃ maps', insns.foldlM collectInsn maps = .ok maps' ∧
      maps'.Represent (G ∪ definedIn insns) (F \ definedIn insns) (R ∪ (exposedIn insns \ G)) := by
  induction insns generalizing maps G F R with
  | nil => exact ⟨maps, rfl, by simpa [exposedIn] using represent⟩
  | cons n rest ih =>
    obtain ⟨middle, first, represent1⟩ := collectInsn_spec represent n
    obtain ⟨maps', others, represent2⟩ := ih represent1
    refine ⟨maps', by simp [first, others], ?_⟩
    convert represent2 using 1
    · rw [definedIn_cons, Set.union_assoc]
    · rw [definedIn_cons, Set.sdiff_sdiff]
    · ext t
      simp only [exposedIn, Set.mem_union, Set.mem_sdiff]
      tauto

end Collect

section Forward

variable {map : List Val} {set : Set Nat}

/-- Adding the parameters of a successor. -/
theorem addVals_spec (represents : Represents map set) {params : List Val}
    (temps : ∀ p ∈ params, p.isTmp) :
    ∃ map', params.foldlM addVal map = .ok map' ∧ Represents map' (set ∪ tempsOf params) := by
  induction params generalizing map set with
  | nil => exact ⟨map, rfl, by simpa using represents⟩
  | cons p rest ih =>
    have isTmp := temps p List.mem_cons_self
    cases p with
    | tmp t =>
      obtain ⟨middle, first, represents1⟩ := represents.addVal t
      obtain ⟨map', others, represents2⟩ := ih represents1
        fun p member => temps p (List.mem_cons_of_mem _ member)
      refine ⟨map', by simp [first, others], ?_⟩
      convert represents2 using 1
      ext u
      simp only [mem_tempsOf, Set.mem_union, List.mem_cons, Val.tmp.injEq, Set.mem_insert_iff]
      tauto
    | _ => simp [Val.isTmp] at isTmp

/-- Requiring what is forwarded. -/
theorem requireForwards_spec (represents : Represents map set) {forward : List Val}
    (entries : ∀ p ∈ forward, p = .noclass ∨ ∃ t, p = .tmp t) :
    ∃ map', forward.foldlM requireForward map = .ok map' ∧
      Represents map' (set ∪ tempsOf forward) := by
  induction forward generalizing map set with
  | nil => exact ⟨map, rfl, by simpa using represents⟩
  | cons p rest ih =>
    have others := fun p member => entries p (List.mem_cons_of_mem _ member)
    rcases entries p List.mem_cons_self with rfl | ⟨t, rfl⟩
    · obtain ⟨map', folded, represents'⟩ := ih represents others
      refine ⟨map', by simp [requireForward, Val.hasclass, folded], ?_⟩
      convert represents' using 1
      ext u
      simp
    · obtain ⟨has, tested, member⟩ := represents.hasVal t
      have grown : ∃ middle, requireForward map (.tmp t) = .ok middle ∧
          Represents middle (insert t set) := by
        cases has with
        | true =>
          rw [Set.insert_eq_of_mem (member.mp rfl)]
          exact ⟨map, by simp [requireForward, Val.hasclass, tested], represents⟩
        | false =>
          obtain ⟨middle, added, represents'⟩ := represents.addVal t
          exact ⟨middle, by simp [requireForward, Val.hasclass, tested, added], represents'⟩
      obtain ⟨middle, first, represents1⟩ := grown
      obtain ⟨map', folded, represents2⟩ := ih represents1 others
      refine ⟨map', by simp [first, folded], ?_⟩
      convert represents2 using 1
      ext u
      simp only [mem_tempsOf, Set.mem_union, List.mem_cons, Val.tmp.injEq, Set.mem_insert_iff]
      tauto

end Forward

/-- What a block requires: the temporaries it reads before defining them and those its
successors require and it does not define. -/
theorem requiredParams_spec {params1 params2 : List Val} (b : Blk)
    (temps1 : ∀ p ∈ params1, p.isTmp) (temps2 : ∀ p ∈ params2, p.isTmp) :
    ∃ required, requiredParams params1 params2 b = .ok required ∧ required.Nodup ∧
      (∀ p ∈ required, p.isTmp) ∧
      tempsOf required = b.exposed ∪ ((tempsOf params1 ∪ tempsOf params2) \ b.defined) := by
  obtain ⟨forward1, added1, represents1⟩ := addVals_spec .nil temps1
  obtain ⟨forward2, added2, represents2⟩ := addVals_spec represents1 temps2
  have initial : Maps.Represent { forward := forward2 } ∅ _ ∅ := ⟨.nil, represents2, .nil⟩
  obtain ⟨maps1, collected, represent1⟩ := collectInsns_spec initial b.insns
  obtain ⟨maps2, compared0, represent2⟩ := require_spec represent1 b.cmp0
  obtain ⟨maps3, compared1, represent3⟩ := require_spec represent2 b.cmp1
  obtain ⟨required, forwarded, represents⟩ := requireForwards_spec represent3.required
    fun p member => represent3.forward.entry member
  refine ⟨required.filter Val.hasclass, ?_, represents.nodup_filter, ?_, ?_⟩
  · simp [requiredParams, added1, added2, collected, compared0, compared1, forwarded]
  · intro p member
    obtain ⟨listed, hasclass⟩ := List.mem_filter.mp member
    rcases represents.entry listed with rfl | ⟨t, rfl⟩
    · simp [Val.hasclass] at hasclass
    · rfl
  · ext t
    have listed : t ∈ tempsOf (required.filter Val.hasclass) ↔ .tmp t ∈ required := by
      simp [Val.hasclass]
    rw [listed, represents.mem_iff t]
    simp only [Set.mem_union, mem_tempsOf, represent3.forward.mem_iff t]
    simp only [Blk.exposed, Blk.compared, Blk.defined, Set.mem_union, Set.mem_sdiff,
      Set.mem_empty_iff_false, false_or, not_false_eq_true, and_true]
    tauto

end Qbt.Ssa
