import Qbt.Ssa.Simulation

/-!
# Parameters and liveness

The parameters a block needs are the temporaries live at its entry, the least solution
of a backward problem. `build_params` visits the blocks once, in the order a depth-first
traversal finishes them, so over an edge to a block that is not finished yet nothing is
forwarded. The result is exact where this loses nothing, and there the renaming finds
every rule.
-/

namespace Qbt.Ssa

/-- Liveness at the entry of the blocks. -/
def liveness (f : Fn) : Dataflow Nat Nat where
  succs := succs f
  gen id := (f.find? id).elim ∅ Blk.exposed
  kill id := (f.find? id).elim ∅ Blk.defined

/-- `build_params` computes liveness, and `ssa` fails no assertion. -/
structure ComputesLiveness (f : Fn) : Prop where
  params : ∃ entry rest g, f.blks = entry :: rest ∧
    buildParams f entry.id entry.visited = .ok g ∧ ∀ id, Reaches f entry.id id →
      ∃ b, g.find? id = some b ∧ tempsOf b.params = (liveness f).least id
  returns : ∃ h n, ssa f = .ok (h, n)

/-- Nothing is lost over the edges that lead back: what is live at a successor that the
traversal from the entry block finishes later, the block defines, uses itself, or needs
at a successor finished before it as well. -/
def ForwardsAll (f : Fn) : Prop :=
  ∀ entry rest, f.blks = entry :: rest → (liveness f).Covered (order f entry.id)

section OnePass

variable {f : Fn} {root : Nat}

private theorem tempsOf_tableAt (table : Nat → List Val) (target : Option Nat) (t : Nat) :
    t ∈ tempsOf (tableAt table target) ↔ ∃ id, target = some id ∧ t ∈ tempsOf (table id) := by
  cases target <;> simp [tableAt]

/-- The parameters are what one pass over the traversal's order computes. -/
theorem params_onePass (layout : Layout f) (listed : root ∈ f.ids) :
    (liveness f).OnePass (order f root) fun id => tempsOf (paramTable f (order f root) id) := by
  intro before node after split t
  have nodup := order_nodup layout listed
  have reached : node ∈ order f root := by simp [split]
  obtain ⟨b, found⟩ := Fn.exists_find? (order_listed layout listed reached)
  rw [split] at nodup
  have fresh : node ∉ after := (List.nodup_cons.mp (List.nodup_append.mp nodup).2.1).1
  have here : paramTable f (order f root) node = newParams (paramTable f before) b := by
    rw [split, show before ++ node :: after = (before ++ [node]) ++ after by simp,
      paramTable_append fresh, paramTable_snoc, finishBlk_self found]
  -- An earlier block has its final parameters, a later one has none yet.
  have forwarded (next : Nat) : t ∈ tempsOf (paramTable f before next) ↔
      next ∈ before ∧ t ∈ tempsOf (paramTable f (order f root) next) := by
    by_cases early : next ∈ before
    · have apart : next ∉ node :: after := fun late =>
        (List.nodup_append.mp nodup).2.2 next early next late rfl
      rw [split, paramTable_append apart]
      exact (and_iff_right early).symm
    · simp [paramTable_of_notMem early, early]
  have members := (newParams_spec (paramTable_list f before) b).2.2
  simp only [liveness, found, Option.elim_some, here, members, Set.mem_union, Set.mem_sdiff,
    tempsOf_tableAt, forwarded, succs, mem_pushed_iff]
  constructor
  · rintro (used | ⟨⟨next, edge, flows⟩ | ⟨next, edge, flows⟩, kept⟩)
    · exact Or.inl used
    · exact Or.inr ⟨⟨next, Or.inl edge, flows⟩, kept⟩
    · exact Or.inr ⟨⟨next, Or.inr edge, flows⟩, kept⟩
  · rintro (used | ⟨⟨next, edge | edge, flows⟩, kept⟩)
    · exact Or.inl used
    · exact Or.inr ⟨Or.inl ⟨next, edge, flows⟩, kept⟩
    · exact Or.inr ⟨Or.inr ⟨next, edge, flows⟩, kept⟩

end OnePass

/-- The temporaries a renaming has rules for. -/
def Renaming.knows (r : Renaming) : Set Nat := { t | ∃ u, r.rmap.getD t .noclass = .tmp u }

section Renames

variable {r : Renaming}

private theorem rewriteTmp_ok {t : Nat} (known : t ∈ r.knows) :
    ∃ v, rewriteTmp r.rmap (.tmp t) = .ok v := by
  obtain ⟨u, rule⟩ := known
  exact ⟨.tmp u, rewriteTmp_eq_ok.mpr ⟨t, u, rfl, rfl, rule⟩⟩

private theorem renameUse_ok {v : Val} (known : v.temps ⊆ r.knows) :
    ∃ v', renameUse r.rmap v = .ok v' := by
  unfold renameUse
  by_cases isTmp : v.isTmp
  · obtain ⟨t, rfl⟩ := Val.isTmp_iff.mp isTmp
    rw [if_pos isTmp]
    exact rewriteTmp_ok (known rfl)
  · exact ⟨v, by rw [if_neg isTmp]; rfl⟩

private theorem renameDef_ok (r : Renaming) (t : Nat) :
    ∃ r' v', renameDef r (.tmp t) = .ok (r', v') ∧ r'.knows = r.knows ∪ {t} := by
  refine ⟨_, _, renameDef_eq_ok.mpr ⟨t, rfl, rfl, rfl⟩, ?_⟩
  ext u
  simp only [Renaming.knows, Set.mem_ofPred_eq, Set.mem_union, Set.mem_singleton_iff]
  by_cases same : u = t
  · rw [Padded.getD_write, if_pos same]
    simp [same]
  · rw [Padded.getD_write, if_neg same]
    simp [same]

private theorem renameOut_ok (r : Renaming) (v : Val) :
    ∃ r' v', renameOut r v = .ok (r', v') ∧ r'.knows = r.knows ∪ v.temps := by
  unfold renameOut
  by_cases isTmp : v.isTmp
  · obtain ⟨t, rfl⟩ := Val.isTmp_iff.mp isTmp
    obtain ⟨r', v', renamed, knows⟩ := renameDef_ok r t
    refine ⟨r', v', by rw [if_pos isTmp, renamed], ?_⟩
    rw [knows]
    ext u
    simp only [Set.mem_union, Set.mem_singleton_iff, Val.mem_temps, Val.tmp.injEq]
    rw [eq_comm (a := u)]
  · refine ⟨r, v, by rw [if_neg isTmp]; rfl, ?_⟩
    ext u
    have none : v ≠ .tmp u := fun same => isTmp (by rw [same]; rfl)
    simp [none]

private theorem renameInsn_ok {n : Insn} (known : n.reads ⊆ r.knows) :
    ∃ r' n', renameInsn r n = .ok (r', n') ∧ r'.knows = r.knows ∪ n.writes := by
  obtain ⟨in0, first⟩ := renameUse_ok fun t member => known (Or.inl member)
  obtain ⟨in1, second⟩ := renameUse_ok fun t member => known (Or.inr member)
  obtain ⟨r', out, defined, knows⟩ := renameOut_ok r n.out
  exact ⟨r', _, renameInsn_eq_ok.mpr ⟨in0, first, in1, second, out, defined, rfl⟩, knows⟩

/-- Instructions are renamed where every temporary read before it is written has a rule. -/
theorem renameInsns_ok {insns : List Insn} (known : exposedIn insns ⊆ r.knows) :
    ∃ r' insns', renameInsns r insns = .ok (r', insns') ∧
      r'.knows = r.knows ∪ definedIn insns := by
  induction insns generalizing r with
  | nil => exact ⟨r, [], rfl, by simp⟩
  | cons n rest ih =>
    obtain ⟨next, n', first, knows⟩ := renameInsn_ok fun t member => known (Or.inl member)
    have known' : exposedIn rest ⊆ next.knows := by
      intro t exposed
      rw [knows]
      by_cases written : t ∈ n.writes
      · exact Or.inr written
      · exact Or.inl (known (Or.inr ⟨exposed, written⟩))
    obtain ⟨r', rest', others, knows'⟩ := ih known'
    refine ⟨r', n' :: rest', renameInsns_cons_eq_ok.mpr ⟨next, n', first, rest', others, rfl⟩, ?_⟩
    rw [knows', knows, definedIn_cons, Set.union_assoc]

private theorem renameParams_ok (r : Renaming) {params : List Val} (temps : ∀ p ∈ params, p.isTmp) :
    ∃ r' params', renameParams r params = .ok (r', params') ∧
      r'.knows = r.knows ∪ tempsOf params := by
  induction params generalizing r with
  | nil => exact ⟨r, [], rfl, by simp⟩
  | cons p rest ih =>
    obtain ⟨t, rfl⟩ := Val.isTmp_iff.mp (temps p List.mem_cons_self)
    obtain ⟨next, p', first, knows⟩ := renameDef_ok r t
    obtain ⟨r', rest', others, knows'⟩ :=
      ih next fun q member => temps q (List.mem_cons_of_mem _ member)
    refine ⟨r', p' :: rest', by simp [renameParams, first, others], ?_⟩
    rw [knows', knows]
    ext u
    simp only [Set.mem_union, Set.mem_singleton_iff, mem_tempsOf, List.mem_cons, Val.tmp.injEq]
    tauto

private theorem renameArgs_ok {args : List Val} (temps : ∀ a ∈ args, a.isTmp)
    (known : tempsOf args ⊆ r.knows) : ∃ args', args.mapM (rewriteTmp r.rmap) = .ok args' := by
  induction args with
  | nil => exact ⟨[], rfl⟩
  | cons a rest ih =>
    obtain ⟨t, rfl⟩ := Val.isTmp_iff.mp (temps a List.mem_cons_self)
    obtain ⟨v, first⟩ := rewriteTmp_ok (known (mem_tempsOf.mpr List.mem_cons_self))
    obtain ⟨rest', others⟩ := ih (fun b member => temps b (List.mem_cons_of_mem _ member))
      fun u member => known (List.mem_cons_of_mem _ member)
    exact ⟨v :: rest', by simp [first, others]⟩

end Renames

/-- All a block reads or passes on is a parameter or defined in the block. -/
structure Supplied (b : Blk) : Prop where
  params : ∀ p ∈ b.params, p.isTmp
  exposed : b.exposed ⊆ tempsOf b.params
  temps1 : ∀ a ∈ b.args1, a.isTmp
  temps2 : ∀ a ∈ b.args2, a.isTmp
  args1 : tempsOf b.args1 ⊆ tempsOf b.params ∪ b.defined
  args2 : tempsOf b.args2 ⊆ tempsOf b.params ∪ b.defined

private theorem renameTemps_ok {b : Blk} (supplied : Supplied b) (i : Nat) :
    ∃ b' i', renameTemps b i = .ok (b', i') := by
  obtain ⟨r, params, renamedParams, knows⟩ := renameParams_ok { i } supplied.params
  have start : ({ i } : Renaming).knows = ∅ := by
    ext t
    simp [Renaming.knows]
  rw [start, Set.empty_union] at knows
  obtain ⟨r', insns, renamedInsns, knows'⟩ :=
    renameInsns_ok (r := r) fun t member => knows ▸ supplied.exposed (Or.inl member)
  rw [knows] at knows'
  have compared : b.compared ⊆ r'.knows := by
    intro t member
    rw [knows']
    by_cases defined : t ∈ b.defined
    · exact Or.inr defined
    · exact Or.inl (supplied.exposed (Or.inr ⟨member, defined⟩))
  obtain ⟨cmp0, renamed0⟩ := renameUse_ok fun t member => compared (Or.inl member)
  obtain ⟨cmp1, renamed1⟩ := renameUse_ok fun t member => compared (Or.inr member)
  obtain ⟨args1, renamedArgs1⟩ :=
    renameArgs_ok (r := r') supplied.temps1 (knows' ▸ supplied.args1)
  obtain ⟨args2, renamedArgs2⟩ :=
    renameArgs_ok (r := r') supplied.temps2 (knows' ▸ supplied.args2)
  exact ⟨_, _, renameTemps_eq_ok.mpr ⟨r, params, renamedParams, r', insns, renamedInsns, cmp0,
    renamed0, cmp1, renamed1, args1, renamedArgs1, args2, renamedArgs2, rfl, rfl⟩⟩

private theorem renameBlks_ok {blks : List Blk} (supplied : ∀ b ∈ blks, Supplied b) (i : Nat) :
    ∃ blks' i', renameBlks i blks = .ok (blks', i') := by
  induction blks generalizing i with
  | nil => exact ⟨[], i, rfl⟩
  | cons b rest ih =>
    obtain ⟨b', j, first⟩ := renameTemps_ok (supplied b (by simp)) i
    obtain ⟨rest', k, others⟩ := ih (fun c member => supplied c (List.mem_cons_of_mem _ member)) j
    exact ⟨b' :: rest', k, by simp [renameBlks, first, others]⟩

section Exact

variable {f : Fn} {root : Nat}

/-- Where the parameters are the least solution, every block is supplied. -/
theorem supplied_of_exact (layout : Layout f) (listed : root ∈ f.ids)
    (exact : ∀ id ∈ order f root,
      tempsOf (paramTable f (order f root) id) = (liveness f).least id) :
    ∀ b ∈ (collected f root).blks, Supplied b := by
  intro b member
  obtain ⟨kept, inside, rfl⟩ := List.mem_map.mp member
  obtain ⟨original, listedOriginal, rfl⟩ := List.mem_map.mp inside
  obtain ⟨here, reached⟩ := List.mem_filter.mp listedOriginal
  have reached : original.id ∈ order f root := by simpa using reached
  have found := Fn.find?_of_mem layout.nodup here
  have live := exact original.id reached
  have list := paramTable_list f (order f root)
  -- What a successor needs is live here or defined here.
  have passed (target : Option Nat) (edge : ∀ id, target = some id → Edge f original.id id) :
      tempsOf (tableAt (paramTable f (order f root)) target) ⊆
        tempsOf (paramTable f (order f root) original.id) ∪ original.defined := by
    intro t member
    obtain ⟨next, rfl, flows⟩ := (tempsOf_tableAt _ target t).mp member
    have reachedNext : next ∈ order f root := by
      rw [mem_order_iff layout listed] at reached ⊢
      exact reached.tail (edge next rfl)
    rw [exact next reachedNext] at flows
    by_cases defined : t ∈ original.defined
    · exact Or.inr defined
    · refine Or.inl ?_
      rw [live, Dataflow.mem_least_iff]
      refine Or.inr ⟨⟨next, mem_succs_iff.mpr (edge next rfl), flows⟩, ?_⟩
      simpa [liveness, found] using defined
  exact {
    params := (list original.id).temps
    exposed := by
      intro t used
      change t ∈ tempsOf (paramTable f (order f root) original.id)
      rw [live, Dataflow.mem_least_iff]
      refine Or.inl ?_
      simp only [liveness, found, Option.elim_some]
      exact used
    temps1 := tableAt_temps list original.s1
    temps2 := tableAt_temps list original.s2
    args1 := passed original.s1 fun id target => ⟨original, found, Or.inl target⟩
    args2 := passed original.s2 fun id target => ⟨original, found, Or.inr target⟩ }

end Exact

/-- `build_params` computes liveness exactly for the functions in which nothing is lost
over an edge that leads back. -/
theorem computesLiveness_iff {f : Fn} (before : BeforeSsa f) :
    ComputesLiveness f ↔ ForwardsAll f := by
  have raw := before.raw
  obtain ⟨entry, rest, blks⟩ := List.exists_cons_of_ne_nil raw.nonempty
  have member : entry ∈ f.blks := by simp [blks]
  have listed : entry.id ∈ f.ids := List.mem_map_of_mem (f := Blk.id) member
  have built : buildParams f entry.id entry.visited = .ok (annotated f entry.id) := by
    rw [raw.visited entry member]
    exact buildParams_eq raw listed
  have exact_iff := (params_onePass raw.toLayout listed).exact_iff
  constructor
  · rintro ⟨⟨entry', rest', g, blks', built', live⟩, _⟩ entry'' rest'' blks''
    obtain ⟨rfl, rfl⟩ : entry = entry' ∧ rest = rest' := by simpa [blks] using blks'
    obtain ⟨rfl, rfl⟩ : entry = entry'' ∧ rest = rest'' := by simpa [blks] using blks''
    obtain rfl : annotated f entry.id = g := by simpa [built] using built'
    refine exact_iff.mp fun id reached => ?_
    obtain ⟨b, found, params⟩ := live id ((mem_order_iff raw.toLayout listed id).mp reached)
    rw [annotated, find?_withParams, Option.map_eq_some_iff] at found
    obtain ⟨original, found, rfl⟩ := found
    rw [← params, setParams, Fn.find?_id found]
  · intro forwards
    have exact := exact_iff.mpr (forwards entry rest blks)
    refine ⟨⟨entry, rest, annotated f entry.id, blks, built, ?_⟩, ?_⟩
    · intro id path
      have reached := (mem_order_iff raw.toLayout listed id).mpr path
      obtain ⟨b, found⟩ := Fn.exists_find? (order_listed raw.toLayout listed reached)
      refine ⟨setParams _ _ b, by rw [annotated, find?_withParams, found]; rfl, ?_⟩
      rw [← exact id reached, setParams, Fn.find?_id found]
    · obtain ⟨blks', i, renamed⟩ :=
        renameBlks_ok (supplied_of_exact raw.toLayout listed exact) 0
      rw [ssa_eq raw blks]
      exact ⟨_, _, by rw [renamed]; rfl⟩

section LoopTest

/-- The blocks of the loop test, in the order in which the traversal finishes them. -/
private theorem loopTest_blks : ∃ f entry loop call last,
    Frontend.buildFunction 0 Frontend.simpleLoop = .ok f ∧ f.blks = [entry, loop, call, last] ∧
      order f entry.id = [loop.id, last.id, call.id, entry.id] ∧
      [entry, loop, call, last].map Blk.id = [1, 2, 3, 4] ∧
      [entry, loop, call, last].map Blk.pushed = [[2], [2, 3], [4], []] ∧
      loop.insns = [insnCreate .add .i27 (.tmp 2) (.tmp 2) (.tmp 0) 0,
        insnCreate .add .i27 (.tmp 0) (.tmp 0) (.imm 1 .notype) 0] ∧
      call.insns = [insnCreate .arg .notype .noclass (.tmp 2) (.imm 0 .i27) 0,
        insnCreate .call .notype .noclass (.ref "_putchar") .noclass 0] ∧ last.insns = [] ∧
      [loop, call, last].map Blk.cmp0 = [.tmp 0, .noclass, .noclass] ∧
      [loop, call, last].map Blk.cmp1 = [.tmp 1, .noclass, .noclass] :=
  ⟨_, _, _, _, _, by rfl, by rfl, by rfl, by rfl, by decide, by rfl, by rfl, by rfl, by rfl,
    by rfl⟩

/-- The temporaries that are live in the loop are those that the loop reads first. -/
private theorem loopTest_forwardsAll : ∃ f,
    Frontend.buildFunction 0 Frontend.simpleLoop = .ok f ∧ ForwardsAll f := by
  obtain ⟨f, entry, loop, call, last, parsed, blks, order, ids, edges, looped, called, empty,
    cmp0, cmp1⟩ := loopTest_blks
  simp only [List.map_cons, List.map_nil, List.cons.injEq, and_true] at ids edges cmp0 cmp1
  obtain ⟨idEntry, idLoop, idCall, idLast⟩ := ids
  obtain ⟨pushedEntry, pushedLoop, pushedCall, pushedLast⟩ := edges
  have atEntry : f.find? 1 = some entry := by simp [Fn.find?, blks, idEntry]
  have atLoop : f.find? 2 = some loop := by simp [Fn.find?, blks, idEntry, idLoop]
  have atCall : f.find? 3 = some call := by simp [Fn.find?, blks, idEntry, idLoop, idCall]
  have atLast : f.find? 4 = some last := by
    simp [Fn.find?, blks, idEntry, idLoop, idCall, idLast]
  have inLoop : loop.exposed = {0, 1, 2} := by
    ext t
    simp [Blk.exposed, exposedIn, Blk.compared, Blk.defined, looped, cmp0, cmp1, Insn.reads,
      Insn.writes, insnCreate]
    omega
  have inCall : call.exposed = {2} := by
    ext t
    simp [Blk.exposed, exposedIn, Blk.compared, Blk.defined, called, cmp0, cmp1, Insn.reads,
      Insn.writes, insnCreate, eq_comm]
  have inLast : last.exposed = ∅ := by
    ext t
    simp [Blk.exposed, exposedIn, Blk.compared, Blk.defined, empty, cmp0, cmp1]
  have edge {id next : Nat} {b : Blk} (found : f.find? id = some b)
      (edge : next ∈ (liveness f).succs id) : next ∈ b.pushed := by
    simpa [liveness, succs, found] using edge
  -- What is live in the loop and behind it, at most.
  have bound (node : Nat) : (liveness f).least node ⊆
      { t | (node = 2 → t = 0 ∨ t = 1 ∨ t = 2) ∧ (node = 3 → t = 2) ∧ node ≠ 4 } := by
    apply Dataflow.least_subset
    · intro node t member
      refine ⟨?_, ?_, ?_⟩ <;> rintro rfl
      · simpa [liveness, atLoop, inLoop] using member
      · simpa [liveness, atCall, inCall] using member
      · simp [liveness, atLast, inLast] at member
    · rintro node next leads t ⟨⟨again, behind, notLast⟩, -⟩
      refine ⟨?_, ?_, ?_⟩ <;> rintro rfl
      · have target := edge atLoop leads
        rw [pushedLoop, List.mem_pair] at target
        exact target.elim again fun here => .inr (.inr (behind here))
      · exact absurd (by simpa [pushedCall] using edge atCall leads) notLast
      · simpa [pushedLast] using edge atLast leads
  refine ⟨f, parsed, fun entry' rest blks' => ?_⟩
  obtain ⟨rfl, -⟩ : entry = entry' ∧ _ := by simpa [blks] using blks'
  rw [order, idEntry, idLoop, idCall, idLast]
  intro before node after split next leads late t live _
  obtain ⟨again, behind, -⟩ := bound next live
  -- Only the loop has a successor that is not finished before it.
  rcases before with _ | ⟨first, _ | ⟨second, _ | ⟨third, before⟩⟩⟩
  · obtain ⟨rfl, -⟩ : 2 = node ∧ _ := by simpa using split
    have target := edge atLoop leads
    rw [pushedLoop, List.mem_pair] at target
    have generated : (liveness f).gen 2 = {0, 1, 2} := by simp [liveness, atLoop, inLoop]
    rw [generated]
    exact .inl (target.elim again fun here => .inr (.inr (behind here)))
  · obtain ⟨-, rfl, -⟩ : 2 = first ∧ 4 = node ∧ _ := by simpa using split
    simpa [pushedLast] using edge atLast leads
  · obtain ⟨-, rfl, rfl, -⟩ : 2 = first ∧ 4 = second ∧ 3 = node ∧ _ := by simpa using split
    obtain rfl : next = 4 := by simpa [pushedCall] using edge atCall leads
    simp at late
  · obtain ⟨rfl, -, -, split⟩ : 2 = first ∧ 4 = second ∧ 3 = third ∧
        [1] = before ++ node :: after := by simpa using split
    obtain ⟨rfl, rfl⟩ : before = [] ∧ node = 1 := by
      cases before <;> simp_all
    obtain rfl : next = 2 := by simpa [pushedEntry] using edge atEntry leads
    simp at late

end LoopTest

/-- The parameters of the loop test are its live temporaries. -/
theorem computesLiveness_iff_simpleLoop :
    ∃ f, Frontend.buildFunction 0 Frontend.simpleLoop = .ok f ∧ ComputesLiveness f := by
  obtain ⟨f, parsed, forwards⟩ := loopTest_forwardsAll
  exact ⟨f, parsed, (computesLiveness_iff (.parsed ⟨0, _, parsed⟩)).mpr forwards⟩

/-- A loop of three blocks through which `x` passes. The traversal takes the second pop
of the block at `top`, which comes from the branch back to it, for the end of its
children, and finishes it before the blocks that need `x`. -/
def passedThrough : Frontend.Function where
  name := "main"
  body := {
    items := [
      { stmt := .plain (.immInt .i27 "x" 5) },
      { stmt := .plain (.immInt .i27 "i" 0) },
      { labels := ["top"], stmt := .plain (.binary .add .i27 "i" (.id "i") (.int 1)) },
      { stmt := .branch .lt (.id "i") (.int 3) "skip" },
      { stmt := .plain (.move .i27 "y" "x") },
      { labels := ["skip"], stmt := .branch .lt (.id "i") (.int 10) "top" },
      { stmt := .leave [.id "x"] }] }

/-- The block at `top` is not given `x`, and the renaming of the next block stops. -/
theorem passedThrough_lost :
    ∃ f g, Frontend.buildFunction 0 passedThrough = .ok f ∧ Corrected f g ∧
      ssa g = .error .noRule ∧ ¬ ComputesLiveness g := by
  have ran : ∃ f g ri, Frontend.buildFunction 0 passedThrough = .ok f ∧
      correct 20 f f.ntmp = .ok (g, ri) ∧ ssa { g with ntmp := ri } = .error .noRule :=
    ⟨_, _, _, by rfl, by rfl, by rfl⟩
  obtain ⟨f, g, ri, parsed, corrected, failed⟩ := ran
  refine ⟨f, { g with ntmp := ri }, parsed, ⟨20, g, ri, corrected, rfl⟩, failed, ?_⟩
  rintro ⟨_, h, n, returned⟩
  rw [failed] at returned
  cases returned

end Qbt.Ssa
