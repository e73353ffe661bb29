import Qbt.Ssa.Params
import Qbt.Ssa.Visits

/-!
# Both traversals on arbitrary graphs

`build_params` and `collect_params` terminate on every finite graph of blocks, whatever its
edges are and whatever the counters start with. Each of them does its work in exactly one iteration
for every block that can be reached, and leaves the others alone. What the work is done with is
known: a successor that has been worked on before has its parameters, and the others still have
those they started with.
-/

namespace Qbt.Ssa

/-- The graph of a function, in which a return block leads nowhere. -/
def flow (f : Fn) : Fn := f.mapBlks clearReturn

/-- A finite graph of blocks, none of which a traversal has visited more often than `visited`
times. -/
structure Unvisited (f : Fn) (visited : Nat) : Prop where
  distinct : f.ids.Nodup
  closed : ∀ b ∈ f.blks, ∀ id, b.s1 = some id ∨ b.s2 = some id → id ∈ f.ids
  params : ∀ b ∈ f.blks, ∀ p ∈ b.params, p.isTmp
  visited : ∀ b ∈ f.blks, b.visited = visited

section Traversals

variable {f : Fn} {entry visited : Nat}

@[simp] theorem clearReturn_id (b : Blk) : (clearReturn b).id = b.id := by
  unfold clearReturn
  split <;> rfl

private theorem clearReturn_eq (b : Blk) :
    clearReturn b = { b with s1 := (clearReturn b).s1, s2 := (clearReturn b).s2 } := by
  unfold clearReturn
  split <;> rfl

private theorem clearReturn_idem (b : Blk) : clearReturn (clearReturn b) = clearReturn b := by
  unfold clearReturn
  by_cases returns : b.isReturn
  · have returns' : ({ b with s1 := none, s2 := none } : Blk).isReturn := returns
    rw [if_pos returns, if_pos returns']
  · rw [if_neg returns, if_neg returns]

private theorem clearReturn_again (b : Blk) :
    clearReturn (clearReturn b).visit = (clearReturn b).visit := by
  have visited (b : Blk) : clearReturn b.visit = (clearReturn b).visit := by
    unfold clearReturn
    by_cases returns : b.isReturn
    · have returns' : b.visit.isReturn := returns
      rw [if_pos returns, if_pos returns']
      rfl
    · have returns' : ¬ b.visit.isReturn := returns
      rw [if_neg returns, if_neg returns']
  rw [visited, clearReturn_idem]

/-- What is pushed behind `clearReturn` does not depend on parameters or counters. -/
private theorem clearReturn_pushed (b : Blk) :
    (clearReturn b).pushed = if b.isReturn then [] else b.pushed := by
  unfold clearReturn
  split <;> rfl

private theorem clearReturn_edge {b : Blk} {id : Nat}
    (edge : (clearReturn b).s1 = some id ∨ (clearReturn b).s2 = some id) :
    b.s1 = some id ∨ b.s2 = some id := by
  unfold clearReturn at edge
  split at edge
  · simp at edge
  · exact edge

private theorem succs_flow (unvisited : Unvisited f visited) {b : Blk} (member : b ∈ f.blks) :
    succs (flow f) b.id = (clearReturn b).pushed := by
  have found : (flow f).find? b.id = some (clearReturn b) := by
    rw [flow, Fn.find?_mapBlks clearReturn_id, Fn.find?_of_mem unvisited.distinct member]
    rfl
  rw [succs, found]

/-- The parameters of a successor are temporaries while no block has other parameters. -/
private theorem exists_targetParams (g : Fn) (target : Option Nat)
    (listed : ∀ id, target = some id → id ∈ g.ids)
    (temps : ∀ b ∈ g.blks, ∀ p ∈ b.params, p.isTmp) :
    ∃ params, targetParams g target = .ok params ∧ ∀ p ∈ params, p.isTmp := by
  cases target with
  | none => exact ⟨[], rfl, by simp⟩
  | some id =>
    obtain ⟨b, found⟩ := Fn.exists_find? (listed id rfl)
    exact ⟨b.params, by simp [targetParams, Fn.deref_of_find? found], temps b (Fn.find?_mem found)⟩

/-- What `build_params` relies on. -/
private structure Buildable (f : Fn) (b : Blk) : Prop where
  targets : ∀ id, b.s1 = some id ∨ b.s2 = some id → id ∈ f.ids
  params : ∀ p ∈ b.params, p.isTmp
  pushed : (clearReturn b).pushed = succs (flow f) b.id

private theorem build_follows (unvisited : Unvisited f visited) (entry : Nat) :
    Follows f.ids (succs (flow f)) entry clearReturn buildBlkParams (Buildable f)
      (fun b => b.pushed = succs (flow f) b.id) where
  closed node listed next edge := by
    obtain ⟨b, member, rfl⟩ := List.mem_map.mp listed
    rw [succs_flow unvisited member, mem_pushed_iff] at edge
    exact unvisited.closed b member next (clearReturn_edge edge)
  narrow node := by
    unfold succs
    split
    · simp
    · exact length_pushed_le _
  prepares b kept := by
    refine ⟨⟨fun id edge => kept.targets id (clearReturn_edge edge), ?_, ?_⟩, ?_,
      clearReturn_id b, ?_⟩
    · rw [clearReturn_eq]
      exact kept.params
    · rw [clearReturn_idem, clearReturn_id]
      exact kept.pushed
    · rw [clearReturn_id]
      exact kept.pushed
    · rw [clearReturn_eq]
  again := clearReturn_again
  pushes b kept _ := kept.pushed
  works g b ids kept keptB poppedB := by
    have temps : ∀ c ∈ g.blks, ∀ p ∈ c.params, p.isTmp := fun c member => (kept c member).params
    obtain ⟨params1, target1, temps1⟩ := exists_targetParams g b.s1
      (fun id edge => by rw [ids]; exact keptB.targets id (Or.inl edge)) temps
    obtain ⟨params2, target2, temps2⟩ := exists_targetParams g b.s2
      (fun id edge => by rw [ids]; exact keptB.targets id (Or.inr edge)) temps
    obtain ⟨required, worked, required_temps⟩ : ∃ required,
        buildBlkParams g b = .ok { b with params := b.params ++ required } ∧
          ∀ p ∈ required, p.isTmp := by
      by_cases differ : b.s2 ≠ b.s1
      · obtain ⟨required, returned, -, temps, -⟩ := requiredParams_spec b temps1 temps2
        exact ⟨required, by simp [buildBlkParams, target1, target2, differ, returned], temps⟩
      · have none : ∀ p ∈ ([] : List Val), p.isTmp := by simp
        obtain ⟨required, returned, -, temps, -⟩ := requiredParams_spec b temps1 none
        exact ⟨required, by simp [buildBlkParams, target1, differ, returned], temps⟩
    refine ⟨_, worked, ⟨keptB.targets, ?_, ?_⟩, poppedB, rfl, rfl⟩
    · intro p member
      rcases List.mem_append.mp member with old | new
      · exact keptB.params p old
      · exact required_temps p new
    · have same := keptB.pushed
      rw [clearReturn_pushed] at same ⊢
      exact same
  visits b kept popped := by
    have same := kept.pushed
    rw [clearReturn_pushed] at same
    exact ⟨⟨kept.targets, kept.params, by rw [clearReturn_pushed]; exact same⟩, popped⟩

/-- What `collect_params` relies on. -/
private structure Collectable (f : Fn) (entry : Nat) (b : Blk) : Prop where
  targets : ∀ id, b.s1 = some id ∨ b.s2 = some id → id ∈ f.ids
  params : ∀ p ∈ b.params, p.isTmp
  pushed : Within (succs (flow f)) entry b.id → b.pushed = succs (flow f) b.id

private theorem collect_follows (unvisited : Unvisited f visited) (entry : Nat) :
    Follows f.ids (succs (flow f)) entry id collectBlkParams (Collectable f entry)
      (fun _ => True) where
  closed := (build_follows unvisited entry).closed
  narrow := (build_follows unvisited entry).narrow
  prepares b kept := ⟨kept, trivial, rfl, rfl⟩
  again _ := rfl
  pushes b kept := kept.pushed
  works g b ids kept keptB _ := by
    have temps : ∀ c ∈ g.blks, ∀ p ∈ c.params, p.isTmp := fun c member => (kept c member).params
    obtain ⟨params1, target1, -⟩ := exists_targetParams g b.s1
      (fun id edge => by rw [ids]; exact keptB.targets id (Or.inl edge)) temps
    obtain ⟨params2, target2, -⟩ := exists_targetParams g b.s2
      (fun id edge => by rw [ids]; exact keptB.targets id (Or.inr edge)) temps
    exact ⟨{ b with args1 := b.args1 ++ params1, args2 := b.args2 ++ params2 },
      by simp only [collectBlkParams, target1, target2, Result.ok_bind, Result.pure_eq],
      ⟨keptB.targets, keptB.params, keptB.pushed⟩, trivial, rfl, rfl⟩
  visits b kept _ := ⟨⟨kept.targets, kept.params, kept.pushed⟩, trivial⟩

/-- The parameters of a successor. -/
def paramsOf (f : Fn) (target : Option Nat) : List Val :=
  match target.bind f.find? with
  | none => []
  | some b => b.params

/-- The parameters of a successor when the blocks of `before` have been given those they have in
`g`, and the others still have those of `f`. -/
def paramsAt (f g : Fn) (before : List Nat) (target : Option Nat) : List Val :=
  match target with
  | none => []
  | some id => paramsOf (if id ∈ before then g else f) (some id)

/-- What a block requires when the blocks of `before` have been worked on, in the order of the
code: each temporary once that it reads before it defines it or that a successor asks for and it
does not define. -/
structure Required (f g : Fn) (before : List Nat) (b : Blk) (required : List Val) : Prop where
  computed : requiredParams (paramsAt f g before b.s1)
    (if b.s2 ≠ b.s1 then paramsAt f g before b.s2 else []) b = .ok required
  nodup : required.Nodup
  temps : ∀ p ∈ required, p.isTmp
  members : tempsOf required = b.exposed ∪
    ((tempsOf (paramsAt f g before b.s1) ∪ tempsOf (paramsAt f g before b.s2)) \ b.defined)

/-- The loop goes from `f` to `g` in finitely many iterations and does its work in exactly one of
them for each block in `reached`. No other iteration writes into that block. -/
structure WorksOnce (prepare : Blk → Blk) (work : Fn → Blk → Result Blk) (visited : Nat) (f : Fn)
    (entry : Nat) (worked : List Nat) (g : Fn) (reached : Nat → Prop) : Prop where
  iterations : Iterations prepare work visited ⟨f, [entry]⟩ worked ⟨g, []⟩
  determined : ∀ {worked' g'}, Iterations prepare work visited ⟨f, [entry]⟩ worked' ⟨g', []⟩ →
    worked' = worked ∧ g' = g
  once : worked.Nodup
  blocks : ∀ id, id ∈ worked ↔ reached id
  elsewhere : ∀ {done loop turn next},
    Iterations prepare work visited ⟨f, [entry]⟩ done loop →
    Iteration prepare work visited loop turn next →
    ∀ id, turn ≠ some id → annotations next.fn id = annotations loop.fn id

/-- What the two traversals do to a function `f`: `g` is the function between them and `h` the
one behind them, and `built` and `filled` are the blocks they work on, in order. -/
structure TraversedOnce (f : Fn) (entry visited : Nat) (built filled : List Nat) (g h : Fn) :
    Prop where
  builds : buildParams f entry visited = .ok g
  collects : collectParams g entry (visited + 2) = .ok h
  ids : h.ids = f.ids
  buildsOnce : WorksOnce clearReturn buildBlkParams visited f entry built g (Reaches (flow f) entry)
  collectsOnce : WorksOnce id collectBlkParams (visited + 2) g entry filled h
    (Reaches (flow f) entry)
  /-- what a block requires is appended to its parameters once, and nothing else is changed but the
  edges of a return block -/
  params : ∀ before id after, built = before ++ id :: after →
    ∃ b required, f.find? id = some b ∧ Required f g before (clearReturn b) required ∧
      g.find? id =
        some { clearReturn b with params := b.params ++ required, visited := visited + 2 }
  /-- the parameters of the successors are appended to the arguments of a block once -/
  args : ∀ id, Reaches (flow f) entry id → ∃ b, g.find? id = some b ∧
    h.find? id = some { b with
      args1 := b.args1 ++ paramsOf g b.s1
      args2 := b.args2 ++ paramsOf g b.s2
      visited := visited + 4 }
  untouched : ∀ id, ¬ Reaches (flow f) entry id → h.find? id = f.find? id
  /-- without cycles a block gets its parameters after all its successors -/
  postOrder : (∀ id, Reaches (flow f) entry id → ¬ Relation.TransGen (Edge (flow f)) id id) →
    ∀ before id after, built = before ++ id :: after →
      ∀ next, Edge (flow f) id next → next ∈ before

private theorem targetParams_eq {m : Fn} {target : Option Nat} {params : List Val}
    (returned : targetParams m target = .ok params) : params = paramsOf m target := by
  cases target with
  | none => exact (Except.ok.inj returned).symm
  | some id =>
    cases found : m.find? id with
    | none => simp [targetParams, Fn.deref, found] at returned
    | some b =>
      simp only [targetParams, Fn.deref, found, Result.ok_bind] at returned
      simpa [paramsOf, found] using (Except.ok.inj returned).symm

private theorem buildBlkParams_eq_ok {m : Fn} {b b' : Blk} (worked : buildBlkParams m b = .ok b') :
    ∃ required, requiredParams (paramsOf m b.s1) (if b.s2 ≠ b.s1 then paramsOf m b.s2 else []) b =
        .ok required ∧ b' = { b with params := b.params ++ required } := by
  unfold buildBlkParams at worked
  obtain ⟨params1, target1, worked⟩ := Result.bind_eq_ok.mp worked
  obtain rfl := targetParams_eq target1
  by_cases differ : b.s2 ≠ b.s1
  · rw [if_pos differ] at worked ⊢
    simp only [Result.bind_eq_ok, Result.pure_eq, Except.ok.injEq] at worked
    obtain ⟨params2, target2, required, returned, rfl⟩ := worked
    obtain rfl := targetParams_eq target2
    exact ⟨required, returned, rfl⟩
  · rw [if_neg differ] at worked ⊢
    simp only [Result.bind_eq_ok, Result.pure_eq, Result.ok_bind, Except.ok.injEq] at worked
    obtain ⟨required, returned, rfl⟩ := worked
    exact ⟨required, returned, rfl⟩

/-- The work is done with the parameters of that moment. -/
private theorem Moment.paramsOf_eq {prepare : Blk → Blk} {g m : Fn} {before : List Nat}
    (moment : Moment prepare f.find? g before m) (keeps : ∀ b, (prepare b).params = b.params)
    (target : Option Nat) : paramsOf m target = paramsAt f g before target := by
  cases target with
  | none => rfl
  | some id =>
    unfold paramsAt paramsOf
    by_cases finished : id ∈ before
    · simp only [Option.bind_some, moment.finished id finished, if_pos finished]
    · simp only [Option.bind_some, if_neg finished]
      rcases moment.others id finished with same | ⟨b, found, entered⟩
      · rw [same]
      · simp only [found, entered]
        exact keeps b

private theorem clearReturn_keeps (b : Blk) : (clearReturn b).id = b.id ∧
    (clearReturn b).params = b.params ∧ (clearReturn b).args1 = b.args1 ∧
    (clearReturn b).args2 = b.args2 := by
  rw [clearReturn_eq]
  exact ⟨rfl, rfl, rfl, rfl⟩

private theorem clearReturn_params (b : Blk) : (clearReturn b).params = b.params :=
  (clearReturn_keeps b).2.1

private theorem paramsAt_temps {g : Fn} (temps : ∀ b ∈ f.blks, ∀ p ∈ b.params, p.isTmp)
    (temps' : ∀ b ∈ g.blks, ∀ p ∈ b.params, p.isTmp) (before : List Nat) (target : Option Nat) :
    ∀ p ∈ paramsAt f g before target, p.isTmp := by
  have given {f : Fn} (temps : ∀ b ∈ f.blks, ∀ p ∈ b.params, p.isTmp) (id : Nat) :
      ∀ p ∈ paramsOf f (some id), p.isTmp := by
    unfold paramsOf
    cases found : f.find? id with
    | none => simp [found]
    | some b => simpa [found] using temps b (Fn.find?_mem found)
  cases target with
  | none => simp [paramsAt]
  | some id =>
    simp only [paramsAt]
    split
    · exact given temps' id
    · exact given temps id

/-- What `requiredParams` returns is what a block requires. -/
private theorem required_of_computed {g : Fn} {before : List Nat} {b : Blk} {required : List Val}
    (temps : ∀ target, ∀ p ∈ paramsAt f g before target, p.isTmp)
    (computed : requiredParams (paramsAt f g before b.s1)
      (if b.s2 ≠ b.s1 then paramsAt f g before b.s2 else []) b = .ok required) :
    Required f g before b required := by
  have temps2 : ∀ p ∈ (if b.s2 ≠ b.s1 then paramsAt f g before b.s2 else []), p.isTmp := by
    split
    · exact temps b.s2
    · simp
  obtain ⟨required', returned, nodup, temps', members⟩ :=
    requiredParams_spec b (temps b.s1) temps2
  obtain rfl := Except.ok.inj (returned.symm.trans computed)
  refine ⟨computed, nodup, temps', members.trans ?_⟩
  by_cases differ : b.s2 ≠ b.s1
  · rw [if_pos differ]
  · -- Two edges to one block ask for the same temporaries.
    rw [if_neg differ, not_not.mp differ]
    simp

/-- What `build_params` does in the iteration that works on a block. -/
private theorem params_of_worked {g m : Fn} {before : List Nat} {b b' : Blk} {id : Nat}
    (temps : ∀ target, ∀ p ∈ paramsAt f g before target, p.isTmp)
    (moment : Moment clearReturn f.find? g before m)
    (worked : buildBlkParams m (clearReturn b).visit = .ok b') (counted : b.visited = visited)
    (final : g.find? id = some b'.visit) :
    ∃ required, Required f g before (clearReturn b) required ∧
      g.find? id =
        some { clearReturn b with params := b.params ++ required, visited := visited + 2 } := by
  obtain ⟨required, returned, rfl⟩ := buildBlkParams_eq_ok worked
  rw [moment.paramsOf_eq clearReturn_params, moment.paramsOf_eq clearReturn_params] at returned
  refine ⟨required, required_of_computed temps returned, final.trans ?_⟩
  have visits : (clearReturn b).visited = visited := by
    rw [clearReturn_eq]
    exact counted
  simp only [Blk.visit, visits, clearReturn_params]

/-- What `collect_params` does in the iteration that works on a block. -/
private theorem args_of_worked {m : Fn} {b b' : Blk}
    (worked : collectBlkParams m b.visit = .ok b') : b'.visit = { b with
      args1 := b.args1 ++ paramsOf m b.s1
      args2 := b.args2 ++ paramsOf m b.s2
      visited := b.visited + 2 } := by
  simp only [collectBlkParams, Result.bind_eq_ok, Result.pure_eq, Except.ok.injEq] at worked
  obtain ⟨params1, target1, params2, target2, rfl⟩ := worked
  obtain rfl := targetParams_eq target1
  obtain rfl := targetParams_eq target2
  rfl

/-- Neither traversal gives a block another pointer. -/
private theorem buildBlkParams_id (f : Fn) (b b' : Blk) (worked : buildBlkParams f b = .ok b') :
    b'.id = b.id := by
  obtain ⟨_, -, rfl⟩ := buildBlkParams_eq_ok worked
  rfl

private theorem collectBlkParams_id (f : Fn) (b b' : Blk) (worked : collectBlkParams f b = .ok b') :
    b'.id = b.id := by
  simp only [collectBlkParams, Result.bind_eq_ok, Result.pure_eq, Except.ok.injEq] at worked
  obtain ⟨_, -, _, -, rfl⟩ := worked
  rfl

/-- `collect_params` leaves the parameters alone, so it passes those that `build_params` left. -/
private theorem paramsAt_collected {g h : Fn} {built before : List Nat}
    (worked : ∀ before id after, built = before ++ id :: after → ∃ b m b', g.find? id = some b ∧
      Moment (fun b => b) g.find? h before m ∧ collectBlkParams m b.visit = .ok b' ∧
      h.find? id = some b'.visit)
    (earlier : ∀ id ∈ before, id ∈ built) (target : Option Nat) :
    paramsAt g h before target = paramsOf g target := by
  cases target with
  | none => rfl
  | some id =>
    unfold paramsAt
    by_cases finished : id ∈ before
    · obtain ⟨front, behind, split⟩ := List.append_of_mem (earlier id finished)
      obtain ⟨b, m, b', found, -, made, final⟩ := worked front id behind split
      rw [args_of_worked made] at final
      simp [paramsOf, finished, found, final]
    · simp only [if_neg finished]

/-- Both traversals terminate, and process every reachable block exactly once. -/
theorem traversed_once (unvisited : Unvisited f visited) (listed : entry ∈ f.ids) :
    ∃ built filled g h, TraversedOnce f entry visited built filled g h := by
  have follows := build_follows unvisited entry
  have length : f.ids.length = f.blks.length := by simp [Fn.ids]
  have reaches : Within (succs (flow f)) entry = Reaches (flow f) entry := by
    rw [Within, Reaches, edge_eq]
  obtain ⟨g, builds, iterations, ids, blks, outside, worked⟩ := follows.run listed rfl
    (fun b member => ⟨unvisited.closed b member, unvisited.params b member,
      (succs_flow unvisited member).symm⟩)
    fun b member _ => unvisited.visited b member
  obtain ⟨h, collects, iterations', ids', blks', outside', worked'⟩ :=
    (collect_follows unvisited entry).run listed ids
    (fun b member => ⟨(blks b member).1.targets, (blks b member).1.params,
      fun inside => ((blks b member).2 inside).1⟩)
    fun b member inside => ((blks b member).2 inside).2
  have lengthG : g.blks.length = f.blks.length := by
    rw [← length, ← ids]
    simp [Fn.ids]
  have enough : 1 + (2 + 1) * f.ids.length ≤ 3 * f.ids.length + 1 := by omega
  have nodup := Worklist.order_nodup listed follows.closed follows.narrow enough
  have members (id : Nat) := Worklist.mem_order_iff listed follows.closed follows.narrow enough id
  generalize order : Worklist.order (succs (flow f)) (3 * f.ids.length + 1) entry = built at *
  have blocks (id : Nat) : id ∈ built ↔ Reaches (flow f) entry id := by
    rw [← reaches]
    exact members id
  refine ⟨built, built, g, h, {
    builds := by rw [buildParams, ← length]; exact builds
    collects := by rw [collectParams, lengthG, ← length]; exact collects
    ids := ids'
    buildsOnce := ⟨iterations, fun others => others.deterministic iterations, nodup, blocks,
      fun _ iteration _ other => iteration.elsewhere clearReturn_keeps buildBlkParams_id other⟩
    collectsOnce := ⟨iterations', fun others => others.deterministic iterations', nodup, blocks,
      fun _ iteration _ other =>
        iteration.elsewhere (fun _ => ⟨rfl, rfl, rfl, rfl⟩) collectBlkParams_id other⟩
    params := ?params
    args := ?args
    untouched := fun id away => by
      rw [← reaches] at away
      rw [outside' id away, outside id away]
    postOrder := ?postOrder }⟩
  case params =>
    intro before id after split
    obtain ⟨b, m, b', found, moment, made, final⟩ := worked before id after split
    have temps := paramsAt_temps unvisited.params (fun b member => (blks b member).1.params) before
    obtain ⟨required, returned, stored⟩ :=
      params_of_worked temps moment made (unvisited.visited b (Fn.find?_mem found)) final
    exact ⟨b, required, found, returned, stored⟩
  case args =>
    intro id reached
    obtain ⟨before, after, split⟩ := List.append_of_mem ((blocks id).mpr reached)
    obtain ⟨b, m, b', found, moment, made, final⟩ := worked' before id after split
    have counted : b.visited = visited + 2 := by
      have inside : Within (succs (flow f)) entry b.id := by
        rw [reaches, Fn.find?_id found]
        exact reached
      exact ((blks b (Fn.find?_mem found)).2 inside).2
    have given (target : Option Nat) : paramsOf m target = paramsOf g target := by
      rw [moment.paramsOf_eq fun _ => rfl]
      exact paramsAt_collected worked'
        (fun id member => by rw [split]; exact List.mem_append_left _ member) target
    have filled := args_of_worked (b := b) made
    rw [given, given, counted] at filled
    exact ⟨b, found, by rw [final, filled]⟩
  case postOrder =>
    intro acyclic before id after split next edge
    have acyclic' : Worklist.AcyclicFrom (succs (flow f)) entry := by
      rw [Reaches, edge_eq] at acyclic
      exact acyclic
    rw [← order] at split
    exact Worklist.order_postOrder acyclic' split next (mem_succs_iff.mpr edge)

end Traversals

/-- A block that branches to itself, a return, and a block that nothing leads to. -/
def branchesToItself : Fn where
  name := "main"
  blks := [
    { id := 1, btype := .beq, cmp0 := .tmp 0, cmp1 := .tmp 1, s1 := some 2, s2 := some 1,
      visited := 7 },
    { id := 2, btype := .ret, visited := 7 },
    { id := 3, btype := .j, s1 := some 1, s2 := some 1, visited := 7 }]

/-- Both traversals of it terminate. The block that branches to itself reads two temporaries, and
passes them to itself. -/
theorem traversed_once_branchesToItself : ∃ built filled g h,
    TraversedOnce branchesToItself 1 7 built filled g h ∧
      annotations g 1 = some ([.tmp 0, .tmp 1], [], []) ∧
      annotations h 1 = some ([.tmp 0, .tmp 1], [], [.tmp 0, .tmp 1]) := by
  have unvisited : Unvisited branchesToItself 7 := {
    distinct := by decide
    closed := by
      intro b member id edge
      simp only [branchesToItself, List.mem_cons, List.not_mem_nil, or_false] at member
      rcases member with rfl | rfl | rfl <;> simp [branchesToItself, Fn.ids] at edge ⊢ <;> omega
    params := by decide
    visited := by decide }
  obtain ⟨built, filled, g, h, traversed⟩ :
      ∃ built filled g h, TraversedOnce branchesToItself 1 7 built filled g h :=
    traversed_once unvisited (by decide)
  obtain rfl := Except.ok.inj (traversed.builds.symm.trans rfl)
  obtain rfl := Except.ok.inj (traversed.collects.symm.trans rfl)
  exact ⟨built, filled, _, _, traversed, rfl, rfl⟩

end Qbt.Ssa
