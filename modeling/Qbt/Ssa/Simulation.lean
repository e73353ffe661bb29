import Qbt.IR.Semantics
import Qbt.Ssa.Rename

/-!
# The converted function executes like the original

The rules of `rename_temps` say at every point of a block which number holds the value
of which temporary. At a block's entry its parameters hold them; every output adds a
rule for a number not used before; and on an edge the arguments, which are read by the
rules at the end of the block, hand them to the parameters of the next block.
-/

namespace Qbt.Ssa

/-- Temporaries are rewritten to temporaries, if there is a rule. -/
theorem rewriteTmp_eq_ok {rmap : List Val} {v v' : Val} :
    rewriteTmp rmap v = .ok v' ↔
      ∃ t u, v = .tmp t ∧ v' = .tmp u ∧ rmap.getD t .noclass = .tmp u := by
  cases v with
  | tmp t =>
    unfold rewriteTmp
    cases entry : rmap[t]? with
    | none => simp [entry]
    | some rule =>
      cases rule <;> simp [entry, eq_comm]
  | _ => simp [rewriteTmp]

/-- A definition is renamed to the next number, and a rule says so from then on. -/
theorem renameDef_eq_ok {r r' : Renaming} {v v' : Val} :
    renameDef r v = .ok (r', v') ↔
      ∃ t, v = .tmp t ∧ v' = .tmp r.i ∧
        r' = { rmap := Padded.write .noclass r.rmap t (.tmp r.i), i := r.i + 1 } := by
  cases v with
  | tmp t =>
    have own : (Padded.write .noclass r.rmap t (.tmp r.i)).getD t .noclass = .tmp r.i := by
      rw [Padded.getD_write, if_pos rfl]
    have reads : rewriteTmp (Padded.write .noclass r.rmap t (.tmp r.i)) (.tmp t) =
        .ok (.tmp r.i) := rewriteTmp_eq_ok.mpr ⟨t, r.i, rfl, rfl, own⟩
    simp only [renameDef, addRewriteRule, Result.ok_bind, reads, Result.pure_eq, Except.ok.injEq,
      Prod.mk.injEq, Val.tmp.injEq]
    constructor
    · rintro ⟨rfl, rfl⟩
      exact ⟨t, rfl, rfl, rfl⟩
    · rintro ⟨_, rfl, rfl, rfl⟩
      exact ⟨rfl, rfl⟩
  | _ => simp [renameDef, addRewriteRule]

/-- The parameters of a block get consecutive numbers. -/
theorem renameParams_fresh {r r' : Renaming} {params params' : List Val}
    (renamed : renameParams r params = .ok (r', params')) :
    r.i ≤ r'.i ∧ params'.length = params.length ∧ params'.Nodup ∧
      ∀ p ∈ params', ∃ u, p = .tmp u ∧ r.i ≤ u := by
  induction params generalizing r params' with
  | nil =>
    simp only [renameParams, Result.pure_eq, Except.ok.injEq, Prod.mk.injEq] at renamed
    obtain ⟨rfl, rfl⟩ := renamed
    simp
  | cons p rest ih =>
    simp only [renameParams, Result.bind_eq_ok, Result.pure_eq, Except.ok.injEq, Prod.mk.injEq,
      Prod.exists] at renamed
    obtain ⟨next, p', first, _, rest', others, rfl, rfl⟩ := renamed
    obtain ⟨t, rfl, rfl, rfl⟩ := renameDef_eq_ok.mp first
    obtain ⟨grows, length, nodup, fresh⟩ := ih others
    refine ⟨by simp only at grows; omega, by simp [length], List.nodup_cons.mpr ⟨?_, nodup⟩, ?_⟩
    · intro repeated
      obtain ⟨u, same, later⟩ := fresh _ repeated
      obtain rfl : r.i = u := by simpa using same
      simp only at later
      omega
    · rintro v (_ | ⟨_, member⟩)
      · exact ⟨r.i, rfl, Nat.le_refl _⟩
      · obtain ⟨u, rfl, later⟩ := fresh v member
        exact ⟨u, rfl, by simp only at later; omega⟩

variable {W M : Type} {S : Semantics W M}

/-- The states of the original and of the converted function while a block executes:
every rule's number is in use and holds the value of the rule's temporary. -/
structure Matches (r : Renaming) (state state' : State W M) : Prop where
  reg : state'.reg = state.reg
  world : state'.world = state.world
  below : ∀ t u, r.rmap.getD t .noclass = .tmp u → u < r.i
  agrees : ∀ t u, r.rmap.getD t .noclass = .tmp u → state'.tmp u = state.tmp t

namespace Matches

variable {r r' : Renaming} {state state' : State W M}

/-- A rewritten temporary has the value of the original. -/
theorem rewritten (matched : Matches r state state') {v v' : Val}
    (renamed : rewriteTmp r.rmap v = .ok v') : S.value state' v' = S.value state v := by
  obtain ⟨t, u, rfl, rfl, rule⟩ := rewriteTmp_eq_ok.mp renamed
  exact matched.agrees t u rule

/-- So has an operand of any class. -/
theorem use (matched : Matches r state state') {v v' : Val}
    (renamed : renameUse r.rmap v = .ok v') : S.value state' v' = S.value state v := by
  unfold renameUse at renamed
  by_cases isTmp : v.isTmp
  · rw [if_pos isTmp] at renamed
    exact matched.rewritten renamed
  · rw [if_neg isTmp] at renamed
    obtain rfl : v = v' := by simpa using renamed
    cases v with
    | tmp t => exact absurd rfl isTmp
    | reg k => simp [matched.reg]
    | _ => rfl

/-- The next number is in use once a rule gives it out. -/
private theorem below_add (matched : Matches r state state') (t : Nat) {u k : Nat}
    (rule : (Padded.write .noclass r.rmap t (.tmp r.i)).getD u .noclass = .tmp k) :
    k < r.i + 1 := by
  rw [Padded.getD_write] at rule
  by_cases same : u = t
  · obtain rfl : r.i = k := by simpa [same] using rule
    exact Nat.lt_succ_self _
  · rw [if_neg same] at rule
    exact Nat.lt_succ_of_lt (matched.below u k rule)

/-- A parameter already holds the value of its temporary. -/
theorem param (matched : Matches r state state') {v v' : Val}
    (renamed : renameDef r v = .ok (r', v')) (holds : S.value state' v' = S.value state v) :
    Matches r' state state' := by
  obtain ⟨t, rfl, rfl, rfl⟩ := renameDef_eq_ok.mp renamed
  refine ⟨matched.reg, matched.world, fun u k rule => matched.below_add t rule, ?_⟩
  intro u k rule
  rw [Padded.getD_write] at rule
  by_cases same : u = t
  · obtain rfl : r.i = k := by simpa [same] using rule
    rw [same]
    exact holds
  · rw [if_neg same] at rule
    exact matched.agrees u k rule

/-- The rest of the machine changes in both functions alike. -/
theorem setWorld (matched : Matches r state state') (m : M) :
    Matches r { state with world := m } { state' with world := m } :=
  ⟨matched.reg, rfl, matched.below, matched.agrees⟩

/-- A definition writes the temporary and its new number. -/
theorem define (matched : Matches r state state') {v v' : Val}
    (renamed : renameDef r v = .ok (r', v')) (w : W) :
    Matches r' (state.write v w) (state'.write v' w) := by
  obtain ⟨t, rfl, rfl, rfl⟩ := renameDef_eq_ok.mp renamed
  refine ⟨matched.reg, matched.world, fun u k rule => matched.below_add t rule, ?_⟩
  intro u k rule
  rw [Padded.getD_write] at rule
  by_cases same : u = t
  · obtain rfl : r.i = k := by simpa [same] using rule
    simp [same]
  · rw [if_neg same] at rule
    have used := matched.below u k rule
    simp only [State.write_tmp_tmp, if_neg same, if_neg (Nat.ne_of_lt used)]
    exact matched.agrees u k rule

/-- An output of any other class is written in both functions. -/
theorem keep (matched : Matches r state state') {v : Val} (other : ¬ v.isTmp) (w : W) :
    Matches r (state.write v w) (state'.write v w) := by
  cases v with
  | tmp t => exact absurd rfl other
  | reg k =>
    refine ⟨?_, matched.world, matched.below, matched.agrees⟩
    funext u
    simp [matched.reg]
  | _ => exact matched

/-- Writing an output and its renaming keeps the states matched. -/
theorem out (matched : Matches r state state') {v v' : Val}
    (renamed : renameOut r v = .ok (r', v')) (w : W) :
    Matches r' (state.write v w) (state'.write v' w) := by
  unfold renameOut at renamed
  by_cases isTmp : v.isTmp
  · rw [if_pos isTmp] at renamed
    exact matched.define renamed w
  · rw [if_neg isTmp, Result.pure_eq, Except.ok.injEq, Prod.mk.injEq] at renamed
    obtain ⟨rfl, rfl⟩ := renamed
    exact matched.keep isTmp w

/-- One instruction reads the same values and keeps the states matching. -/
theorem insn (matched : Matches r state state') {n n' : Insn}
    (renamed : renameInsn r n = .ok (r', n')) :
    S.value state' n'.in0 = S.value state n.in0 ∧ S.value state' n'.in1 = S.value state n.in1 ∧
      n'.type = n.type ∧ n'.vtype = n.vtype ∧ n'.v = n.v ∧
        Matches r' (S.exec n state) (S.exec n' state') := by
  obtain ⟨in0, first, in1, second, out, defined, rfl⟩ := renameInsn_eq_ok.mp renamed
  have same0 := matched.use (S := S) first
  have same1 := matched.use (S := S) second
  refine ⟨same0, same1, rfl, rfl, rfl, ?_⟩
  simp only [Semantics.exec, same0, same1, matched.world]
  apply Matches.setWorld
  exact matched.out defined _

/-- So do all instructions of a block, and they show the same events. -/
theorem insns (matched : Matches r state state') {insns insns' : List Insn}
    (renamed : renameInsns r insns = .ok (r', insns')) (visible : InsnType → Bool) :
    ((S.interp visible).perform insns' state').1 = ((S.interp visible).perform insns state).1 ∧
      Matches r' ((S.interp visible).perform insns state).2
        ((S.interp visible).perform insns' state').2 := by
  induction insns generalizing r state state' insns' with
  | nil =>
    obtain ⟨rfl, rfl⟩ := renameInsns_nil_eq_ok.mp renamed
    exact ⟨rfl, matched⟩
  | cons n rest ih =>
    obtain ⟨next, n', first, rest', others, rfl⟩ := renameInsns_cons_eq_ok.mp renamed
    obtain ⟨same0, same1, type, vtype, v, matched'⟩ := matched.insn (S := S) first
    obtain ⟨events, ended⟩ := ih matched' others
    refine ⟨?_, ended⟩
    have observed : (S.interp visible).observe n' state' = (S.interp visible).observe n state := by
      simp only [Semantics.interp, type, vtype, v, same0, same1]
    simp only [Interp.perform_cons]
    rw [observed]
    exact congrArg _ events

/-- At a block's entry the rules of its parameters are in force. -/
theorem params (matched : Matches r state state') {params params' : List Val}
    (renamed : renameParams r params = .ok (r', params'))
    (holds : List.Forall₂ (fun p p' => S.value state' p' = S.value state p) params params') :
    Matches r' state state' := by
  induction params generalizing r params' with
  | nil =>
    simp only [renameParams, Result.pure_eq, Except.ok.injEq, Prod.mk.injEq] at renamed
    obtain ⟨rfl, rfl⟩ := renamed
    exact matched
  | cons p rest ih =>
    simp only [renameParams, Result.bind_eq_ok, Result.pure_eq, Except.ok.injEq, Prod.mk.injEq,
      Prod.exists] at renamed
    obtain ⟨next, p', first, _, rest', others, rfl, rfl⟩ := renamed
    obtain ⟨head, tail⟩ := List.forall₂_cons.mp holds
    exact ih (matched.param first head) others tail

/-- The arguments of an edge have the values of the temporaries they stand for. -/
theorem args (matched : Matches r state state') {args args' : List Val}
    (renamed : args.mapM (rewriteTmp r.rmap) = .ok args') :
    List.Forall₂ (fun a a' => S.value state' a' = S.value state a) args args' :=
  (Result.mapM_eq_ok.mp renamed).imp fun _ _ rewrote => matched.rewritten rewrote

end Matches

/-- Before the first rule only the rest of the machine has to agree. -/
theorem matches_empty {state state' : State W M} (reg : state'.reg = state.reg)
    (world : state'.world = state.world) (i : Nat) : Matches { i } state state' :=
  ⟨reg, world, by simp, by simp⟩

/-- A block as `ssa` renames it. -/
def collect (f : Fn) (root : Nat) (b : Blk) : Blk :=
  passArgs (paramTable f (order f root)) 4
    (setParams (paramTable f (order f root)) (fun _ => 2) b)

/-- Blocks with arguments come from blocks of the function. -/
theorem mem_collected {f : Fn} {root : Nat} {b : Blk} (member : b ∈ (collected f root).blks) :
    ∃ b₀ ∈ f.blks, b = collect f root b₀ := by
  obtain ⟨kept, inside, rfl⟩ := List.mem_map.mp member
  obtain ⟨b₀, listed, rfl⟩ := List.mem_map.mp inside
  exact ⟨b₀, (List.mem_filter.mp listed).1, rfl⟩

private theorem find?_collected {f : Fn} {root id : Nat} (reached : id ∈ order f root) :
    (collected f root).find? id = (f.find? id).map (collect f root) := by
  have keepsId (b : Blk) : (passArgs (paramTable f (order f root)) 4 b).id = b.id := rfl
  rw [collected, Fn.find?_mapBlks keepsId, find?_prune reached, Option.map_map]
  rfl

/-- The rest of a renamed block has the shape of the original. -/
theorem RenamedTo.sameNode {b b' : Blk} (renamed : RenamedTo b b') : SameNode b b' := by
  obtain ⟨i, i', renamed⟩ := renamed
  obtain ⟨_, _, _, _, _, _, _, _, _, _, _, _, _, _, rfl, _⟩ := renameTemps_eq_ok.mp renamed
  exact ⟨rfl, rfl, rfl, rfl⟩

/-- The parameters of a renamed block are distinct temporaries. -/
theorem RenamedTo.params {b b' : Blk} (renamed : RenamedTo b b') :
    b'.params.length = b.params.length ∧ b'.params.Nodup ∧ ∀ p ∈ b'.params, p.isTmp := by
  obtain ⟨i, i', renamed⟩ := renamed
  obtain ⟨_, _, first, _, _, _, _, _, _, _, _, _, _, _, rfl, _⟩ := renameTemps_eq_ok.mp renamed
  obtain ⟨_, length, nodup, fresh⟩ := renameParams_fresh first
  refine ⟨length, nodup, fun p member => ?_⟩
  obtain ⟨u, rfl, _⟩ := fresh p member
  rfl

/-- Both functions stand at the entry of one block, whose parameters in the second hold
the temporaries they were built from. -/
structure Aligned (S : Semantics W M) (f h : Fn) (root : Nat) (config config' : Ctrl × State W M) :
    Prop where
  control : config'.1 = config.1
  reg : config'.2.reg = config.2.reg
  world : config'.2.world = config.2.world
  params : ∀ id, config.1 = .block id → ∃ b b', f.find? id = some b ∧ id ∈ order f root ∧
    h.find? id = some b' ∧ RenamedTo (collect f root b) b' ∧
      List.Forall₂ (fun p p' => S.value config'.2 p' = S.value config.2 p)
        (paramTable f (order f root) id) b'.params

section Lockstep

variable {f h : Fn} {root : Nat}

/-- What following an edge needs to know about both functions. -/
structure Converted (f h : Fn) (root : Nat) : Prop where
  raw : Raw f
  listed : root ∈ f.ids
  renamed : ∃ i i', renameBlks i (collected f root).blks = .ok (h.blks, i')

/-- A block that is reached is found renamed under its name. -/
theorem Converted.find? (converted : Converted f h root) {id : Nat} {b : Blk}
    (found : f.find? id = some b) (reached : id ∈ order f root) :
    ∃ b', h.find? id = some b' ∧ RenamedTo (collect f root b) b' := by
  obtain ⟨i, i', renamed⟩ := converted.renamed
  have present : (collected f root).find? id = some (collect f root b) := by
    rw [find?_collected reached, found]
    rfl
  exact Lists.find?_forall₂ (renameBlks_renamed renamed)
    (fun _ _ same => by rw [same.sameNode.id]) present

/-- Over an edge the arguments become the parameters of the next block. -/
theorem Converted.follow (converted : Converted f h root) {r : Renaming}
    {state state' : State W M} (matched : Matches r state state') {id next : Nat}
    (reached : id ∈ order f root) (edge : Edge f id next) {args' : List Val}
    (renamed : (paramTable f (order f root) next).mapM (rewriteTmp r.rmap) = .ok args')
    (visible : InsnType → Bool) :
    Aligned S f h root ((S.interp visible).follow f (some next) [] state)
      ((S.interp visible).follow h (some next) args' state') := by
  have reachedNext : next ∈ order f root := by
    rw [mem_order_iff converted.raw.toLayout converted.listed] at reached ⊢
    exact reached.tail edge
  obtain ⟨b, found⟩ := Fn.exists_find?
    (order_listed converted.raw.toLayout converted.listed reachedNext)
  obtain ⟨b', found', named⟩ := converted.find? found reachedNext
  have empty : b.params = [] := converted.raw.params b (Fn.find?_mem found)
  have values := matched.args (S := S) renamed
  obtain ⟨length, nodup, temps⟩ := named.params
  have table : (collect f root b).params = paramTable f (order f root) next := by
    simp [collect, passArgs, setArgs, setParams, Fn.find?_id found]
  rw [table] at length
  rw [Interp.follow_some found, Interp.follow_some found', empty]
  have assigned := S.assign_values state' (values.length_eq.symm.trans length.symm) nodup
    fun p member => Or.inl (temps p member)
  exact {
    control := rfl
    reg := (S.assign_reg args' state' temps).trans matched.reg
    world := (S.assign_world b'.params args' state').trans matched.world
    params := by
      rintro id ⟨⟩
      refine ⟨b, b', found, reachedNext, found', named, ?_⟩
      exact Lists.forall₂_comp (fun read written => written.trans read) values assigned.flip }

/-- Both functions leave a block alike. -/
theorem Converted.depart (converted : Converted f h root) {r : Renaming}
    {state state' : State W M} (matched : Matches r state state') {id : Nat} {b b' : Blk}
    (found : f.find? id = some b) (reached : id ∈ order f root) (same : SameNode b b')
    (cmp0 : renameUse r.rmap b.cmp0 = .ok b'.cmp0) (cmp1 : renameUse r.rmap b.cmp1 = .ok b'.cmp1)
    (args1 : (tableAt (paramTable f (order f root)) b.s1).mapM (rewriteTmp r.rmap) = .ok b'.args1)
    (args2 : (tableAt (paramTable f (order f root)) b.s2).mapM (rewriteTmp r.rmap) = .ok b'.args2)
    (visible : InsnType → Bool) :
    ((S.interp visible).depart h b' state').1 = ((S.interp visible).depart f b state).1 ∧
      Aligned S f h root ((S.interp visible).depart f b state).2
        ((S.interp visible).depart h b' state').2 := by
  have member := Fn.find?_mem found
  by_cases returns : b.btype = .ret
  · rw [Interp.depart_ret returns, Interp.depart_ret (same.btype.trans returns)]
    exact ⟨rfl, rfl, matched.reg, matched.world, by simp⟩
  have stays : ¬ b.isReturn := by simpa [Blk.isReturn] using returns
  obtain ⟨next1, _, target1⟩ := converted.raw.falls_listed member stays
  obtain ⟨next2, _, target2⟩ := converted.raw.branches b member stays
  rw [target1] at args1
  rw [target2] at args2
  have edge1 := converted.follow (S := S) matched reached ⟨b, found, Or.inl target1⟩ args1 visible
  have edge2 := converted.follow (S := S) matched reached ⟨b, found, Or.inr target2⟩ args2 visible
  rw [← target1, ← converted.raw.args1 b member] at edge1
  rw [← target2, ← converted.raw.args2 b member] at edge2
  by_cases jump : b.btype = .j
  · rw [Interp.depart_j jump, Interp.depart_j (same.btype.trans jump), same.s2]
    exact ⟨rfl, edge2⟩
  · rw [Interp.depart_cond returns jump,
      Interp.depart_cond (by rwa [same.btype]) (by rwa [same.btype]), same.s1, same.s2]
    have taken : (S.interp visible).taken b'.btype b'.cmp0 b'.cmp1 state' =
        (S.interp visible).taken b.btype b.cmp0 b.cmp1 state := by
      simp only [Semantics.interp, same.btype, matched.use cmp0, matched.use cmp1]
    rw [taken]
    refine ⟨rfl, ?_⟩
    by_cases decision : (S.interp visible).taken b.btype b.cmp0 b.cmp1 state
    · simpa [decision] using edge2
    · simpa [decision] using edge1

/-- Both functions execute a block alike. -/
theorem Converted.stepBlock (converted : Converted f h root) {id : Nat} {b b' : Blk}
    {state state' : State W M} (aligned : Aligned S f h root (.block id, state) (.block id, state'))
    (found : f.find? id = some b) (found' : h.find? id = some b') (visible : InsnType → Bool) :
    ((S.interp visible).stepBlock h b' state').1 = ((S.interp visible).stepBlock f b state).1 ∧
      Aligned S f h root ((S.interp visible).stepBlock f b state).2
        ((S.interp visible).stepBlock h b' state').2 := by
  obtain ⟨_, _, found₁, reached, found₂, renamed, holds⟩ := aligned.params id rfl
  obtain rfl : b = _ := Option.some.inj (found.symm.trans found₁)
  obtain rfl : b' = _ := Option.some.inj (found'.symm.trans found₂)
  have same := renamed.sameNode
  obtain ⟨i, i', renamed⟩ := renamed
  obtain ⟨r, params, renamedParams, r', insns, renamedInsns, cmp0, renamed0, cmp1, renamed1,
    args1, renamedArgs1, args2, renamedArgs2, rfl, _⟩ := renameTemps_eq_ok.mp renamed
  have table : (collect f root b).params = paramTable f (order f root) id := by
    simp [collect, passArgs, setArgs, setParams, Fn.find?_id found]
  have entered := (matches_empty aligned.reg aligned.world i).params (S := S) renamedParams
    (by rwa [table])
  obtain ⟨events, matched⟩ := entered.insns (S := S) renamedInsns visible
  obtain ⟨decision, left⟩ := converted.depart (S := S) matched found reached
    ⟨same.id, same.btype, same.s1, same.s2⟩ renamed0 renamed1 renamedArgs1 renamedArgs2 visible
  refine ⟨?_, left⟩
  exact congrArg₂ (· ++ ·) events decision

/-- The converted function keeps up with the original block by block. -/
theorem Converted.lockstep (converted : Converted f h root) (S : Semantics W M)
    (visible : InsnType → Bool) :
    Machine.Lockstep ((S.interp visible).machine f) ((S.interp visible).machine h)
      (Aligned S f h root) where
  halts := by
    rintro ⟨ctrl, state⟩ ⟨ctrl', state'⟩ aligned
    obtain rfl : ctrl' = ctrl := aligned.control
    cases ctrl' with
    | block id =>
      obtain ⟨b, b', found, _, found', _⟩ := aligned.params id rfl
      simp [Interp.machine_step_block found, Interp.machine_step_block found']
    | returned => simp [Interp.machine]
    | stuck => simp [Interp.machine]
  steps := by
    rintro ⟨ctrl, state⟩ ⟨ctrl', state'⟩ events next events' next' aligned _ stepped stepped'
    obtain rfl : ctrl' = ctrl := aligned.control
    cases ctrl' with
    | block id =>
      obtain ⟨b, b', found, _, found', _⟩ := aligned.params id rfl
      rw [Interp.machine_step_block found, Option.some.injEq] at stepped
      rw [Interp.machine_step_block found', Option.some.injEq] at stepped'
      have both := converted.stepBlock (S := S) aligned found found' visible
      rw [stepped, stepped'] at both
      exact both
    | returned => simp [Interp.machine] at stepped
    | stuck => simp [Interp.machine] at stepped

end Lockstep

/-- What `ssa` returns is the renaming of the collected blocks. -/
theorem ssa_converted {f h : Fn} {n : Nat} (raw : Raw f) {entry : Blk} {rest : List Blk}
    (blks : f.blks = entry :: rest) (converted : ssa f = .ok (h, n)) :
    Converted f h entry.id := by
  rw [ssa_eq raw blks] at converted
  simp only [Result.bind_eq_ok, Result.pure_eq, Except.ok.injEq, Prod.mk.injEq,
    Prod.exists] at converted
  obtain ⟨blks', i', renamed, rfl, _⟩ := converted
  exact ⟨raw, by simp [Fn.ids, blks], 0, i', renamed⟩

/-- Every block of a converted function is the renaming of a block. -/
theorem ssa_origin {f h : Fn} {n : Nat} (raw : Raw f) (converted : ssa f = .ok (h, n)) {b' : Blk}
    (member : b' ∈ h.blks) : ∃ root, ∃ b ∈ f.blks, RenamedTo (collect f root b) b' := by
  obtain ⟨entry, rest, blks⟩ := List.exists_cons_of_ne_nil raw.nonempty
  obtain ⟨i, i', renamed⟩ := (ssa_converted raw blks converted).renamed
  obtain ⟨b, listed, named⟩ := Lists.mem_of_forall₂ (renameBlks_renamed renamed) member
  obtain ⟨b₀, original, rfl⟩ := mem_collected listed
  exact ⟨entry.id, b₀, original, named⟩

/-- The first block of a converted function is the renaming of the entry block. -/
theorem Converted.entry {f h : Fn} {entry : Blk} {rest : List Blk}
    (converted : Converted f h entry.id) (blks : f.blks = entry :: rest) :
    ∃ entry' rest', h.blks = entry' :: rest' ∧
      RenamedTo (collect f entry.id entry) entry' := by
  obtain ⟨i, i', renamed⟩ := converted.renamed
  have reached : entry.id ∈ order f entry.id :=
    (mem_order_iff converted.raw.toLayout converted.listed _).mpr .refl
  have first : ∃ rest', (collected f entry.id).blks = collect f entry.id entry :: rest' := by
    simp [collected, prune, Fn.mapBlks, blks, reached, collect]
  obtain ⟨rest', first⟩ := first
  have named := renameBlks_renamed renamed
  rw [first] at named
  obtain ⟨entry', behind, head, _, same⟩ := List.forall₂_cons_left_iff.mp named
  exact ⟨entry', behind, same, head⟩

/-- The parameters `params` of the converted function's first block hold the initial
values of the temporaries `origins` they were built from; other temporaries may differ. -/
structure Begins (S : Semantics W M) (origins params : List Val) (state state' : State W M) :
    Prop where
  reg : state'.reg = state.reg
  world : state'.world = state.world
  params : List.Forall₂ (fun origin param => S.value state' param = S.value state origin)
    origins params

/-- `h` executes like `f` from every initial state: the same blocks, and in them the
same instructions on the same operand values, the same decisions and the same effects. -/
structure ExecutesLike (S : Semantics W M) (f h : Fn) (origins params : List Val) : Prop where
  /-- the parameters can be given the values they start with -/
  start : ∀ state, Begins S origins params state (S.assign params origins state)
  events : ∀ state state', Begins S origins params state state' → ∀ count,
    (((S.interp fun _ => true).machine h).run count (Interp.entry h, state')).1 =
      (((S.interp fun _ => true).machine f).run count (Interp.entry f, state)).1
  control : ∀ state state', Begins S origins params state state' → ∀ count,
    (((S.interp fun _ => true).machine h).run count (Interp.entry h, state')).2.1 =
      (((S.interp fun _ => true).machine f).run count (Interp.entry f, state)).2.1
  world : ∀ state state', Begins S origins params state state' → ∀ count,
    (((S.interp fun _ => true).machine h).run count (Interp.entry h, state')).2.2.world =
      (((S.interp fun _ => true).machine f).run count (Interp.entry f, state)).2.2.world

/-- A converted function executes like the function, from its first block on. -/
theorem Converted.executesLike {f h : Fn} {entry entry' : Blk} {rest rest' : List Blk}
    (converted : Converted f h entry.id) (blks : f.blks = entry :: rest)
    (blks' : h.blks = entry' :: rest') (named : RenamedTo (collect f entry.id entry) entry')
    {W M : Type} (S : Semantics W M) :
    ExecutesLike S f h (paramTable f (order f entry.id) entry.id) entry'.params := by
  have reached : entry.id ∈ order f entry.id :=
    (mem_order_iff converted.raw.toLayout converted.listed _).mpr .refl
  obtain ⟨length, nodup, temps⟩ := named.params
  have found := Fn.find?_of_mem converted.raw.nodup (show entry ∈ f.blks by simp [blks])
  have sameId : entry'.id = entry.id := named.sameNode.id
  have found' : h.find? entry.id = some entry' := by
    simp [Fn.find?, blks', sameId]
  have run (state state' : State W M)
      (begins : Begins S (paramTable f (order f entry.id) entry.id) entry'.params state state')
      (count : Nat) := by
    have aligned : Aligned S f h entry.id (Interp.entry f, state) (Interp.entry h, state') := {
      control := by simp [Interp.entry, blks, blks', sameId]
      reg := begins.reg
      world := begins.world
      params := by
        intro id here
        obtain rfl : entry.id = id := by simpa [Interp.entry, blks] using here
        exact ⟨entry, entry', found, reached, found', named, begins.params⟩ }
    exact Machine.Lockstep.run (converted.lockstep S fun _ => true) aligned count
  exact {
    start := fun state => ⟨S.assign_reg _ state temps, S.assign_world _ _ state,
      (S.assign_values state length.symm nodup fun p member => Or.inl (temps p member)).flip⟩
    events := fun state state' begins count => (run state state' begins count).1
    control := fun state state' begins count => (run state state' begins count).2.control
    world := fun state state' begins count => (run state state' begins count).2.world }

/-- Conversion preserves the meaning of every function it returns for. -/
theorem ssa_preserves {f h : Fn} {n : Nat} (before : BeforeSsa f)
    (converted : ssa f = .ok (h, n)) :
    ∃ entry rest g origin entry' rest', f.blks = entry :: rest ∧
      buildParams f entry.id entry.visited = .ok g ∧ g.deref entry.id = .ok origin ∧
      h.blks = entry' :: rest' ∧
      ∀ {W M : Type} (S : Semantics W M), ExecutesLike S f h origin.params entry'.params := by
  have raw := before.raw
  obtain ⟨entry, rest, blks⟩ := List.exists_cons_of_ne_nil raw.nonempty
  have member : entry ∈ f.blks := by simp [blks]
  have result := ssa_converted raw blks converted
  obtain ⟨entry', rest', first, named⟩ := result.entry blks
  have built : buildParams f entry.id entry.visited = .ok (annotated f entry.id) := by
    rw [raw.visited entry member]
    exact buildParams_eq raw result.listed
  exact ⟨entry, rest, annotated f entry.id, _, entry', rest', blks, built,
    deref_annotated (Fn.find?_of_mem raw.nodup member), first,
    fun S => result.executesLike blks first named S⟩

/-- The loop test is converted, and executes as before. -/
theorem ssa_preserves_simpleLoop :
    ∃ f g h n, Frontend.buildFunction 0 Frontend.simpleLoop = .ok f ∧ Corrected f g ∧
      ssa g = .ok (h, n) ∧ ∃ origins params, ∀ {W M : Type} (S : Semantics W M),
        ExecutesLike S g h origins params := by
  have ran : ∃ f g ri h n, Frontend.buildFunction 0 Frontend.simpleLoop = .ok f ∧
      correct 20 f f.ntmp = .ok (g, ri) ∧ ssa { g with ntmp := ri } = .ok (h, n) :=
    ⟨_, _, _, _, _, by rfl, by rfl, by rfl⟩
  obtain ⟨f, g, ri, h, n, parsed, corrected, converted⟩ := ran
  have passed : Corrected f { g with ntmp := ri } := ⟨20, g, ri, corrected, rfl⟩
  obtain ⟨_, _, _, origin, entry', _, _, _, _, _, same⟩ :=
    ssa_preserves (.corrected ⟨0, _, parsed⟩ passed) converted
  exact ⟨f, _, h, n, parsed, passed, converted, _, _, same⟩

end Qbt.Ssa
