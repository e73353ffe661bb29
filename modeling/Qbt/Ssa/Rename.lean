import Qbt.Ssa.Collect

/-!
# Renaming and `ssa`

`rename_temps` gives every parameter and every output of a block a number of its own
and rewrites the block's other operands by the rules in force. `ssa` builds the
parameters, drops the unreachable blocks, collects the arguments and renames.
-/

namespace Qbt.Ssa

/-- `add_rewrite_rule`. -/
def addRewriteRule (rmap : List Val) (v to' : Val) : Result (List Val) :=
  match v, to' with
  | .tmp t, .tmp _ => .ok (Padded.write .noclass rmap t to')
  | _, _ => .error .valClass

/-- `rewrite_tmp`. -/
def rewriteTmp (rmap : List Val) : Val → Result Val
  | .tmp t =>
    match rmap[t]? with
    | none => .error .outOfBounds
    | some (.tmp u) => .ok (.tmp u)
    | some _ => .error .noRule
  | _ => .error .valClass

/-- The rules of a block and the next number. -/
structure Renaming where
  rmap : List Val := []
  i : Nat

/-- A definition gets the next number. -/
def renameDef (r : Renaming) (v : Val) : Result (Renaming × Val) := do
  let rmap ← addRewriteRule r.rmap v (.tmp r.i)
  let v ← rewriteTmp rmap v
  pure ({ rmap, i := r.i + 1 }, v)

/-- An operand that is read. -/
def renameUse (rmap : List Val) (v : Val) : Result Val :=
  if v.isTmp then rewriteTmp rmap v else pure v

/-- The output of an instruction. -/
def renameOut (r : Renaming) (v : Val) : Result (Renaming × Val) :=
  if v.isTmp then renameDef r v else pure (r, v)

/-- The loop over the parameters. -/
def renameParams (r : Renaming) : List Val → Result (Renaming × List Val)
  | [] => pure (r, [])
  | p :: rest => do
    let (r, p) ← renameDef r p
    let (r, rest) ← renameParams r rest
    pure (r, p :: rest)

/-- The loop over the instructions, for one instruction. -/
def renameInsn (r : Renaming) (n : Insn) : Result (Renaming × Insn) := do
  let in0 ← renameUse r.rmap n.in0
  let in1 ← renameUse r.rmap n.in1
  let (r, out) ← renameOut r n.out
  pure (r, { n with in0, in1, out })

/-- The loop over the instructions. -/
def renameInsns (r : Renaming) : List Insn → Result (Renaming × List Insn)
  | [] => pure (r, [])
  | n :: rest => do
    let (r, n) ← renameInsn r n
    let (r, rest) ← renameInsns r rest
    pure (r, n :: rest)

/-- `rename_temps`. -/
def renameTemps (b : Blk) (i : Nat) : Result (Blk × Nat) := do
  let (r, params) ← renameParams { i } b.params
  let (r, insns) ← renameInsns r b.insns
  let cmp0 ← renameUse r.rmap b.cmp0
  let cmp1 ← renameUse r.rmap b.cmp1
  let args1 ← b.args1.mapM (rewriteTmp r.rmap)
  let args2 ← b.args2.mapM (rewriteTmp r.rmap)
  pure ({ b with params, insns, cmp0, cmp1, args1, args2 }, r.i)

/-- The loop of `ssa` over the blocks. -/
def renameBlks (i : Nat) : List Blk → Result (List Blk × Nat)
  | [] => pure ([], i)
  | b :: rest => do
    let (b, i) ← renameTemps b i
    let (rest, i) ← renameBlks i rest
    pure (b :: rest, i)

/-- The inputs of an instruction are renamed before its output. -/
theorem renameInsn_eq_ok {r r' : Renaming} {n n' : Insn} : renameInsn r n = .ok (r', n') ↔
    ∃ in0, renameUse r.rmap n.in0 = .ok in0 ∧ ∃ in1, renameUse r.rmap n.in1 = .ok in1 ∧
      ∃ out, renameOut r n.out = .ok (r', out) ∧ n' = { n with in0, in1, out } := by
  simp only [renameInsn, Result.bind_eq_ok, Result.pure_eq, Except.ok.injEq, Prod.mk.injEq,
    Prod.exists]
  constructor
  · rintro ⟨in0, first, in1, second, next, out, defined, rfl, rfl⟩
    exact ⟨in0, first, in1, second, out, defined, rfl⟩
  · rintro ⟨in0, first, in1, second, out, defined, rfl⟩
    exact ⟨in0, first, in1, second, r', out, defined, rfl, rfl⟩

theorem renameInsns_nil_eq_ok {r r' : Renaming} {insns' : List Insn} :
    renameInsns r [] = .ok (r', insns') ↔ r = r' ∧ [] = insns' := by
  simp only [renameInsns, Result.pure_eq, Except.ok.injEq, Prod.mk.injEq]

theorem renameInsns_cons_eq_ok {r r' : Renaming} {n : Insn} {rest insns' : List Insn} :
    renameInsns r (n :: rest) = .ok (r', insns') ↔
      ∃ next n', renameInsn r n = .ok (next, n') ∧
        ∃ rest', renameInsns next rest = .ok (r', rest') ∧ insns' = n' :: rest' := by
  simp only [renameInsns, Result.bind_eq_ok, Result.pure_eq, Except.ok.injEq, Prod.mk.injEq,
    Prod.exists]
  constructor
  · rintro ⟨next, n', first, _, rest', others, rfl, rfl⟩
    exact ⟨next, n', first, rest', others, rfl⟩
  · rintro ⟨next, n', first, rest', others, rfl⟩
    exact ⟨next, n', first, r', rest', others, rfl, rfl⟩

/-- A block is renamed from its parameters to its arguments. -/
theorem renameTemps_eq_ok {b b' : Blk} {i i' : Nat} : renameTemps b i = .ok (b', i') ↔
    ∃ first params, renameParams { i } b.params = .ok (first, params) ∧
      ∃ r insns, renameInsns first b.insns = .ok (r, insns) ∧
        ∃ cmp0, renameUse r.rmap b.cmp0 = .ok cmp0 ∧ ∃ cmp1, renameUse r.rmap b.cmp1 = .ok cmp1 ∧
          ∃ args1, b.args1.mapM (rewriteTmp r.rmap) = .ok args1 ∧
            ∃ args2, b.args2.mapM (rewriteTmp r.rmap) = .ok args2 ∧
              b' = { b with params, insns, cmp0, cmp1, args1, args2 } ∧ i' = r.i := by
  simp only [renameTemps, Result.bind_eq_ok, Result.pure_eq, Except.ok.injEq, Prod.mk.injEq,
    Prod.exists, eq_comm (b := b'), eq_comm (b := i')]

/-- Every instruction behind the pass was one before. -/
theorem mem_renameInsns {r r' : Renaming} {insns insns' : List Insn}
    (renamed : renameInsns r insns = .ok (r', insns')) {n' : Insn} (member : n' ∈ insns') :
    ∃ n ∈ insns, ∃ before after, renameInsn before n = .ok (after, n') := by
  induction insns generalizing r insns' with
  | nil =>
    obtain ⟨rfl, rfl⟩ := renameInsns_nil_eq_ok.mp renamed
    cases member
  | cons n rest ih =>
    obtain ⟨next, m, first, rest', others, rfl⟩ := renameInsns_cons_eq_ok.mp renamed
    rcases List.mem_cons.mp member with rfl | later
    · exact ⟨n, List.mem_cons_self, r, next, first⟩
    · obtain ⟨n₀, listed, found⟩ := ih others later
      exact ⟨n₀, List.mem_cons_of_mem _ listed, found⟩

end Ssa

/-- `ssa`: the converted function and the number of its temporaries. -/
def ssa (f : Fn) : Result (Fn × Nat) :=
  match f.blks with
  | [] => .error .outOfBounds
  | entry :: _ => do
    let f ← Ssa.buildParams f entry.id entry.visited
    let b ← f.deref entry.id
    let f := Ssa.removeUnvisited f b.visited
    let b ← f.deref entry.id
    let f ← Ssa.collectParams f entry.id b.visited
    let (blks, i) ← Ssa.renameBlks 0 f.blks
    pure ({ f with blks }, i)

namespace Ssa

/-- What renaming makes of a block. -/
def RenamedTo (b b' : Blk) : Prop := ∃ i i', renameTemps b i = .ok (b', i')

/-- Every block is renamed. -/
theorem renameBlks_renamed {i i' : Nat} {blks blks' : List Blk}
    (renamed : renameBlks i blks = .ok (blks', i')) : List.Forall₂ RenamedTo blks blks' := by
  induction blks generalizing i blks' with
  | nil =>
    simp only [renameBlks, Result.pure_eq, Except.ok.injEq, Prod.mk.injEq] at renamed
    obtain ⟨rfl, rfl⟩ := renamed
    exact .nil
  | cons b rest ih =>
    simp only [renameBlks, Result.bind_eq_ok, Result.pure_eq, Except.ok.injEq, Prod.mk.injEq,
      Prod.exists] at renamed
    obtain ⟨b', j, first, rest', k, others, rfl, rfl⟩ := renamed
    exact .cons ⟨i, j, first⟩ (ih others)

/-- The blocks `ssa` renames: the reachable ones, with parameters and arguments. -/
def collected (f : Fn) (root : Nat) : Fn :=
  (prune f root).mapBlks (passArgs (paramTable f (order f root)) 4)

/-- Before the renaming `ssa` does not fail. -/
theorem ssa_eq {f : Fn} (raw : Raw f) {entry : Blk} {rest : List Blk}
    (blks : f.blks = entry :: rest) :
    ssa f = (do
      let (blks, i) ← renameBlks 0 (collected f entry.id).blks
      pure ({ collected f entry.id with blks }, i)) := by
  have member : entry ∈ f.blks := by simp [blks]
  have listed : entry.id ∈ f.ids := List.mem_map_of_mem (f := Blk.id) member
  have reached : entry.id ∈ order f entry.id := (mem_order_iff raw.toLayout listed _).mpr .refl
  have found := Fn.find?_of_mem raw.nodup member
  have kept : entry.id ∈ (prune f entry.id).ids :=
    (mem_ids_prune raw.toLayout listed _).mpr .refl
  have built := buildParams_eq raw listed
  have foundKept : (prune f entry.id).deref entry.id =
      .ok (setParams (paramTable f (order f entry.id)) (fun _ => 2) entry) := by
    apply Fn.deref_of_find?
    rw [find?_prune reached, found]
    rfl
  have collects := collectParams_eq (prune_layout raw.toLayout listed) (prune_unfilled raw) kept
    prune_visited fun id inside =>
      reaches_prune raw.toLayout listed ((mem_ids_prune raw.toLayout listed id).mp inside)
  unfold ssa
  rw [blks]
  simp only [raw.visited entry member, built, Result.ok_bind, deref_annotated found,
    if_pos reached, removeUnvisited_eq, foundKept, setParams, collects]
  rfl

end Ssa
end Qbt
