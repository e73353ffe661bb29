import Qbt.Ssa.Simulation

/-!
# The form `ssa` leaves behind

Register allocation and the printing of edges work block by block and index their tables by
temporaries. They rely on what `rename_temps` establishes with one counter for the whole
function: every number is defined once, in order, and in the block that uses it.
-/

namespace Qbt

/-- Every edge carries as many arguments as its target has parameters. -/
structure ArgsMatch (f : Fn) : Prop extends Layout f where
  args1 : ∀ b ∈ f.blks, ∀ id next, b.s1 = some id → f.find? id = some next →
    next.params.length = b.args1.length
  args2 : ∀ b ∈ f.blks, ∀ id next, b.s2 = some id → f.find? id = some next →
    next.params.length = b.args2.length

/-- Two blocks stand at the same place of the same graph and have equally many
parameters and arguments. -/
structure SameEdges (b b' : Blk) : Prop extends SameNode b b' where
  params : b'.params.length = b.params.length
  args1 : b'.args1.length = b.args1.length
  args2 : b'.args2.length = b.args2.length

/-- Whether arguments match depends on parameters and edges only. -/
theorem ArgsMatch.congr {f g : Fn} (matches' : ArgsMatch f)
    (same : List.Forall₂ SameEdges f.blks g.blks) : ArgsMatch g := by
  have find? {id : Nat} {b' : Blk} (found : g.find? id = some b') :
      ∃ b, f.find? id = some b ∧ SameEdges b b' :=
    Lists.find?_forall₂ same.flip (fun _ _ sameB => by rw [sameB.id]) found
  exact {
    toLayout := matches'.toLayout.congr (same.imp fun _ _ sameB => sameB.toSameNode)
    args1 := by
      intro b' member id next' edge found
      obtain ⟨b, listed, sameB⟩ := Lists.mem_of_forall₂ same member
      obtain ⟨next, found', sameNext⟩ := find? found
      rw [sameNext.params, sameB.args1]
      exact matches'.args1 b listed id next (by rw [← sameB.s1, edge]) found'
    args2 := by
      intro b' member id next' edge found
      obtain ⟨b, listed, sameB⟩ := Lists.mem_of_forall₂ same member
      obtain ⟨next, found', sameNext⟩ := find? found
      rw [sameNext.params, sameB.args2]
      exact matches'.args2 b listed id next (by rw [← sameB.s2, edge]) found' }

namespace Ssa

/-- `ssa` gives every edge as many arguments as its target has parameters. -/
theorem Converted.argsMatch {f h : Fn} {root : Nat} (converted : Converted f h root) :
    ArgsMatch h := by
  obtain ⟨i, i', renamed⟩ := converted.renamed
  have named := renameBlks_renamed renamed
  have find? {id : Nat} {b' : Blk} (found : h.find? id = some b') :
      ∃ b, (collected f root).find? id = some b ∧ RenamedTo b b' :=
    Lists.find?_forall₂ named.flip
      (fun b' b (same : RenamedTo b b') => by rw [same.sameNode.id]) found
  have keepsNode (b : Blk) : SameNode b (passArgs (paramTable f (order f root)) 4 b) :=
    ⟨rfl, rfl, rfl, rfl⟩
  have layout : Layout (collected f root) :=
    (prune_layout converted.raw.toLayout converted.listed).mapBlks keepsNode
  -- The parameters of a block are as many as the table says for its number.
  have params {id : Nat} {next' : Blk} (found : h.find? id = some next') :
      next'.params.length = (paramTable f (order f root) id).length := by
    obtain ⟨next, foundNext, same⟩ := find? found
    obtain ⟨next₀, -, rfl⟩ := mem_collected (Fn.find?_mem foundNext)
    have number := Fn.find?_id foundNext
    rw [same.params.1, ← number]
    rfl
  have arguments {b b' : Blk} (same : RenamedTo b b') :
      b'.args1.length = b.args1.length ∧ b'.args2.length = b.args2.length := by
    obtain ⟨i, i', renamed⟩ := same
    obtain ⟨_, _, _, _, _, _, _, _, _, _, args1, first, args2, second, rfl, _⟩ :=
      renameTemps_eq_ok.mp renamed
    exact ⟨(Result.mapM_eq_ok.mp first).length_eq.symm,
      (Result.mapM_eq_ok.mp second).length_eq.symm⟩
  exact {
    toLayout := layout.congr (named.imp fun _ _ same => same.sameNode)
    args1 := by
      intro b' member id next' edge found
      obtain ⟨b, listed, same⟩ := Lists.mem_of_forall₂ named member
      obtain ⟨b₀, -, rfl⟩ := mem_collected listed
      rw [params found, (arguments same).1]
      rw [same.sameNode.s1] at edge
      have target : b₀.s1 = some id := edge
      simp [collect, passArgs, setArgs, setParams, target, tableAt]
    args2 := by
      intro b' member id next' edge found
      obtain ⟨b, listed, same⟩ := Lists.mem_of_forall₂ named member
      obtain ⟨b₀, -, rfl⟩ := mem_collected listed
      rw [params found, (arguments same).2]
      rw [same.sameNode.s2] at edge
      have target : b₀.s2 = some id := edge
      simp [collect, passArgs, setArgs, setParams, target, tableAt] }

end Ssa

/-- The number of a temporary. -/
def Val.number? : Val → Option Nat
  | .tmp t => some t
  | _ => none

theorem Val.mem_number? {v : Val} {t : Nat} : t ∈ v.number? ↔ v = .tmp t := by
  cases v <;> simp [number?]

/-- The temporaries a block defines, in order: its parameters, then the outputs of its
instructions. -/
def Blk.defs (b : Blk) : List Nat :=
  b.params.filterMap Val.number? ++ b.insns.filterMap (·.out.number?)

/-- Every temporary a block uses is a parameter, or the output of an earlier instruction of
the block. -/
structure Blk.UsesDefined (b : Blk) : Prop where
  reads : ∀ before n after, b.insns = before ++ n :: after →
    n.reads ⊆ tempsOf b.params ∪ definedIn before
  compared : b.compared ⊆ tempsOf b.params ∪ b.defined
  args1 : tempsOf b.args1 ⊆ tempsOf b.params ∪ b.defined
  args2 : tempsOf b.args2 ⊆ tempsOf b.params ∪ b.defined

/-- The form of a function that `ssa` has converted to one with `n` temporaries. -/
structure SsaForm (h : Fn) (n : Nat) : Prop extends ArgsMatch h where
  /-- the blocks define all temporaries in order -/
  once : h.blks.flatMap Blk.defs = List.range n
  increasing : ∀ b ∈ h.blks, b.defs.Pairwise (· < ·)
  uses : ∀ b ∈ h.blks, b.UsesDefined
  params : ∀ b ∈ h.blks, b.params.Nodup ∧ ∀ p ∈ b.params, p.isTmp

namespace Ssa

/-- The rules only give out temporaries of a set. -/
def Renaming.Within (r : Renaming) (issued : Set Nat) : Prop :=
  ∀ t u, r.rmap.getD t .noclass = .tmp u → u ∈ issued

section Numbering

variable {r r' : Renaming} {issued : Set Nat}

private theorem rewriteTmp_within (within : r.Within issued) {v v' : Val}
    (renamed : rewriteTmp r.rmap v = .ok v') : v'.temps ⊆ issued := by
  obtain ⟨t, u, rfl, rfl, rule⟩ := rewriteTmp_eq_ok.mp renamed
  intro w same
  obtain rfl : u = w := by simpa using same
  exact within t u rule

/-- What is read has been given out. -/
theorem renameUse_within (within : r.Within issued) {v v' : Val}
    (renamed : renameUse r.rmap v = .ok v') : v'.temps ⊆ issued := by
  unfold renameUse at renamed
  by_cases isTmp : v.isTmp
  · rw [if_pos isTmp] at renamed
    exact rewriteTmp_within within renamed
  · rw [if_neg isTmp, Result.pure_eq, Except.ok.injEq] at renamed
    subst renamed
    intro t same
    exact absurd (Val.isTmp_iff.mpr ⟨t, same⟩) isTmp

private theorem renameArgs_within (within : r.Within issued) {args args' : List Val}
    (renamed : args.mapM (rewriteTmp r.rmap) = .ok args') : tempsOf args' ⊆ issued := by
  intro t member
  obtain ⟨v, -, rewritten⟩ := Lists.mem_of_forall₂ (Result.mapM_eq_ok.mp renamed) member
  exact rewriteTmp_within within rewritten rfl

/-- A definition takes the next number and gives it out. -/
theorem renameDef_numbered {v v' : Val} (renamed : renameDef r v = .ok (r', v')) :
    v' = .tmp r.i ∧ r'.i = r.i + 1 ∧
      ∀ issued, r.Within issued → r'.Within (insert r.i issued) := by
  obtain ⟨t, rfl, rfl, rfl⟩ := renameDef_eq_ok.mp renamed
  refine ⟨rfl, rfl, fun issued within w u rule => ?_⟩
  rw [Padded.getD_write] at rule
  by_cases same : w = t
  · rw [if_pos same, Val.tmp.injEq] at rule
    exact Or.inl rule.symm
  · rw [if_neg same] at rule
    exact Or.inr (within w u rule)

/-- The parameters take consecutive numbers. -/
theorem renameParams_numbered {params params' : List Val}
    (renamed : renameParams r params = .ok (r', params')) :
    r.i ≤ r'.i ∧ params'.filterMap Val.number? = List.range' r.i (r'.i - r.i) ∧
      ∀ issued, r.Within issued → r'.Within (issued ∪ tempsOf params') := by
  induction params generalizing r params' with
  | nil =>
    simp only [renameParams, Result.pure_eq, Except.ok.injEq, Prod.mk.injEq] at renamed
    obtain ⟨rfl, rfl⟩ := renamed
    simp
  | cons p rest ih =>
    simp only [renameParams, Result.bind_eq_ok, Result.pure_eq, Except.ok.injEq, Prod.mk.injEq,
      Prod.exists] at renamed
    obtain ⟨next, p', first, last, rest', others, rfl, rfl⟩ := renamed
    obtain ⟨rfl, number, within⟩ := renameDef_numbered first
    obtain ⟨le, numbered, within'⟩ := ih others
    rw [number] at le numbered
    refine ⟨Nat.le_of_succ_le le, ?_, fun issued known => ?_⟩
    · have count : last.i - r.i = (last.i - (r.i + 1)) + 1 := by omega
      rw [count, List.range'_succ, ← numbered]
      rfl
    · have grown := within' _ (within issued known)
      have same : issued ∪ tempsOf (.tmp r.i :: rest') = insert r.i issued ∪ tempsOf rest' := by
        ext t
        simp only [Set.mem_union, mem_tempsOf, List.mem_cons, Val.tmp.injEq, Set.mem_insert_iff]
        tauto
      rw [same]
      exact grown

/-- An output takes the next number if it is a temporary. -/
theorem renameOut_numbered {v v' : Val} (renamed : renameOut r v = .ok (r', v')) :
    r.i ≤ r'.i ∧ v'.number?.toList = List.range' r.i (r'.i - r.i) ∧
      ∀ issued, r.Within issued → r'.Within (issued ∪ v'.temps) := by
  unfold renameOut at renamed
  by_cases isTmp : v.isTmp
  · rw [if_pos isTmp] at renamed
    obtain ⟨rfl, number, within⟩ := renameDef_numbered renamed
    rw [number]
    refine ⟨Nat.le_succ _, by simp [Val.number?], fun issued known => ?_⟩
    have same : issued ∪ (Val.tmp r.i).temps = insert r.i issued := by
      ext t
      simp only [Set.mem_union, Val.mem_temps, Val.tmp.injEq, Set.mem_insert_iff]
      tauto
    rw [same]
    exact within issued known
  · rw [if_neg isTmp, Result.pure_eq, Except.ok.injEq, Prod.mk.injEq] at renamed
    obtain ⟨rfl, rfl⟩ := renamed
    have none : v.number? = none := by
      cases v with
      | tmp t => exact absurd rfl isTmp
      | _ => rfl
    exact ⟨Nat.le_refl _, by simp [none], fun issued within t u rule => Or.inl (within t u rule)⟩

/-- The outputs of the instructions take consecutive numbers, and what an instruction reads
has been given out before it. -/
theorem renameInsns_numbered {insns insns' : List Insn}
    (renamed : renameInsns r insns = .ok (r', insns')) (within : r.Within issued) :
    r.i ≤ r'.i ∧ insns'.filterMap (·.out.number?) = List.range' r.i (r'.i - r.i) ∧
      (∀ before n after, insns' = before ++ n :: after → n.reads ⊆ issued ∪ definedIn before) ∧
        r'.Within (issued ∪ definedIn insns') := by
  induction insns generalizing r issued insns' with
  | nil =>
    obtain ⟨rfl, rfl⟩ := renameInsns_nil_eq_ok.mp renamed
    simpa using within
  | cons n rest ih =>
    obtain ⟨next, n', head, rest', others, rfl⟩ := renameInsns_cons_eq_ok.mp renamed
    obtain ⟨in0, first, in1, second, out, defined, rfl⟩ := renameInsn_eq_ok.mp head
    obtain ⟨le, number, grown⟩ := renameOut_numbered defined
    obtain ⟨le', numbered, reads, within'⟩ := ih others (grown issued within)
    refine ⟨Nat.le_trans le le', ?_, ?_, ?_⟩
    · rw [List.filterMap_cons, ← Lists.range'_append_sub le le', ← number, numbered]
      cases out.number? <;> rfl
    · intro before m after split
      cases before with
      | nil =>
        obtain ⟨rfl, -⟩ := List.cons.inj split
        rw [definedIn_nil, Set.union_empty]
        exact Set.union_subset (renameUse_within within first) (renameUse_within within second)
      | cons head before =>
        obtain ⟨rfl, split'⟩ := List.cons.inj split
        rw [definedIn_cons, ← Set.union_assoc]
        exact reads before m after split'
    · rw [definedIn_cons, ← Set.union_assoc]
      exact within'

private theorem renameTemps_numbered {b b' : Blk} {i i' : Nat}
    (renamed : renameTemps b i = .ok (b', i')) :
    i ≤ i' ∧ b'.defs = List.range' i (i' - i) ∧ b'.UsesDefined := by
  obtain ⟨r, params, renamedParams, r', insns, renamedInsns, cmp0, renamed0, cmp1, renamed1,
    args1, renamedArgs1, args2, renamedArgs2, rfl, rfl⟩ := renameTemps_eq_ok.mp renamed
  have start : ({ i } : Renaming).Within ∅ := by
    intro t u rule
    simp at rule
  obtain ⟨le, numbered, within⟩ := renameParams_numbered renamedParams
  have within := within ∅ start
  rw [Set.empty_union] at within
  obtain ⟨le', numbered', reads, within'⟩ := renameInsns_numbered renamedInsns within
  refine ⟨Nat.le_trans le le', ?_, reads, ?_, renameArgs_within within' renamedArgs1,
    renameArgs_within within' renamedArgs2⟩
  · rw [Blk.defs, numbered, numbered', Lists.range'_append_sub le le']
  · exact Set.union_subset (renameUse_within within' renamed0) (renameUse_within within' renamed1)

private theorem renameBlks_numbered {i i' : Nat} {blks blks' : List Blk}
    (renamed : renameBlks i blks = .ok (blks', i')) :
    i ≤ i' ∧ blks'.flatMap Blk.defs = List.range' i (i' - i) ∧
      ∀ b ∈ blks', b.defs.Pairwise (· < ·) ∧ b.UsesDefined := by
  induction blks generalizing i blks' with
  | nil =>
    simp only [renameBlks, Result.pure_eq, Except.ok.injEq, Prod.mk.injEq] at renamed
    obtain ⟨rfl, rfl⟩ := renamed
    simp
  | cons b rest ih =>
    simp only [renameBlks, Result.bind_eq_ok, Result.pure_eq, Except.ok.injEq, Prod.mk.injEq,
      Prod.exists] at renamed
    obtain ⟨b', j, first, rest', k, others, rfl, rfl⟩ := renamed
    obtain ⟨le, numbered, uses⟩ := renameTemps_numbered first
    obtain ⟨le', numbered', uses'⟩ := ih others
    refine ⟨Nat.le_trans le le', ?_, ?_⟩
    · rw [List.flatMap_cons, numbered, numbered', Lists.range'_append_sub le le']
    · rw [List.forall_mem_cons]
      refine ⟨⟨?_, uses⟩, uses'⟩
      rw [numbered]
      exact List.pairwise_lt_range'

end Numbering

/-- Edges of a converted function pass as many arguments as there are parameters. -/
theorem argsMatch_of_converted {f h : Fn} {n : Nat} (before : BeforeSsa f)
    (converted : ssa f = .ok (h, n)) : ArgsMatch h := by
  have raw := before.raw
  obtain ⟨entry, rest, blks⟩ := List.exists_cons_of_ne_nil raw.nonempty
  exact (ssa_converted raw blks converted).argsMatch

/-- The blocks of a converted function define the numbers of the counter in order. -/
theorem numbered_of_converted {f h : Fn} {n : Nat} (before : BeforeSsa f)
    (converted : ssa f = .ok (h, n)) : h.blks.flatMap Blk.defs = List.range n ∧
      ∀ b ∈ h.blks, b.defs.Pairwise (· < ·) ∧ b.UsesDefined ∧
        b.params.Nodup ∧ ∀ p ∈ b.params, p.isTmp := by
  have raw := before.raw
  obtain ⟨entry, rest, blks⟩ := List.exists_cons_of_ne_nil raw.nonempty
  rw [ssa_eq raw blks] at converted
  simp only [Result.bind_eq_ok, Result.pure_eq, Except.ok.injEq, Prod.mk.injEq,
    Prod.exists] at converted
  obtain ⟨blks', _, renamed, rfl, rfl⟩ := converted
  obtain ⟨-, numbered, uses⟩ := renameBlks_numbered renamed
  constructor
  · change blks'.flatMap Blk.defs = _
    rw [numbered, List.range_eq_range', Nat.sub_zero]
  · intro b member
    obtain ⟨_, -, same⟩ := Lists.mem_of_forall₂ (renameBlks_renamed renamed) member
    exact ⟨(uses b member).1, (uses b member).2, same.params.2⟩

/-- Whatever `ssa` returns has the form the later passes assume. -/
theorem ssa_form {f h : Fn} {n : Nat} (before : BeforeSsa f) (converted : ssa f = .ok (h, n)) :
    SsaForm h n := by
  obtain ⟨once, each⟩ := numbered_of_converted before converted
  exact {
    toArgsMatch := argsMatch_of_converted before converted
    once
    increasing := fun b member => (each b member).1
    uses := fun b member => (each b member).2.1
    params := fun b member => (each b member).2.2 }

/-- The converted loop test has the form. -/
theorem ssa_form_simpleLoop :
    ∃ f g h n, Frontend.buildFunction 0 Frontend.simpleLoop = .ok f ∧ Corrected f g ∧
      ssa g = .ok (h, n) ∧ SsaForm h n := by
  have ran : ∃ f g ri h n, Frontend.buildFunction 0 Frontend.simpleLoop = .ok f ∧
      correct 20 f f.ntmp = .ok (g, ri) ∧ ssa { g with ntmp := ri } = .ok (h, n) :=
    ⟨_, _, _, _, _, by rfl, by rfl, by rfl⟩
  obtain ⟨f, g, ri, h, n, parsed, corrected, converted⟩ := ran
  have corrected : Corrected f { g with ntmp := ri } := ⟨20, g, ri, corrected, rfl⟩
  exact ⟨f, _, h, n, parsed, corrected, converted,
    ssa_form (.corrected ⟨0, _, parsed⟩ corrected) converted⟩

end Ssa

end Qbt
