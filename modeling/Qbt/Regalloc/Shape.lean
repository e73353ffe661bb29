import Qbt.Abi.KeepsShape
import Qbt.Correct.NoRegisters
import Qbt.Regalloc.Clash
import Qbt.Ssa.Form

/-!
# What register allocation leaves behind

The graph and the numbers of parameters and arguments come from `ssa` and are not
changed any more. `abi0` writes argument registers into instructions, and `regalloc`
replaces every temporary by a register of `tr_map`.
-/

namespace Qbt

/-- A register of the table `find_free_reg` goes through. -/
def Val.Allocable (v : Val) : Prop := ∃ r ∈ trMap, v = .reg r

/-- What is handed out is in the table of registers. -/
theorem Val.Allocable.num {v : Val} (allocable : v.Allocable) : v.num ∈ trMap := by
  obtain ⟨r, listed, rfl⟩ := allocable
  exact listed

/-- An operand behind `abi0`: no register, or one for arguments. -/
def Val.ArgOnly (v : Val) : Prop := ∀ r, v = .reg r → r ∈ arMap

private theorem Val.argOnly_of_noReg {v : Val} (noReg : v.isReg = false) : v.ArgOnly := by
  rintro r rfl
  cases noReg

/-- An instruction behind `abi0`. -/
structure Insn.ArgOnly (n : Insn) : Prop where
  out : n.out.ArgOnly
  in0 : n.in0.ArgOnly
  in1 : n.in1.ArgOnly
  type : n.type.savesReg = false

/-- A block `regalloc` is given: its parameters and arguments are temporaries, its
instructions name argument registers only, and it compares temporaries. -/
structure BeforeAlloc (b : Blk) : Prop where
  insns : ∀ n ∈ b.insns, n.ArgOnly
  params : ∀ p ∈ b.params, p.isTmp
  args1 : ∀ a ∈ b.args1, a.isTmp
  args2 : ∀ a ∈ b.args2, a.isTmp
  compares : b.Compares fun v => v.isTmp

namespace Abi

private theorem renameInsns_noRegs {r r' : Ssa.Renaming} {insns insns' : List Insn}
    (renamed : Ssa.renameInsns r insns = .ok (r', insns')) (noRegs : ∀ n ∈ insns, n.NoRegs) :
    ∀ n ∈ insns', n.NoRegs := by
  intro n' member
  obtain ⟨n, listed, before, after, first⟩ := Ssa.mem_renameInsns renamed member
  obtain ⟨in0, first0, in1, first1, out, defined, rfl⟩ := Ssa.renameInsn_eq_ok.mp first
  have plain := noRegs n listed
  exact ⟨(renameOut_class defined).isReg.trans plain.out,
    (renameUse_class first0).isReg.trans plain.in0,
    (renameUse_class first1).isReg.trans plain.in1, plain.type⟩

/-- What is left of a plain block behind `ssa`. -/
theorem renamed_plain {b b' : Blk} (renamed : Ssa.RenamedTo b b') (plain : Correct.Plain b) :
    Correct.Plain b' ∧ (∀ p ∈ b'.params, p.isTmp) ∧ (∀ a ∈ b'.args1, a.isTmp) ∧
      ∀ a ∈ b'.args2, a.isTmp := by
  have params := renamed.params.2.2
  have btype := renamed.sameNode.btype
  obtain ⟨i, i', renamed⟩ := renamed
  obtain ⟨_, _, _, _, insns, renamedInsns, c0, renamed0, c1, renamed1, args1, renamedArgs1,
    args2, renamedArgs2, rfl, _⟩ := Ssa.renameTemps_eq_ok.mp renamed
  have class0 := renameUse_class renamed0
  have class1 := renameUse_class renamed1
  refine ⟨⟨renameInsns_noRegs renamedInsns plain.insns, ?_⟩, params,
    rewriteTmps_temps renamedArgs1, rewriteTmps_temps renamedArgs2⟩
  exact ⟨fun type => class0.isTmp.trans (plain.compares.first type),
    fun type => class1.isTmp.trans (plain.compares.second type)⟩

private theorem nthAr_argOnly {k : Nat} {v : Val} (found : nthAr k = .ok v) : v.ArgOnly := by
  unfold nthAr at found
  split at found
  · rename_i r listed
    cases found
    rintro _ ⟨⟩
    exact List.mem_of_getElem? listed
  · cases found

/-- `abi0` brings in argument registers only. -/
theorem rewriteInsn_argOnly {n n' : Insn} (noRegs : n.NoRegs)
    (rewritten : rewriteInsn n = .ok n') : n'.ArgOnly := by
  have absent : (Val.noclass).ArgOnly := Val.argOnly_of_noReg rfl
  have plain : n.ArgOnly := ⟨Val.argOnly_of_noReg noRegs.out, Val.argOnly_of_noReg noRegs.in0,
    Val.argOnly_of_noReg noRegs.in1, noRegs.type⟩
  have passed {m : Insn} (passes : passIn n = .ok m) : m.ArgOnly := by
    simp only [passIn, Result.bind_eq_ok] at passes
    obtain ⟨_, _, r, found, passes⟩ := passes
    cases in0 : n.in0 <;> rw [in0] at passes <;> cases passes <;>
      exact ⟨nthAr_argOnly found, in0 ▸ plain.in0, absent, rfl⟩
  unfold rewriteInsn at rewritten
  split at rewritten
  · simp only [rewriteParam, Result.bind_eq_ok, Result.pure_eq, Except.ok.injEq] at rewritten
    obtain ⟨_, _, r, found, rfl⟩ := rewritten
    exact ⟨plain.out, nthAr_argOnly found, absent, rfl⟩
  · simp only [rewriteRetval, Result.bind_eq_ok, Result.pure_eq, Except.ok.injEq] at rewritten
    obtain ⟨_, _, r, found, rfl⟩ := rewritten
    exact ⟨plain.out, nthAr_argOnly found, absent, rfl⟩
  · simp only [rewriteArg, Result.bind_eq_ok, Result.pure_eq, Except.ok.injEq] at rewritten
    obtain ⟨m, passes, rfl⟩ := rewritten
    exact ⟨(passed passes).out, (passed passes).in0, (passed passes).in1, (passed passes).type⟩
  · exact passed rewritten
  · cases rewritten
    exact ⟨plain.out, plain.in0, plain.in1, plain.type⟩
  · cases rewritten
    exact plain

/-- `abi0` is given blocks without registers. -/
theorem converted_plain {f g h : Fn} {n : Nat} (built : Frontend.ParserBuilt f)
    (corrected : Corrected f g) (converted : ssa g = .ok (h, n)) {b : Blk} (member : b ∈ h.blks) :
    Correct.Plain b ∧ (∀ p ∈ b.params, p.isTmp) ∧ (∀ a ∈ b.args1, a.isTmp) ∧
      ∀ a ∈ b.args2, a.isTmp := by
  obtain ⟨_, d, listed, named⟩ :=
    Ssa.ssa_origin (BeforeSsa.corrected built corrected).raw converted member
  have plain := corrected.plain built d listed
  exact renamed_plain named ⟨plain.insns, plain.compares.first, plain.compares.second⟩

/-- What the passes before it hand to `regalloc`. -/
theorem abi0_beforeAlloc {f g h k : Fn} {n : Nat} (built : Frontend.ParserBuilt f)
    (corrected : Corrected f g) (converted : ssa g = .ok (h, n)) (merged : abi0 h = .ok k) :
    ArgsMatch k ∧ ∀ b ∈ k.blks, BeforeAlloc b := by
  have raw := (BeforeSsa.corrected built corrected).raw
  obtain ⟨entry, rest, blks⟩ := List.exists_cons_of_ne_nil raw.nonempty
  have result := Ssa.ssa_converted raw blks converted
  have rewritten := abi0_rewritten merged
  refine ⟨result.argsMatch.congr (rewritten.imp fun b b' same => ?_), ?_⟩
  · obtain ⟨_, _, rfl⟩ := rewriteBlk_eq_ok.mp same
    exact ⟨⟨rfl, rfl, rfl, rfl⟩, rfl, rfl, rfl⟩
  · intro b member
    obtain ⟨c, listed, same⟩ := Lists.mem_of_forall₂ rewritten member
    obtain ⟨plain, params, args1, args2⟩ := converted_plain built corrected converted listed
    obtain ⟨insns, replaced, rfl⟩ := rewriteBlk_eq_ok.mp same
    refine ⟨fun n memberN => ?_, params, args1, args2, plain.compares.first,
      plain.compares.second⟩
    obtain ⟨n₀, old, rewrote⟩ := Lists.mem_of_forall₂ replaced memberN
    exact rewriteInsn_argOnly (plain.insns n₀ old) rewrote

end Abi

/-- What `regalloc` is given has the form it assumes. -/
theorem Optimizes.beforeAlloc {f g h k m : Fn} (optimizes : Optimizes f g h k m)
    (built : Frontend.ParserBuilt f) : ArgsMatch k ∧ ∀ b ∈ k.blks, BeforeAlloc b := by
  obtain ⟨n, converted⟩ := optimizes.converted
  exact Abi.abi0_beforeAlloc built optimizes.corrected converted optimizes.merged

namespace Regalloc

/-- Argument registers may be handed out. -/
theorem arMap_subset : arMap ⊆ trMap := by decide

/-- Every rule is for a register of `tr_map`. -/
def RulesIn (rmap : List Val) : Prop := ∀ t, ruleOf rmap t ≠ .noclass → (ruleOf rmap t).Allocable

theorem RulesIn.nil : RulesIn [] := fun _ rule => absurd rfl rule

/-- A register that may be handed out may get a rule. -/
theorem RulesIn.add {rmap rmap' : List Val} {v r : Val} (rules : RulesIn rmap)
    (allocable : r.Allocable) (added : addRewriteRule rmap v r = .ok rmap') : RulesIn rmap' := by
  intro t rule
  rw [ruleOf_addRewriteRule added] at rule ⊢
  by_cases same : t = v.num
  · rwa [if_pos same]
  · rw [if_neg same] at rule ⊢
    exact rules t rule

/-- Temporaries are rewritten to registers that may be handed out. -/
theorem RulesIn.rewriteTmp {rmap : List Val} {v r : Val} (rules : RulesIn rmap)
    (rewritten : rewriteTmp rmap v = .ok r) : r.Allocable := by
  obtain ⟨t, _, rfl, real⟩ := rewriteTmp_eq_ok.mp rewritten
  exact rules t real

/-- The rules and hints of the function so far. -/
structure Collected.RulesIn (c : Collected) : Prop where
  hints : Regalloc.RulesIn c.hints
  rmap : Regalloc.RulesIn c.rmap

private theorem collectHints_rulesIn {c c' : Collected} {n : Insn} (rules : c.RulesIn)
    (argOnly : n.ArgOnly) (collected : collectHints c n = .ok c') : c'.RulesIn := by
  have allocable {v : Val} (only : v.ArgOnly) {r : Nat} (same : v = .reg r) : v.Allocable :=
    ⟨r, arMap_subset (only r same), same⟩
  unfold collectHints at collected
  split at collected <;>
    simp only [Result.bind_eq_ok, Result.pure_eq, Except.ok.injEq] at collected
  · rename_i source
    obtain ⟨_, hinted, _, ruled, rfl⟩ := collected
    exact ⟨rules.hints.add (allocable argOnly.in0 source) hinted,
      rules.rmap.add (allocable argOnly.in0 source) ruled⟩
  · rename_i target _
    obtain ⟨_, hinted, rfl⟩ := collected
    exact ⟨rules.hints.add (allocable argOnly.out target) hinted, rules.rmap⟩
  · rw [← collected]
    exact rules

private theorem collectInsns_rulesIn {c c' : Collected} {insns : List Insn} {pos : Nat}
    (rules : c.RulesIn) (argOnly : ∀ n ∈ insns, n.ArgOnly)
    (collected : collectInsns c insns pos = .ok c') : c'.RulesIn := by
  induction insns generalizing c pos with
  | nil =>
    cases collected
    exact rules
  | cons n rest ih =>
    simp only [collectInsns, Result.bind_eq_ok] at collected
    obtain ⟨next, first, others⟩ := collected
    simp only [collectInsn, Result.bind_eq_ok, Result.pure_eq, Except.ok.injEq] at first
    obtain ⟨_, _, _, _, hinted, collectedHints, rfl⟩ := first
    have rules' : hinted.RulesIn := by
      refine collectHints_rulesIn ?_ (argOnly n List.mem_cons_self) collectedHints
      exact ⟨rules.hints, rules.rmap⟩
    refine ih ?_ (fun m member => argOnly m (List.mem_cons_of_mem _ member)) others
    exact ⟨rules'.hints, rules'.rmap⟩

/-- Hints and rules of a block are registers that may be handed out. -/
theorem collectLifetimes_rulesIn {b : Blk} {hints rmap : List Val} {c : Collected}
    (hintsIn : RulesIn hints) (rmapIn : RulesIn rmap) (argOnly : ∀ n ∈ b.insns, n.ArgOnly)
    (collected : collectLifetimes b hints rmap = .ok c) : c.RulesIn := by
  simp only [collectLifetimes, Result.bind_eq_ok, Result.pure_eq, Except.ok.injEq] at collected
  obtain ⟨next, insns, _, _, _, _, _, _, _, _, rfl⟩ := collected
  have rules := collectInsns_rulesIn ⟨hintsIn, rmapIn⟩ argOnly insns
  exact ⟨rules.hints, rules.rmap⟩

/-- The preferred register may be handed out. -/
theorem Preferred.allocable {hints : List Val} {reserved : List Val} {v r : Val}
    (hintsIn : RulesIn hints) (preferred : Preferred (getHint hints v) reserved r) :
    r.Allocable := by
  unfold Preferred at preferred
  split at preferred
  · rename_i free
    rw [preferred]
    refine hintsIn v.num fun none => ?_
    have hinted := free.1
    rw [show getHint hints v = .noclass from none] at hinted
    cases hinted
  · obtain ⟨k, listed, rfl, _⟩ := findFreeReg_eq_ok preferred
    exact ⟨k, listed, rfl⟩

/-- Only registers that may be handed out are assigned. -/
theorem assignFrom_rulesIn {hints : List Val} {lifetimes rest : List Lifetime} {a a' : Assignment}
    {i : Nat} (hintsIn : RulesIn hints) (rules : RulesIn a.rmap)
    (assigned : assignFrom hints lifetimes a i rest = .ok a') : RulesIn a'.rmap := by
  induction rest generalizing a i with
  | nil =>
    cases assigned
    exact rules
  | cons l rest ih =>
    simp only [assignFrom, Result.bind_eq_ok] at assigned
    obtain ⟨next, first, others⟩ := assigned
    refine ih ?_ others
    obtain ⟨rfl, _⟩ | ⟨_, _, chosen⟩ := assignOne_eq_ok first
    · exact rules
    · obtain ⟨_, _, _, preferred, added⟩ := chooseReg_eq_ok chosen
      exact rules.add (preferred.allocable hintsIn) added

/-- What `do_rewrites` makes of an operand. -/
theorem rewriteUse_allocable {rmap : List Val} {v v' : Val} (rules : RulesIn rmap)
    (rewritten : rewriteUse rmap v = .ok v') :
    (v.isTmp ∧ v'.Allocable) ∨ (v.isTmp = false ∧ v' = v) := by
  unfold rewriteUse at rewritten
  split at rewritten
  · rename_i isTmp
    exact Or.inl ⟨isTmp, rules.rewriteTmp rewritten⟩
  · rename_i other
    cases rewritten
    exact Or.inr ⟨by simpa using other, rfl⟩

/-- `do_call_saves` changes the instructions only. -/
theorem insnInsert_keeps {b b' : Blk} {n : Insn} {pos : Nat}
    (inserted : insnInsert b n pos = .ok b') : b' = { b with insns := b'.insns } := by
  obtain ⟨_, rfl⟩ := insnInsert_eq_ok.mp inserted
  rfl

private theorem saveBefore_keeps {b b' : Blk} {pos counter : Nat} {reserved : List Val}
    (saved : saveBefore b pos counter reserved = .ok b') : b' = { b with insns := b'.insns } := by
  induction reserved generalizing b pos counter with
  | nil =>
    cases saved
    rfl
  | cons r rest ih =>
    simp only [saveBefore, Result.bind_eq_ok] at saved
    obtain ⟨_, _, saved⟩ := saved
    split at saved
    · exact ih saved
    · simp only [insertBeforeCall, Result.bind_eq_ok] at saved
      obtain ⟨c, ⟨_, _, _, _, inserted⟩, saved⟩ := saved
      have keeps := ih saved
      rw [insnInsert_keeps inserted] at keeps
      exact keeps

private theorem restoreAfter_keeps {b b' : Blk} {pos counter : Nat} {reserved : List Val}
    (restored : restoreAfter b pos counter reserved = .ok b') :
    b' = { b with insns := b'.insns } := by
  induction reserved generalizing b counter with
  | nil =>
    cases restored
    rfl
  | cons r rest ih =>
    simp only [restoreAfter] at restored
    split at restored
    · exact ih restored
    · simp only [insertAfterCall, Result.bind_eq_ok] at restored
      obtain ⟨c, ⟨_, _, inserted⟩, restored⟩ := restored
      have keeps := ih restored
      rw [insnInsert_keeps inserted] at keeps
      exact keeps

/-- Saves change the instructions of a block only. -/
theorem saveCalls_keeps {lifetimes : List Lifetime} {rmap : List Val} {s s' : Saving}
    {calls : List Nat} (saved : calls.foldlM (saveCall lifetimes rmap) s = .ok s') :
    s'.b = { s.b with insns := s'.b.insns } := by
  induction calls generalizing s with
  | nil =>
    cases saved
    rfl
  | cons pos rest ih =>
    simp only [List.foldlM_cons, saveCall, Result.bind_eq_ok, Result.pure_eq, Except.ok.injEq]
      at saved
    obtain ⟨_, ⟨_, _, b₁, before, b₂, after, rfl⟩, others⟩ := saved
    have keeps := ih others
    rw [restoreAfter_keeps after, saveBefore_keeps before] at keeps
    exact keeps

/-- A block behind `regalloc`: what was a temporary is a register of `tr_map`. -/
structure AllocatedBlk (b b' : Blk) : Prop extends SameEdges b b' where
  inRegs : (∀ p ∈ b'.params, p.Allocable) ∧ (∀ a ∈ b'.args1, a.Allocable) ∧
    ∀ a ∈ b'.args2, a.Allocable
  compares : b'.Compares Val.Allocable
  toLabel : b'.toLabel = b.toLabel

private theorem mapM_allocable {rmap : List Val} {vals vals' : List Val} (rules : RulesIn rmap)
    (rewritten : vals.mapM (rewriteTmp rmap) = .ok vals') :
    vals'.length = vals.length ∧ ∀ v ∈ vals', v.Allocable := by
  have paired := Result.mapM_eq_ok.mp rewritten
  refine ⟨paired.length_eq.symm, fun v member => ?_⟩
  obtain ⟨_, _, rewrote⟩ := Lists.mem_of_forall₂ paired member
  exact rules.rewriteTmp rewrote

private theorem doRewrites_allocated {b b' : Blk} {rmap : List Val} (rules : RulesIn rmap)
    (before : BeforeAlloc b) (rewritten : doRewrites b rmap = .ok b') : AllocatedBlk b b' := by
  simp only [doRewrites, Result.bind_eq_ok, Result.pure_eq, Except.ok.injEq] at rewritten
  obtain ⟨params, mappedParams, insns, _, c0, renamed0, c1, renamed1, args1, mapped1, args2,
    mapped2, rfl⟩ := rewritten
  obtain ⟨lengthP, allocableP⟩ := mapM_allocable rules mappedParams
  obtain ⟨length1, allocable1⟩ := mapM_allocable rules mapped1
  obtain ⟨length2, allocable2⟩ := mapM_allocable rules mapped2
  have compared {v v' : Val} (isTmp : v.isTmp) (rewritten : rewriteUse rmap v = .ok v') :
      v'.Allocable := by
    rcases rewriteUse_allocable rules rewritten with found | other
    · exact found.2
    · rw [isTmp] at other
      exact absurd other.1 (by simp)
  exact {
    id := rfl
    btype := rfl
    s1 := rfl
    s2 := rfl
    params := lengthP
    args1 := length1
    args2 := length2
    inRegs := ⟨allocableP, allocable1, allocable2⟩
    compares := ⟨fun type => compared (before.compares.first type) renamed0,
      fun type => compared (before.compares.second type) renamed1⟩
    toLabel := rfl }

/-- The rules of the function so far name registers of `tr_map`. -/
structure Allocation.RulesIn (a : Allocation) : Prop where
  hints : Regalloc.RulesIn a.hints
  rmap : Regalloc.RulesIn a.rmap

/-- All rules of an allocated block are registers that may be handed out. -/
theorem Allocates.rulesIn {a : Allocation} {b b' : Blk} {c : Collected} {r : Assignment}
    (allocates : Allocates a b c r b') (rules : a.RulesIn) (before : BeforeAlloc b) :
    c.RulesIn ∧ RulesIn r.rmap := by
  have collected := collectLifetimes_rulesIn rules.hints rules.rmap before.insns
    allocates.collected
  exact ⟨collected, assignFrom_rulesIn collected.hints collected.rmap allocates.assigned⟩

/-- Every block is allocated. -/
theorem allocBlks_allocated {a a' : Allocation} {blks blks' : List Blk} (rules : a.RulesIn)
    (before : ∀ b ∈ blks, BeforeAlloc b) (returned : allocBlks a blks = .ok (a', blks')) :
    List.Forall₂ AllocatedBlk blks blks' := by
  induction blks generalizing a blks' with
  | nil =>
    simp only [allocBlks, Result.pure_eq, Except.ok.injEq, Prod.mk.injEq] at returned
    obtain ⟨_, rfl⟩ := returned
    exact .nil
  | cons b rest ih =>
    simp only [allocBlks, Result.bind_eq_ok, Result.pure_eq, Except.ok.injEq, Prod.mk.injEq,
      Prod.exists] at returned
    obtain ⟨next, b'', first, _, rest', others, rfl, rfl⟩ := returned
    obtain ⟨c, r, b', saved, allocates, saves, rfl, rfl⟩ := allocBlk_eq_ok.mp first
    have beforeB := before b List.mem_cons_self
    obtain ⟨collected, assigned⟩ := allocates.rulesIn rules beforeB
    have allocated := doRewrites_allocated assigned beforeB allocates.rewritten
    refine .cons ?_ (ih ⟨collected.hints, assigned⟩
      (fun d member => before d (List.mem_cons_of_mem _ member)) others)
    rw [saveCalls_keeps saves]
    exact ⟨⟨⟨allocated.id, allocated.btype, allocated.s1, allocated.s2⟩, allocated.params,
      allocated.args1, allocated.args2⟩, allocated.inRegs,
      ⟨allocated.compares.first, allocated.compares.second⟩, allocated.toLabel⟩

end Regalloc

/-- What `output` is given: edges with matching numbers of arguments and parameters, all
of them registers of `tr_map`, and conditional blocks that compare such registers. -/
structure Allocated (m : Fn) : Prop extends ArgsMatch m where
  inRegs : ∀ b ∈ m.blks, (∀ p ∈ b.params, p.Allocable) ∧ (∀ a ∈ b.args1, a.Allocable) ∧
    ∀ a ∈ b.args2, a.Allocable
  compares : ∀ b ∈ m.blks, b.Compares Val.Allocable

/-- What is printed has been allocated. -/
theorem Optimizes.isAllocated {f g h k m : Fn} (optimizes : Optimizes f g h k m)
    (built : Frontend.ParserBuilt f) : Allocated m := by
  obtain ⟨argsMatch, before⟩ := optimizes.beforeAlloc built
  have returned := optimizes.allocated
  simp only [regalloc, Result.bind_eq_ok, Result.pure_eq, Except.ok.injEq, Prod.exists]
    at returned
  obtain ⟨a, blks, allocated, rfl⟩ := returned
  have each := Regalloc.allocBlks_allocated ⟨.nil, .nil⟩ before allocated
  have related {b : Blk} (member : b ∈ blks) : ∃ b₀, Regalloc.AllocatedBlk b₀ b := by
    obtain ⟨b₀, _, same⟩ := Lists.mem_of_forall₂ each member
    exact ⟨b₀, same⟩
  exact {
    toArgsMatch := argsMatch.congr (each.imp fun _ _ same => same.toSameEdges)
    inRegs := fun b member => (related member).choose_spec.inRegs
    compares := fun b member => (related member).choose_spec.compares }

end Qbt
