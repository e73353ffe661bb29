import Qbt.Regalloc.Around
import Qbt.Regalloc.Blocks

/-!
# The counters of the frame

`regalloc` counts, over all blocks, how many callee-saved registers it hands out and how many
slots the calls need, and it notes whether there is a call. The prologue saves what these
counters say, so they must cover every register that is written, every slot and every call.
-/

namespace Qbt

/-- What a block needs of the frame is within the counters. -/
structure Blk.FitsFrame (b : Blk) (maxCalleeSave maxCallSave : Nat) (hasCalls : Bool) : Prop where
  params : ∀ p ∈ b.params, Regalloc.highestSreg p ≤ maxCalleeSave
  outs : ∀ n ∈ b.insns, Regalloc.highestSreg n.out ≤ maxCalleeSave
  saves : ∀ n ∈ b.insns, n.type.savesReg → Regalloc.calleeSave n.in0 = false ∧ n.in0.Allocable ∧
    ∃ slot < maxCallSave, n.in1 = .imm (slot : Nat) .i27
  calls : ∀ n ∈ b.insns, n.type = .call → hasCalls

namespace Regalloc

/-- No rule is for a callee-saved register beyond a bound. -/
def Counted (rmap : List Val) (bound : Nat) : Prop := ∀ t, highestSreg (ruleOf rmap t) ≤ bound

theorem Counted.nil (bound : Nat) : Counted [] bound := fun _ => Nat.zero_le _

theorem Counted.mono {rmap : List Val} {bound more : Nat} (counted : Counted rmap bound)
    (le : bound ≤ more) : Counted rmap more := fun t => Nat.le_trans (counted t) le

/-- A register within the bound may get a rule. -/
theorem Counted.add {rmap rmap' : List Val} {bound : Nat} {v r : Val} (counted : Counted rmap bound)
    (inside : highestSreg r ≤ bound) (added : addRewriteRule rmap v r = .ok rmap') :
    Counted rmap' bound := by
  intro t
  rw [ruleOf_addRewriteRule added]
  split
  · exact inside
  · exact counted t

/-- Argument registers are not saved by the callee. -/
theorem highestSreg_of_argOnly {v : Val} (argOnly : v.ArgOnly) : highestSreg v = 0 := by
  cases v with
  | reg r =>
    have disjoint : ∀ r ∈ arMap, r ∉ rsMap := by decide
    exact if_neg (disjoint r (argOnly r rfl))
  | _ => rfl

section Collect

variable {c c' : Collected} {bound : Nat}

/-- Hints are for argument registers. -/
theorem collectHints_counted {n : Insn} (hints : Counted c.hints 0) (rmap : Counted c.rmap bound)
    (argOnly : n.ArgOnly) (collected : collectHints c n = .ok c') :
    Counted c'.hints 0 ∧ Counted c'.rmap bound := by
  have none {v : Val} (only : v.ArgOnly) : highestSreg v ≤ 0 :=
    Nat.le_of_eq (highestSreg_of_argOnly only)
  unfold collectHints at collected
  split at collected <;>
    simp only [Result.bind_eq_ok, Result.pure_eq, Except.ok.injEq] at collected
  · obtain ⟨_, hinted, _, ruled, rfl⟩ := collected
    exact ⟨hints.add (none argOnly.in0) hinted,
      rmap.add (Nat.le_trans (none argOnly.in0) (Nat.zero_le _)) ruled⟩
  · obtain ⟨_, hinted, rfl⟩ := collected
    exact ⟨hints.add (none argOnly.out) hinted, rmap⟩
  · rw [← collected]
    exact ⟨hints, rmap⟩

private theorem collectInsns_counted {insns : List Insn} {pos : Nat} (hints : Counted c.hints 0)
    (rmap : Counted c.rmap bound) (argOnly : ∀ n ∈ insns, n.ArgOnly)
    (collected : collectInsns c insns pos = .ok c') :
    Counted c'.hints 0 ∧ Counted c'.rmap bound := by
  induction insns generalizing c pos with
  | nil =>
    cases collected
    exact ⟨hints, rmap⟩
  | cons n rest ih =>
    rw [List.forall_mem_cons] at argOnly
    simp only [collectInsns, Result.bind_eq_ok] at collected
    obtain ⟨next, first, others⟩ := collected
    simp only [collectInsn, Result.bind_eq_ok, Result.pure_eq, Except.ok.injEq] at first
    obtain ⟨first, _, second, _, hinted, collectedHints, rfl⟩ := first
    have counted : Counted hinted.hints 0 ∧ Counted hinted.rmap bound :=
      collectHints_counted (c := { c with lifetimes := defTmp second n.out pos }) hints rmap
        argOnly.1 collectedHints
    refine ih ?_ ?_ argOnly.2 others
    · exact counted.1
    · exact counted.2

private theorem collectLifetimes_counted {b : Blk} {hints rmap : List Val}
    (hintsC : Counted hints 0) (rmapC : Counted rmap bound) (argOnly : ∀ n ∈ b.insns, n.ArgOnly)
    (collected : collectLifetimes b hints rmap = .ok c) :
    Counted c.hints 0 ∧ Counted c.rmap bound := by
  simp only [collectLifetimes, Result.bind_eq_ok, Result.pure_eq, Except.ok.injEq] at collected
  obtain ⟨next, insns, _, _, _, _, _, _, _, _, rfl⟩ := collected
  have counted := collectInsns_counted (c := { hints, lifetimes := _, rmap, calls := [] }) hintsC
    rmapC argOnly insns
  exact counted

end Collect

/-- `build_rmap` counts the registers it hands out. -/
theorem assignFrom_counted {hints : List Val} {lifetimes rest : List Lifetime} {a a' : Assignment}
    {bound i : Nat} (hintsC : Counted hints 0)
    (counted : Counted a.rmap (max bound a.maxCalleeSave))
    (assigned : assignFrom hints lifetimes a i rest = .ok a') :
    Counted a'.rmap (max bound a'.maxCalleeSave) := by
  induction rest generalizing a i with
  | nil =>
    cases assigned
    exact counted
  | cons l rest ih =>
    simp only [assignFrom, Result.bind_eq_ok] at assigned
    obtain ⟨next, first, others⟩ := assigned
    refine ih ?_ others
    obtain ⟨rfl, _⟩ | ⟨_, _, chosen⟩ := assignOne_eq_ok first
    · exact counted
    · simp only [chooseReg, Result.bind_eq_ok] at chosen
      obtain ⟨_, _, chosen⟩ := chosen
      split at chosen <;>
        simp only [Result.bind_eq_ok, Result.pure_eq, Except.ok.injEq] at chosen
      · obtain ⟨rmap, added, rfl⟩ := chosen
        have hinted : highestSreg (getHint hints l.v) ≤ 0 := hintsC l.v.num
        exact counted.add (Nat.le_trans hinted (Nat.zero_le _)) added
      · obtain ⟨r, _, rmap, added, rfl⟩ := chosen
        have raised : Counted a.rmap (max bound (max a.maxCalleeSave (highestSreg r))) :=
          counted.mono (by omega)
        exact raised.add (by omega) added

/-- The rules of the function so far are covered by its counters. -/
structure Allocation.Covered (a : Allocation) : Prop extends a.RulesIn where
  hintsCounted : Counted a.hints 0
  rmapCounted : Counted a.rmap a.maxCalleeSave

private theorem callPositions_ne_nil {insns : List Insn} {n : Insn} (member : n ∈ insns)
    (type : n.type = .call) (pos : Nat) : callPositions insns pos ≠ [] := by
  obtain ⟨front, behind, rfl⟩ := List.mem_iff_append.mp member
  rw [callPositions_append, callPositions, if_pos type]
  simp

section Blocks

variable {before after : Allocation} {b b' : Blk}

private theorem allocBlk_covered (input : BeforeAlloc b) (covered : before.Covered)
    (returned : allocBlk before b = .ok (after, b')) : after.Covered := by
  have rulesIn := allocBlk_rulesIn input covered.toRulesIn returned
  obtain ⟨c, r, _, _, allocates, _, _, rfl⟩ := allocBlk_eq_ok.mp returned
  obtain ⟨hints, rmap⟩ := collectLifetimes_counted covered.hintsCounted covered.rmapCounted
    input.insns allocates.collected
  exact ⟨rulesIn, hints, assignFrom_counted hints (rmap.mono (Nat.le_max_left _ _))
    allocates.assigned⟩

private theorem highestSreg_rewriteUse {rmap : List Val} {bound : Nat} {v v' : Val}
    (counted : Counted rmap bound) (argOnly : v.ArgOnly) (rewritten : rewriteUse rmap v = .ok v') :
    highestSreg v' ≤ bound := by
  unfold rewriteUse at rewritten
  split at rewritten
  · obtain ⟨t, _, rfl, _⟩ := rewriteTmp_eq_ok.mp rewritten
    exact counted t
  · cases rewritten
    rw [highestSreg_of_argOnly argOnly]
    exact Nat.zero_le _

/-- A block fits the counters it leaves behind. -/
theorem allocBlk_fitsFrame (input : BeforeAlloc b) (covered : before.Covered)
    (returned : allocBlk before b = .ok (after, b')) :
    b'.FitsFrame after.maxCalleeSave after.maxCallSave after.hasCalls := by
  have covered' := allocBlk_covered input covered returned
  have insnOf := allocBlk_insnOf returned
  obtain ⟨c, r, d, saved, allocates, saves, rfl, rfl⟩ := allocBlk_eq_ok.mp returned
  constructor
  · intro p' member
    have keeps := saveCalls_keeps saves
    have rewritten := allocates.rewritten
    simp only [doRewrites, Result.bind_eq_ok, Result.pure_eq, Except.ok.injEq] at rewritten
    obtain ⟨params, mapped, _, _, _, _, _, _, _, _, _, _, rfl⟩ := rewritten
    rw [keeps] at member
    obtain ⟨p, _, rewrote⟩ := Lists.mem_of_forall₂ (Result.mapM_eq_ok.mp mapped) member
    obtain ⟨t, _, rfl, _⟩ := rewriteTmp_eq_ok.mp rewrote
    exact covered'.rmapCounted t
  · intro n member
    cases insnOf n member with
    | rewritten old rewrote =>
      simp only [rewriteInsn, Result.bind_eq_ok, Result.pure_eq, Except.ok.injEq] at rewrote
      obtain ⟨_, _, _, _, out, rewroteOut, rfl⟩ := rewrote
      exact highestSreg_rewriteUse covered'.rmapCounted (input.insns _ old).out rewroteOut
    | inserted inserted => cases inserted <;> exact Nat.zero_le _
  · intro n member saving
    cases insnOf n member with
    | rewritten old rewrote =>
      rw [(rewriteInsn_same rewrote).1, (input.insns _ old).type] at saving
      cases saving
    | inserted inserted =>
      cases inserted with
      | @save _ slot saved inside | @restore _ slot saved inside =>
        obtain ⟨_, caller, _, rewritten⟩ := saved
        exact ⟨caller, covered'.rmap.rewriteTmp rewritten, slot, inside, rfl⟩
  · intro n member type
    cases insnOf n member with
    | rewritten old rewrote =>
      have found := callPositions_ne_nil old (by rw [← (rewriteInsn_same rewrote).1, type]) 1
      rw [← collectLifetimes_calls allocates.collected] at found
      simp [found]
    | inserted inserted => cases inserted <;> cases type

end Blocks

end Regalloc

/-- What fits the frame fits a larger one. -/
theorem Blk.FitsFrame.mono {before after : Regalloc.Allocation} {b : Blk}
    (fits : b.FitsFrame before.maxCalleeSave before.maxCallSave before.hasCalls)
    (le : before.Le after) : b.FitsFrame after.maxCalleeSave after.maxCallSave after.hasCalls where
  params p member := Nat.le_trans (fits.params p member) le.maxCalleeSave
  outs n member := Nat.le_trans (fits.outs n member) le.maxCalleeSave
  saves n member saving := by
    obtain ⟨caller, allocable, slot, inside, same⟩ := fits.saves n member saving
    exact ⟨caller, allocable, slot, Nat.lt_of_lt_of_le inside le.maxCallSave, same⟩
  calls n member type := le.hasCalls (fits.calls n member type)

/-- The counters `regalloc` leaves behind cover all blocks. -/
theorem Optimizes.fitsFrame {f g h k m : Fn} (optimizes : Optimizes f g h k m)
    (built : Frontend.ParserBuilt f) :
    ∀ b ∈ m.blks, b.FitsFrame m.maxCalleeSave m.maxCallSave m.hasCalls := by
  obtain ⟨_, beforeAlloc⟩ := optimizes.beforeAlloc built
  have returned := optimizes.allocated
  simp only [regalloc, Result.bind_eq_ok, Result.pure_eq, Except.ok.injEq, Prod.exists]
    at returned
  obtain ⟨a, blks, allocated, rfl⟩ := returned
  have start : (Regalloc.Allocation.start k).Covered :=
    ⟨⟨.nil, .nil⟩, .nil _, .nil _⟩
  obtain ⟨_, _, steps⟩ := Regalloc.allocBlks_steps
    (fun b listed before after b' covered stepped =>
      Regalloc.allocBlk_covered (beforeAlloc b listed) covered stepped) start allocated
  intro b' member
  obtain ⟨b, listed, before, after, step⟩ := Lists.mem_of_forall₂ steps member
  exact (Regalloc.allocBlk_fitsFrame (beforeAlloc b listed) step.holds step.returned).mono step.le

end Qbt
