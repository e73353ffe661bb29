import Qbt.Regalloc.Saves
import Qbt.Regalloc.Shape

/-!
# What register allocation does to each block

The loop of `regalloc` goes on with the rules of the blocks before, and only raises the
counters of the frame. So every block it leaves is one it was given, rewritten by the rules in
force, with registers saved in slots below the final counter.
-/

namespace Qbt

namespace Regalloc

/-- The counters of the frame do not fall. -/
structure Allocation.Le (a a' : Allocation) : Prop where
  hasCalls : a.hasCalls → a'.hasCalls
  maxCalleeSave : a.maxCalleeSave ≤ a'.maxCalleeSave
  maxCallSave : a.maxCallSave ≤ a'.maxCallSave

theorem Allocation.Le.refl (a : Allocation) : a.Le a := ⟨id, Nat.le_refl _, Nat.le_refl _⟩

theorem Allocation.Le.trans {a b c : Allocation} (first : a.Le b) (second : b.Le c) : a.Le c :=
  ⟨second.hasCalls ∘ first.hasCalls, Nat.le_trans first.maxCalleeSave second.maxCalleeSave,
    Nat.le_trans first.maxCallSave second.maxCallSave⟩

private theorem allocBlk_le {a a' : Allocation} {b b' : Blk}
    (returned : allocBlk a b = .ok (a', b')) : a.Le a' := by
  obtain ⟨c, r, _, saved, _, _, _, rfl⟩ := allocBlk_eq_ok.mp returned
  exact ⟨fun calls => by simp [calls], Nat.le_max_left _ _, Nat.le_max_left _ _⟩

/-- The loop body takes the state `before` and the block `b` to `after` and `b'`, in a run that
ends in the state `last`. -/
structure Step (P : Allocation → Prop) (last : Allocation) (b b' : Blk)
    (before after : Allocation) :
    Prop where
  holds : P before
  returned : allocBlk before b = .ok (after, b')
  le : after.Le last

/-- An invariant of the loop holds at its end and in front of every block. -/
theorem allocBlks_steps {P : Allocation → Prop} {a a' : Allocation} {blks blks' : List Blk}
    (keeps : ∀ b ∈ blks, ∀ before after b', P before → allocBlk before b = .ok (after, b') →
      P after)
    (start : P a) (returned : allocBlks a blks = .ok (a', blks')) :
    P a' ∧ a.Le a' ∧
      List.Forall₂ (fun b b' => ∃ before after, Step P a' b b' before after) blks blks' := by
  induction blks generalizing a blks' with
  | nil =>
    simp only [allocBlks, Result.pure_eq, Except.ok.injEq, Prod.mk.injEq] at returned
    obtain ⟨rfl, rfl⟩ := returned
    exact ⟨start, .refl a, .nil⟩
  | cons b rest ih =>
    rw [List.forall_mem_cons] at keeps
    simp only [allocBlks, Result.bind_eq_ok, Result.pure_eq, Except.ok.injEq, Prod.mk.injEq,
      Prod.exists] at returned
    obtain ⟨next, b', first, _, rest', others, rfl, rfl⟩ := returned
    obtain ⟨holds, le, steps⟩ := ih keeps.2 (keeps.1 a next b' start first) others
    exact ⟨holds, (allocBlk_le first).trans le, .cons ⟨a, next, start, first, le⟩ steps⟩

/-- The rules stay within `tr_map`. -/
theorem allocBlk_rulesIn {a a' : Allocation} {b b' : Blk} (before : BeforeAlloc b)
    (rules : a.RulesIn) (returned : allocBlk a b = .ok (a', b')) : a'.RulesIn := by
  obtain ⟨c, r, _, _, allocates, _, _, rfl⟩ := allocBlk_eq_ok.mp returned
  obtain ⟨collected, assigned⟩ := allocates.rulesIn rules before
  exact ⟨collected.hints, assigned⟩

/-- An instruction behind register allocation: it is one of the block `b` with its temporaries
replaced, or it saves or restores a register. -/
inductive InsnOf (rmap : List Val) (bound : Nat) (b : Blk) (n : Insn) : Prop where
  | rewritten {n₀ : Insn} (member : n₀ ∈ b.insns) (rewritten : rewriteInsn rmap n₀ = .ok n)
  | inserted (inserted : Inserted rmap bound n)

/-- Every instruction of an allocated block comes from one of the block. -/
theorem allocBlk_insnOf {a a' : Allocation} {b b' : Blk} (returned : allocBlk a b = .ok (a', b')) :
    ∀ n ∈ b'.insns, InsnOf a'.rmap a'.maxCallSave b n := by
  obtain ⟨c, r, d, saved, allocates, saves, rfl, rfl⟩ := allocBlk_eq_ok.mp returned
  intro n member
  rcases doCallSaves_inserted saves n member with old | inserted
  · have rewritten := allocates.rewritten
    simp only [doRewrites, Result.bind_eq_ok, Result.pure_eq, Except.ok.injEq] at rewritten
    obtain ⟨_, _, insns, mapped, _, _, _, _, _, _, _, _, rfl⟩ := rewritten
    obtain ⟨n₀, listed, rewrote⟩ := Lists.mem_of_forall₂ (Result.mapM_eq_ok.mp mapped) old
    exact .rewritten listed rewrote
  · exact .inserted (inserted.mono (Nat.le_max_right _ _))

end Regalloc

/-- Every instruction behind `optimize` comes from one behind `abi0`, by rules within
`tr_map`, or saves or restores a register. -/
theorem Optimizes.insnOf {f g h k m : Fn} (optimizes : Optimizes f g h k m)
    (built : Frontend.ParserBuilt f) {b' : Blk} (member : b' ∈ m.blks) :
    ∃ b ∈ k.blks, ∃ rmap, Regalloc.RulesIn rmap ∧
      ∀ n ∈ b'.insns, Regalloc.InsnOf rmap m.maxCallSave b n := by
  obtain ⟨_, beforeAlloc⟩ := optimizes.beforeAlloc built
  have returned := optimizes.allocated
  simp only [regalloc, Result.bind_eq_ok, Result.pure_eq, Except.ok.injEq, Prod.exists]
    at returned
  obtain ⟨a, blks, allocated, rfl⟩ := returned
  obtain ⟨_, _, steps⟩ := Regalloc.allocBlks_steps
    (fun b listed before after b' rules stepped =>
      Regalloc.allocBlk_rulesIn (beforeAlloc b listed) rules stepped)
    (⟨.nil, .nil⟩ : (Regalloc.Allocation.start k).RulesIn) allocated
  obtain ⟨b, listed, before, after, step⟩ := Lists.mem_of_forall₂ steps member
  refine ⟨b, listed, after.rmap,
    (Regalloc.allocBlk_rulesIn (beforeAlloc b listed) step.holds step.returned).rmap,
    fun n inside => ?_⟩
  cases Regalloc.allocBlk_insnOf step.returned n inside with
  | rewritten old rewrote => exact .rewritten old rewrote
  | inserted inserted => exact .inserted (inserted.mono step.le.maxCallSave)

end Qbt
