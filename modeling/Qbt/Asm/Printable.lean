import Qbt.Asm.Selection
import Qbt.Regalloc.Frame
import Qbt.Regalloc.Sections

/-!
# What is known of a block that is printed

Stores and deallocations have no output, as long as `correct` inserts no stores, and a jump without
a label goes to the block behind it.
-/

namespace Qbt

open Regalloc

/-- Nothing is computed by a store, a deallocation and a call. -/
def Insn.Silent (n : Insn) : Prop :=
  n.type = .store ∨ n.type = .dealloc ∨ n.type = .call → n.out = .noclass

private theorem Insn.silent_other {n : Insn}
    (other : n.type ≠ .store ∧ n.type ≠ .dealloc ∧ n.type ≠ .call) : n.Silent := by
  rintro (store | dealloc | call)
  · exact absurd store other.1
  · exact absurd dealloc other.2.1
  · exact absurd call other.2.2

/-- What is printed relies on stores without an output, and on jumps without a label that go to the
block behind. -/
structure Blk.Tidy (b : Blk) : Prop where
  silent : ∀ n ∈ b.insns, n.Silent
  falls : b.btype = .j → b.toLabel = none → b.s1 = b.s2

namespace Frontend

private theorem plain_silent {ν : String → Nat} (s : Plain) : (s.insn ν).Silent := by
  cases s with
  | binary op type dst left right =>
    refine Insn.silent_other ?_
    cases op <;> simp [Plain.insn, insnCreate, BinOp.insn]
  | unary op type dst operand =>
    refine Insn.silent_other ?_
    cases op <;> simp [Plain.insn, insnCreate, UnOp.insn]
  | store => exact fun _ => rfl
  | dealloc => exact fun _ => rfl
  | _ => exact Insn.silent_other (by simp [Plain.insn, insnCreate])

private theorem stmt_silent {ν : String → Nat} (s : Stmt) : ∀ n ∈ s.insns ν, n.Silent := by
  cases s with
  | plain s => exact List.forall_mem_singleton.mpr (plain_silent s)
  | call target args rets =>
    intro n inside
    simp only [Stmt.insns, List.mem_append, List.mem_mapIdx, List.mem_cons] at inside
    rcases inside with ⟨k, _, rfl⟩ | rfl | ⟨k, _, rfl⟩
    · exact Insn.silent_other (by simp [argInsn, insnCreate])
    · exact fun _ => rfl
    · exact Insn.silent_other (by simp [retvalInsn, insnCreate])
  | leave args =>
    intro n inside
    obtain ⟨k, _, rfl⟩ := List.mem_mapIdx.mp inside
    exact Insn.silent_other (by simp [retargInsn, insnCreate])
  | _ => simp [Stmt.insns]

/-- A chunk holds no instruction of the later passes. -/
theorem Chunk.silent {ν : String → Nat} (c : Chunk) : ∀ n ∈ c.insns ν, n.Silent := by
  intro n member
  simp only [Chunk.insns, List.mem_append, List.mem_mapIdx, List.mem_map,
    List.mem_flatMap] at member
  obtain (⟨k, _, rfl⟩ | ⟨s, _, rfl⟩) | ⟨s, _, inside⟩ := member
  · exact Insn.silent_other (by simp [paramInsn, insnCreate])
  · exact plain_silent s
  · exact stmt_silent s n inside

/-- Blocks of a parsed function are tidy. -/
theorem Built.tidy {source : Function} {chunks : List Chunk} {f : Fn}
    (built : Built source chunks f) : ∀ b ∈ f.blks, b.Tidy := by
  intro b member
  obtain ⟨i, found⟩ := List.mem_iff_getElem?.mp member
  obtain ⟨c, foundChunk⟩ := built.chunk_of found
  have numbers := numbers_numbering f.tmps
  have block := built.blks _ numbers i c b foundChunk found
  constructor
  · rw [built.insns_of found |>.choose_spec.2]
    exact Chunk.silent _
  · rw [block]
    dsimp only
    unfold Chunk.blk Chunk.exitBlk
    cases exit : c.exit (numbering f.tmps) <;> simp [Exit.target]

end Frontend

namespace Correct

private theorem silent_spilled {i : Insn} (silent : i.Silent) {idx : Fin 2} {new : Insn} {t : Nat}
    (other : new.type ≠ .store ∧ new.type ≠ .dealloc ∧ new.type ≠ .call) :
    ∀ n ∈ [new, i.setInput idx (.tmp t)], n.Silent := by
  refine List.forall_mem_cons.mpr ⟨Insn.silent_other other, List.forall_mem_singleton.mpr ?_⟩
  match idx with
  | 0 => exact silent
  | 1 => exact silent

/-- A visit of an instruction keeps outputs. -/
private theorem outcome_silent {p p' : Pass} {ii : Nat} {i : Insn} {before after : List Insn}
    (position : At ii p before (i :: after)) (outcome : Outcome p ii i p')
    (silent : ∀ n ∈ p.b.insns, n.Silent) : ∀ n ∈ p'.b.insns, n.Silent := by
  have parts := silent
  rw [position.split, List.forall_mem_append, List.forall_mem_cons] at parts
  obtain ⟨front, here, behind⟩ := parts
  have spilled {idx : Fin 2} {new : Insn}
      (other : new.type ≠ .store ∧ new.type ≠ .dealloc ∧ new.type ≠ .call)
      (inserted : insertBefore p ii i idx new = .ok p') : ∀ n ∈ p'.b.insns, n.Silent := by
    rw [(insertBefore_split position.split position.length inserted).1, List.forall_mem_append,
      List.forall_mem_append]
    exact ⟨⟨front, silent_spilled here other⟩, behind⟩
  cases outcome with
  | same => exact silent
  | addressed _ _ _ => exact silent
  | spilledRef _ _ _ inserted => exact spilled (by simp [insnCreate]) inserted
  | spilledImm _ _ _ inserted => exact spilled (by simp [insnCreate]) inserted
  | swapped _ _ stored =>
    rw [swapped_eq position stored, List.forall_mem_append, List.forall_mem_cons]
    exact ⟨front, here, behind⟩

private theorem correctBlk_tidy {p p' : Pass} {fuel : Nat} (rules : p.rules = [])
    (noAddr : ∀ n ∈ p.b.insns, n.type ≠ .addr) (corrected : correctBlk fuel p = .ok p')
    (tidy : p.b.Tidy) : p'.rules = [] ∧ p'.b.Tidy := by
  have rewritten := correctBlk_rewritten corrected
  simp only [correctBlk, Result.bind_eq_ok, Result.pure_eq, Except.ok.injEq] at corrected
  obtain ⟨q, first, rfl⟩ := corrected
  have start : At 0 p [] p.b.insns := ⟨rfl, rfl, noAddr⟩
  obtain ⟨noRules, kept⟩ := correctInsns_induct
    (fun p p' => (∀ n ∈ p.b.insns, n.Silent) → ∀ n ∈ p'.b.insns, n.Silent)
    (fun _ silent => silent) (fun first second silent => second (first silent))
    (fun position outcome silent => outcome_silent position outcome silent) rules start first
  have copies {b : Blk} {t : Nat} {v : Val} (silent : ∀ n ∈ b.insns, n.Silent) :
      ∀ n ∈ (copied b t v).insns, n.Silent :=
    List.forall_mem_append.mpr ⟨silent,
      List.forall_mem_singleton.mpr (Insn.silent_other (by simp [insnCreate]))⟩
  have cmp0 : (correctCmp0 q).rules = q.rules ∧ ∀ n ∈ (correctCmp0 q).b.insns, n.Silent := by
    unfold correctCmp0
    split
    · exact ⟨rfl, copies (kept tidy.silent)⟩
    · exact ⟨rfl, kept tidy.silent⟩
  have cmp1 : (correctCmp1 (correctCmp0 q)).rules = q.rules ∧
      ∀ n ∈ (correctCmp1 (correctCmp0 q)).b.insns, n.Silent := by
    unfold correctCmp1
    split
    · exact ⟨cmp0.1, copies cmp0.2⟩
    · exact cmp0
  refine ⟨cmp1.1.trans noRules, cmp1.2, ?_⟩
  rw [rewritten.eq]
  exact tidy.falls

private theorem correctBlks_tidy {fuel ri ri' : Nat} {blks blks' : List Blk}
    (noAddr : ∀ b ∈ blks, ∀ n ∈ b.insns, n.type ≠ .addr) (tidy : ∀ b ∈ blks, b.Tidy)
    (corrected : correctBlks fuel blks [] ri = .ok (blks', ri')) : ∀ b ∈ blks', b.Tidy := by
  induction blks generalizing ri blks' with
  | nil =>
    obtain ⟨rfl, rfl⟩ := correctBlks_nil corrected
    exact tidy
  | cons b rest ih =>
    rw [List.forall_mem_cons] at noAddr tidy
    obtain ⟨p, rest', first, others, rfl⟩ := correctBlks_cons corrected
    obtain ⟨rules, tidyB⟩ := correctBlk_tidy rfl noAddr.1 first tidy.1
    rw [rules] at others
    exact List.forall_mem_cons.mpr ⟨tidyB, ih noAddr.2 tidy.2 others⟩

end Correct

/-- Where no address is taken, stores are those of the text. -/
theorem Corrected.tidy {f g : Fn} (corrected : Corrected f g)
    (noAddr : ∀ b ∈ f.blks, ∀ i ∈ b.insns, i.type ≠ .addr) (tidy : ∀ b ∈ f.blks, b.Tidy) :
    ∀ b ∈ g.blks, b.Tidy := by
  obtain ⟨fuel, h, ri, returned, rfl⟩ := corrected
  simp only [correct, Result.bind_eq_ok, Result.pure_eq, Except.ok.injEq, Prod.mk.injEq,
    Prod.exists] at returned
  obtain ⟨blks, ri', passed, rfl, rfl⟩ := returned
  exact Correct.correctBlks_tidy noAddr tidy passed

/-- Renaming keeps a block tidy. -/
theorem Ssa.RenamedTo.tidy {b b' : Blk} (renamed : Ssa.RenamedTo b b') (tidy : b.Tidy) :
    b'.Tidy := by
  constructor
  · intro n' inside
    obtain ⟨n, old, _, _, renames⟩ := renamed.insns inside
    obtain ⟨_, _, _, _, out, defined, rfl⟩ := Ssa.renameInsn_eq_ok.mp renames
    exact fun type => (Abi.renameOut_class defined).noclass_iff.mpr (tidy.silent n old type)
  · obtain ⟨i, i', renamed⟩ := renamed
    obtain ⟨_, _, _, _, _, _, _, _, _, _, _, _, _, _, rfl, _⟩ := Ssa.renameTemps_eq_ok.mp renamed
    exact tidy.falls

/-- The conversion keeps blocks tidy. -/
theorem Ssa.ssa_tidy {g h : Fn} {count : Nat} (raw : Raw g) (tidy : ∀ b ∈ g.blks, b.Tidy)
    (converted : ssa g = .ok (h, count)) : ∀ b ∈ h.blks, b.Tidy := by
  intro b member
  obtain ⟨_, d, listed, renamed⟩ := Ssa.ssa_origin raw converted member
  exact renamed.tidy ⟨(tidy d listed).silent, (tidy d listed).falls⟩

private theorem Abi.tidy_of_rewritten {b b' : Blk} (rewritten : rewriteBlk b = .ok b')
    (tidy : b.Tidy) : b'.Tidy := by
  obtain ⟨insns, replaced, rfl⟩ := Abi.rewriteBlk_eq_ok.mp rewritten
  refine ⟨fun n' inside => ?_, tidy.falls⟩
  obtain ⟨n, old, rewrote⟩ := Lists.mem_of_forall₂ replaced inside
  have created (kind : n'.type = .move ∨ n'.type = .copy) : n'.Silent :=
    Insn.silent_other (by rcases kind with type | type <;> simp [type])
  have passes {m : Insn} (passed : passIn n = .ok m) : m.type = .move ∨ m.type = .copy := by
    simp only [passIn, Result.bind_eq_ok] at passed
    obtain ⟨_, _, r, _, passed⟩ := passed
    cases in0 : n.in0 <;> rw [in0] at passed <;> cases passed <;> simp [insnCreate]
  unfold rewriteInsn at rewrote
  split at rewrote
  · simp only [rewriteParam, Result.bind_eq_ok, Result.pure_eq, Except.ok.injEq] at rewrote
    obtain ⟨_, _, _, _, rfl⟩ := rewrote
    exact created (Or.inl rfl)
  · simp only [rewriteRetval, Result.bind_eq_ok, Result.pure_eq, Except.ok.injEq] at rewrote
    obtain ⟨_, _, _, _, rfl⟩ := rewrote
    exact created (Or.inl rfl)
  · simp only [rewriteArg, Result.bind_eq_ok, Result.pure_eq, Except.ok.injEq] at rewrote
    obtain ⟨m, passed, rfl⟩ := rewrote
    have kind := passes passed
    exact created kind
  · exact created (passes rewrote)
  · cases rewrote
    exact tidy.silent n old
  · cases rewrote
    exact tidy.silent _ old

namespace Regalloc

variable {rmap : List Val} {bound : Nat} {b : Blk}

/-- An allocated instruction is silent where its origin is. -/
theorem InsnOf.silent (tidy : b.Tidy) {n : Insn} (insnOf : InsnOf rmap bound b n) : n.Silent := by
  cases insnOf with
  | rewritten old rewritten =>
    simp only [rewriteInsn, Result.bind_eq_ok, Result.pure_eq, Except.ok.injEq] at rewritten
    obtain ⟨in0, _, in1, _, out, rewrote, rfl⟩ := rewritten
    intro kind
    rw [tidy.silent _ old kind] at rewrote
    exact (Except.ok.inj rewrote).symm
  | inserted inserted =>
    refine Insn.silent_other ?_
    cases inserted <;> simp [saveInsn, restoreInsn, insnCreate]

/-- A second input that is a register can be allocated. -/
theorem InsnOf.in1_allocable (rules : RulesIn rmap) (before : BeforeAlloc b) {n : Insn}
    (insnOf : InsnOf rmap bound b n) (isReg : n.in1.isReg) : n.in1.Allocable := by
  cases insnOf with
  | @rewritten n₀ member rewritten =>
    simp only [rewriteInsn, Result.bind_eq_ok, Result.pure_eq, Except.ok.injEq] at rewritten
    obtain ⟨in0, _, in1, second, out, _, rfl⟩ := rewritten
    rcases rewriteUse_allocable rules second with ⟨-, allocable⟩ | ⟨-, same⟩
    · exact allocable
    · have argOnly := (before.insns n₀ member).in1
      rw [← same] at argOnly
      cases in1 with
      | reg r => exact ⟨r, arMap_subset (argOnly r rfl), rfl⟩
      | _ => cases isReg
  | inserted inserted => cases inserted <;> cases isReg

end Regalloc

namespace Asm

/-- What is known of an instruction that is printed. -/
structure Printable (m : Fn) (n : Insn) : Prop where
  prepared : Prepared n
  in1 : n.in1.isReg → n.in1.Allocable
  assumed : Assumed n
  covered : highestSreg n.out ≤ m.maxCalleeSave
  silent : n.Silent
  saves : n.type.savesReg → calleeSave n.in0 = false ∧ n.in0.Allocable ∧
    ∃ slot < m.maxCallSave, n.in1 = .imm (slot : Nat) .i27
  calls : n.type = .call → m.hasCalls

end Asm

section Optimizes

variable {f g h k m : Fn} (built : Frontend.ParserBuilt f)
  (noAddr : ∀ b ∈ f.blks, ∀ i ∈ b.insns, i.type ≠ .addr) (optimizes : Optimizes f g h k m)

include built noAddr optimizes

/-- Blocks are still tidy when they are printed. -/
theorem Optimizes.tidy : ∀ b ∈ m.blks, b.Tidy := by
  obtain ⟨_, source, parsed⟩ := built
  obtain ⟨chunks, built'⟩ := Frontend.buildFunction_built parsed
  obtain ⟨count, converted⟩ := optimizes.converted
  have corrected := optimizes.corrected.tidy noAddr built'.tidy
  have merged : ∀ b ∈ k.blks, b.Tidy := by
    intro b' member
    obtain ⟨b, listed, rewritten⟩ :=
      Lists.mem_of_forall₂ (Abi.abi0_rewritten optimizes.merged) member
    exact Abi.tidy_of_rewritten rewritten (Ssa.ssa_tidy (optimizes.corrected.raw built'.raw)
      corrected converted b listed)
  intro b' member
  constructor
  · intro n inside
    obtain ⟨b, listed, rmap, -, insnOf⟩ := optimizes.insnOf ⟨_, source, parsed⟩ member
    exact (insnOf n inside).silent (merged b listed)
  · have allocated := optimizes.allocated
    simp only [regalloc, Result.bind_eq_ok, Result.pure_eq, Except.ok.injEq, Prod.exists]
      at allocated
    obtain ⟨a, blks, allocated, rfl⟩ := allocated
    have each := allocBlks_allocated ⟨.nil, .nil⟩
      (optimizes.beforeAlloc ⟨_, source, parsed⟩).2 allocated
    obtain ⟨b, listed, same⟩ := Lists.mem_of_forall₂ each member
    rw [same.btype, same.toLabel, same.s1, same.s2]
    exact (merged b listed).falls

/-- Where the assumptions of the printers hold, everything is known of an instruction. -/
theorem Optimizes.printable {b : Blk} (member : b ∈ m.blks) {n : Insn} (inside : n ∈ b.insns)
    (assumed : Asm.Assumed n) : Asm.Printable m n := by
  obtain ⟨d, listed, rmap, rules, insnOf⟩ := optimizes.insnOf built member
  have fits := optimizes.fitsFrame built b member
  exact {
    prepared := optimizes.prepared built b member n inside
    in1 := (insnOf n inside).in1_allocable rules ((optimizes.beforeAlloc built).2 d listed)
    assumed
    covered := fits.outs n inside
    silent := (optimizes.tidy built noAddr b member).silent n inside
    saves := fits.saves n inside
    calls := fits.calls n inside }

end Optimizes

end Qbt
