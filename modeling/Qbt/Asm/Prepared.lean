import Qbt.Abi.Lists
import Qbt.Regalloc.Blocks

/-!
# The operands of the instructions that are printed

Registers come from the table of `find_free_reg`, and what COPY copies was an immediate or a
temporary behind `correct`.
-/

namespace Qbt

/-- A source that is no reference any more. -/
def Insn.CopiesValue (n : Insn) : Prop := n.type = .copy → n.in0.isTmp ∨ n.in0.isImm

private theorem Insn.copiesValue_other {n : Insn} (other : n.type ≠ .copy) : n.CopiesValue :=
  fun type => absurd type other

/-- A source as the parser inserts it. -/
def Insn.CopiesSource (n : Insn) : Prop :=
  n.type = .copy → n.in0.isTmp ∨ n.in0.isImm ∨ n.in0.isRef

private theorem Insn.copiesSource_other {n : Insn} (other : n.type ≠ .copy) : n.CopiesSource :=
  fun type => absurd type other

namespace Correct

section Visited

variable {v : Visit} {m : Insn} {rest : List Insn} {rules : List Val} {ri : Nat}

private theorem copiesSource_setInput {i : Insn} (source : i.CopiesSource) (idx : Fin 2) (t : Nat) :
    (i.setInput idx (.tmp t)).CopiesSource := by
  match idx with
  | 0 => exact fun _ => Or.inl rfl
  | 1 => exact source

/-- What a visit leaves behind copies no reference. -/
theorem Visited.copiesValue (visited : Visited v (m :: rest) rules ri) (source : v.i.CopiesSource) :
    m.CopiesValue ∧ ∀ n ∈ rest, n.CopiesSource := by
  generalize place : m :: rest = middle at visited
  cases visited with
  | loaded rule first =>
    obtain ⟨rfl, rfl⟩ := List.cons.inj place
    refine ⟨Insn.copiesValue_other (by simp [insnCreate]), fun n member => ?_⟩
    rw [List.mem_singleton.mp member]
    exact copiesSource_setInput source _ _
  | @settled current middle behind _ _ unloaded redirected settled =>
    have stored : ∀ n ∈ behind, n.CopiesSource := by
      cases redirected with
      | kept => simp
      | stored =>
        intro n member
        rw [List.mem_singleton.mp member]
        exact Insn.copiesSource_other (by simp [insnCreate])
    have kept (unspilled : spilled v.i = none) : current.CopiesValue := by
      intro type
      rw [redirected.eq] at type ⊢
      have type : v.i.type = .copy := type
      have noRef := (spilled_eq_none.mp unspilled).1 (by simp [type])
      rcases source type with isTmp | isImm | isRef
      · exact Or.inl isTmp
      · exact Or.inr isImm
      · rw [noRef] at isRef
        cases isRef
    cases settled with
    | kept unspilled =>
      obtain ⟨rfl, rfl⟩ := List.cons.inj place
      exact ⟨kept unspilled, stored⟩
    | addressed unspilled =>
      obtain ⟨rfl, rfl⟩ := List.cons.inj place
      exact ⟨kept unspilled, stored⟩
    | swapped _ commutes =>
      obtain ⟨rfl, rfl⟩ := List.cons.inj place
      refine ⟨Insn.copiesValue_other ?_, stored⟩
      rcases commutes with type | type <;> simp [type]
    | @spilled idx type spills =>
      obtain ⟨rfl, rfl⟩ := List.cons.inj place
      refine ⟨fun copies => ?_, ?_⟩
      · rcases spilled_eq_some spills with ⟨rfl, _⟩ | ⟨rfl, isImm, _⟩
        · cases copies
        · exact Or.inr isImm
      · exact List.forall_mem_cons.mpr ⟨copiesSource_setInput source _ _, stored⟩

private theorem Walk.copiesValue {rules rules' : List Val} {ri ri' : Nat} {todo out : List Insn}
    {vs : List Visit} (walk : Walk rules ri todo vs out rules' ri')
    (sources : ∀ n ∈ todo, n.CopiesSource) : ∀ n ∈ out, n.CopiesValue := by
  induction walk with
  | nil => simp
  | cons visited walk ih =>
    rw [List.forall_mem_cons] at sources
    obtain ⟨first, rest⟩ := visited.copiesValue sources.1
    rw [List.forall_mem_cons]
    exact ⟨first, ih (List.forall_mem_append.mpr ⟨rest, sources.2⟩)⟩

end Visited

/-- Both corrections of the comparison copy its first operand. -/
theorem correctCmps_copies {q : Pass}
    (compared : q.b.cmp1.isImm → q.b.cmp0.isTmp ∨ q.b.cmp0.isImm) :
    ∃ copies, (∀ n ∈ copies, n.CopiesValue) ∧
      (correctCmp1 (correctCmp0 q)).b.insns = q.b.insns ++ copies := by
  by_cases imm1 : q.b.cmp1.isImm <;> by_cases imm0 : q.b.cmp0.isImm
  · refine ⟨[insnCreate .copy .i27 (.tmp q.ri) q.b.cmp0 .noclass 0,
      insnCreate .copy .i27 (.tmp (q.ri + 1)) (.tmp q.ri) .noclass 0], ?_,
      by simp [correctCmp0, correctCmp1, imm0, imm1, insadd]⟩
    simp only [List.mem_cons, List.not_mem_nil, or_false, forall_eq_or_imp, forall_eq]
    exact ⟨fun _ => Or.inr imm0, fun _ => Or.inl rfl⟩
  · refine ⟨[insnCreate .copy .i27 (.tmp q.ri) q.b.cmp0 .noclass 0], ?_,
      by simp [correctCmp0, correctCmp1, imm0, imm1, insadd]⟩
    simp only [List.mem_singleton, forall_eq]
    exact fun _ => compared imm1
  · refine ⟨[insnCreate .copy .i27 (.tmp q.ri) q.b.cmp0 .noclass 0], ?_,
      by simp [correctCmp0, correctCmp1, imm0, imm1, insadd]⟩
    simp only [List.mem_singleton, forall_eq]
    exact fun _ => Or.inr imm0
  · exact ⟨[], by simp, by simp [correctCmp0, correctCmp1, imm0, imm1]⟩

/-- Behind correction no reference is copied. -/
theorem correctBlks_copiesValue {fuel ri ri' : Nat} {blks blks' : List Blk} {rules : List Val}
    (sources : ∀ b ∈ blks, ∀ n ∈ b.insns, n.CopiesSource)
    (compared : ∀ b ∈ blks, b.cmp1.isImm → b.cmp0.isTmp ∨ b.cmp0.isImm)
    (corrected : correctBlks fuel blks rules ri = .ok (blks', ri')) :
    ∀ b ∈ blks', ∀ n ∈ b.insns, n.CopiesValue := by
  induction blks generalizing rules ri blks' with
  | nil =>
    obtain ⟨rfl, rfl⟩ := correctBlks_nil corrected
    simp
  | cons b rest ih =>
    rw [List.forall_mem_cons] at sources compared
    obtain ⟨p, rest', first, others, rfl⟩ := correctBlks_cons corrected
    obtain ⟨q, -, rfl, cmp0, cmp1, walk⟩ := correctBlk_walk first
    obtain ⟨copies, values, insns⟩ := @correctCmps_copies q (by rw [cmp0, cmp1]; exact compared.1)
    rw [List.forall_mem_cons]
    refine ⟨?_, ih sources.2 compared.2 others⟩
    rw [insns, List.forall_mem_append]
    exact ⟨walk.copiesValue sources.1, values⟩

end Correct

namespace Frontend

private theorem plain_copiesSource {ν : String → Nat} (s : Plain) : (s.insn ν).CopiesSource := by
  cases s with
  | binary op type dst left right =>
    apply Insn.copiesSource_other
    cases op <;> simp [Plain.insn, insnCreate, BinOp.insn]
  | unary op type dst operand =>
    apply Insn.copiesSource_other
    cases op <;> simp [Plain.insn, insnCreate, UnOp.insn]
  | immInt type dst n => exact fun _ => Or.inr (Or.inl rfl)
  | immRef type dst symbol => exact fun _ => Or.inr (Or.inr rfl)
  | _ => exact Insn.copiesSource_other (by simp [Plain.insn, insnCreate])

/-- Only the two forms of immediates of the text are copied. -/
theorem Chunk.copiesSource {ν : String → Nat} (c : Chunk) : ∀ n ∈ c.insns ν, n.CopiesSource := by
  intro n member
  by_cases plain : ∃ s : Plain, n = s.insn ν
  · obtain ⟨s, rfl⟩ := plain
    exact plain_copiesSource s
  · apply Insn.copiesSource_other
    simp only [Chunk.insns, List.mem_append, List.mem_mapIdx, List.mem_map,
      List.mem_flatMap] at member
    obtain (⟨k, _, rfl⟩ | ⟨s, _, rfl⟩) | ⟨s, _, inside⟩ := member
    · simp [paramInsn, insnCreate]
    · exact absurd ⟨s, rfl⟩ plain
    · cases s with
      | plain s => exact absurd ⟨s, List.mem_singleton.mp inside⟩ plain
      | call target args rets =>
        simp only [Stmt.insns, List.mem_append, List.mem_mapIdx, List.mem_cons] at inside
        rcases inside with ⟨k, _, rfl⟩ | rfl | ⟨k, _, rfl⟩ <;>
          simp [argInsn, callInsn, retvalInsn, insnCreate]
      | leave args =>
        obtain ⟨k, _, rfl⟩ := List.mem_mapIdx.mp inside
        simp [retargInsn, insnCreate]
      | _ => simp [Stmt.insns] at inside

private theorem Built.copiesSource {source : Function} {chunks : List Chunk} {f : Fn}
    (built : Built source chunks f) : ∀ b ∈ f.blks, (∀ n ∈ b.insns, n.CopiesSource) ∧
      (b.cmp1.isImm → b.cmp0.isTmp ∨ b.cmp0.isImm) := by
  intro b member
  obtain ⟨i, found⟩ := List.mem_iff_getElem?.mp member
  obtain ⟨c, foundChunk⟩ := built.chunk_of found
  have block := built.blks _ (numbers_numbering f.tmps) i c b foundChunk found
  constructor
  · intro n inside
    rw [block] at inside
    exact c.copiesSource n (by simpa using inside)
  · rw [block]
    unfold Chunk.blk Chunk.exitBlk
    cases exit : c.exit (numbering f.tmps) with
    | cond type a0 a1 label => exact fun _ => (exit_compares exit).1
    | _ => simp [Val.isImm]

end Frontend

private theorem Corrected.copiesValue {f g : Fn} (corrected : Corrected f g)
    (built : Frontend.ParserBuilt f) : ∀ b ∈ g.blks, ∀ n ∈ b.insns, n.CopiesValue := by
  obtain ⟨_, source, parsed⟩ := built
  obtain ⟨chunks, built⟩ := Frontend.buildFunction_built parsed
  obtain ⟨fuel, h, ri, returned, rfl⟩ := corrected
  simp only [correct, Result.bind_eq_ok, Result.pure_eq, Except.ok.injEq, Prod.mk.injEq,
    Prod.exists] at returned
  obtain ⟨blks, _, passed, rfl, rfl⟩ := returned
  exact Correct.correctBlks_copiesValue (fun b member => (built.copiesSource b member).1)
    (fun b member => (built.copiesSource b member).2) passed

namespace Ssa

/-- Every instruction of a renamed block comes from one of the block. -/
theorem RenamedTo.insns {b b' : Blk} (renamed : RenamedTo b b') {n' : Insn}
    (member : n' ∈ b'.insns) :
    ∃ n ∈ b.insns, ∃ before after, renameInsn before n = .ok (after, n') := by
  obtain ⟨i, i', renamed⟩ := renamed
  obtain ⟨_, _, _, _, _, renamedInsns, _, _, _, _, _, _, _, _, rfl, _⟩ :=
    renameTemps_eq_ok.mp renamed
  exact mem_renameInsns renamedInsns member

private theorem renameInsn_copiesValue {r r' : Renaming} {n n' : Insn} (value : n.CopiesValue)
    (renamed : renameInsn r n = .ok (r', n')) : n'.CopiesValue := by
  obtain ⟨in0, first, in1, second, out, defined, rfl⟩ := renameInsn_eq_ok.mp renamed
  intro type
  have class0 := Abi.renameUse_class first
  rw [class0.isTmp, class0.isImm]
  exact value type

end Ssa

namespace Abi

private theorem rewriteInsn_copiesValue {n n' : Insn} (value : n.CopiesValue) (passing : n.Passing)
    (rewritten : rewriteInsn n = .ok n') : n'.CopiesValue := by
  have passed (kind : n.type = .arg ∨ n.type = .retarg) {m : Insn} (passes : passIn n = .ok m) :
      m.CopiesValue := by
    simp only [passIn, Result.bind_eq_ok] at passes
    obtain ⟨_, _, r, _, passes⟩ := passes
    intro copies
    have operand := passing.operand kind
    cases in0 : n.in0 <;> rw [in0] at passes operand <;> cases passes <;> exact operand
  unfold rewriteInsn at rewritten
  split at rewritten
  · simp only [rewriteParam, Result.bind_eq_ok, Result.pure_eq, Except.ok.injEq] at rewritten
    obtain ⟨_, _, r, _, rfl⟩ := rewritten
    exact Insn.copiesValue_other (by simp [insnCreate])
  · simp only [rewriteRetval, Result.bind_eq_ok, Result.pure_eq, Except.ok.injEq] at rewritten
    obtain ⟨_, _, r, _, rfl⟩ := rewritten
    exact Insn.copiesValue_other (by simp [insnCreate])
  · rename_i type
    simp only [rewriteArg, Result.bind_eq_ok, Result.pure_eq, Except.ok.injEq] at rewritten
    obtain ⟨m, passes, rfl⟩ := rewritten
    have value := passed (Or.inl type) passes
    exact value
  · rename_i type
    exact passed (Or.inr type) rewritten
  · cases rewritten
    rename_i type
    exact Insn.copiesValue_other (by simp [type])
  · cases rewritten
    exact value

end Abi

namespace Asm

/-- What the passes before establish of an instruction that is printed: registers are those that
can be allocated, and COPY has an immediate or a register. -/
structure Prepared (n : Insn) : Prop where
  out : n.out.isReg → n.out.Allocable
  in0 : n.in0.isReg → n.in0.Allocable
  copy : n.type = .copy → n.in0.isReg ∨ n.in0.isImm

end Asm

/-- Behind `abi0` COPY has a temporary or an immediate. -/
theorem Optimizes.copiesValue {f g h k m : Fn} (optimizes : Optimizes f g h k m)
    (built : Frontend.ParserBuilt f) : ∀ b ∈ k.blks, ∀ n ∈ b.insns, n.CopiesValue := by
  obtain ⟨count, converted⟩ := optimizes.converted
  obtain ⟨idx, source, parsed⟩ := built
  obtain ⟨chunks, built'⟩ := Frontend.buildFunction_built parsed
  have raw := optimizes.corrected.raw built'.raw
  intro b' member n' inside
  obtain ⟨b, listed, rewritten⟩ := Lists.mem_of_forall₂ (Abi.abi0_rewritten optimizes.merged) member
  obtain ⟨_, _, _, -, -, -, -, keeps⟩ :=
    Abi.converted_chunk built' optimizes.corrected converted listed
  obtain ⟨_, d, listed', named⟩ := Ssa.ssa_origin raw converted listed
  obtain ⟨insns, replaced, rfl⟩ := Abi.rewriteBlk_eq_ok.mp rewritten
  obtain ⟨n, old, rewrote⟩ := Lists.mem_of_forall₂ replaced inside
  obtain ⟨n₀, old₀, before, after, renames⟩ := named.insns old
  have value := optimizes.corrected.copiesValue ⟨idx, source, parsed⟩ d listed' n₀ old₀
  exact Abi.rewriteInsn_copiesValue (Ssa.renameInsn_copiesValue value renames)
    (keeps.passing n old) rewrote

namespace Regalloc

variable {rmap : List Val}

/-- A register that is not a temporary's is one for arguments. -/
private theorem allocable_of_rewriteUse {v v' : Val} (rules : RulesIn rmap) (argOnly : v.ArgOnly)
    (rewritten : rewriteUse rmap v = .ok v') (isReg : v'.isReg) : v'.Allocable := by
  rcases rewriteUse_allocable rules rewritten with ⟨-, allocable⟩ | ⟨-, rfl⟩
  · exact allocable
  · cases v' with
    | reg r => exact ⟨r, arMap_subset (argOnly r rfl), rfl⟩
    | _ => simp [Val.isReg] at isReg

/-- An allocated instruction can be printed. -/
theorem InsnOf.prepared {bound : Nat} {b : Blk} {n : Insn} (rules : RulesIn rmap)
    (before : BeforeAlloc b) (values : ∀ n ∈ b.insns, n.CopiesValue)
    (insnOf : InsnOf rmap bound b n) : Asm.Prepared n := by
  cases insnOf with
  | @rewritten n₀ member rewritten =>
    simp only [rewriteInsn, Result.bind_eq_ok, Result.pure_eq, Except.ok.injEq] at rewritten
    obtain ⟨in0, first, in1, second, out, third, rfl⟩ := rewritten
    have argOnly := before.insns n₀ member
    exact {
      out := allocable_of_rewriteUse rules argOnly.out third
      in0 := allocable_of_rewriteUse rules argOnly.in0 first
      copy := by
        intro type
        rcases rewriteUse_allocable rules first with ⟨-, r, -, rfl⟩ | ⟨noTmp, rfl⟩
        · exact Or.inl rfl
        · exact Or.inr ((values n₀ member type).resolve_left (by simp [noTmp])) }
  | inserted inserted =>
    cases inserted with
    | save saved _ =>
      obtain ⟨_, _, v, rule⟩ := saved
      exact ⟨by simp [saveInsn, insnCreate], fun _ => rules.rewriteTmp rule,
        by simp [saveInsn, insnCreate]⟩
    | restore saved _ =>
      obtain ⟨_, _, v, rule⟩ := saved
      exact ⟨by simp [restoreInsn, insnCreate], fun _ => rules.rewriteTmp rule,
        by simp [restoreInsn, insnCreate]⟩

end Regalloc

/-- Every instruction that is printed is prepared for it. -/
theorem Optimizes.prepared {f g h k m : Fn} (optimizes : Optimizes f g h k m)
    (built : Frontend.ParserBuilt f) : ∀ b ∈ m.blks, ∀ n ∈ b.insns, Asm.Prepared n := by
  intro b' member n inside
  obtain ⟨b, listed, rmap, rules, insnOf⟩ := optimizes.insnOf built member
  exact (insnOf n inside).prepared rules ((optimizes.beforeAlloc built).2 b listed)
    (optimizes.copiesValue built b listed)

end Qbt
