import Qbt.Correct.Correct
import Qbt.Frontend.Graph
import Qbt.IR.Layout

/-!
# What correction leaves alone

`correct` rewrites the instructions and the comparison of each block and nothing else,
so a function keeps its graph.
-/

namespace Qbt

/-- An instruction is replaced if it is in the block. -/
theorem setInsn_eq_ok {b b' : Blk} {i : Nat} {n : Insn} :
    setInsn b i n = .ok b' ↔ i < b.insns.length ∧ { b with insns := b.insns.set i n } = b' := by
  simp [setInsn, Result.bind_eq_ok]

/-- An instruction is inserted at any position up to the end of the block. -/
theorem insnInsert_eq_ok {b b' : Blk} {pos : Nat} {n : Insn} :
    insnInsert b n pos = .ok b' ↔
      pos ≤ b.insns.length ∧ { b with insns := b.insns.insertIdx pos n } = b' := by
  simp [insnInsert, Result.bind_eq_ok]

namespace Correct

/-- Everything `correct_insn` can do to an instruction behind the rewriting of
addressed locals. -/
inductive Outcome (p : Pass) (ii : Nat) (i : Insn) : Pass → Prop where
  /-- the instruction stays -/
  | same : Outcome p ii i p
  /-- the operands of an addition or multiplication change places -/
  | swapped {b : Blk} (commutes : i.type = .add ∨ i.type = .mul) (imm : i.in0.isImm)
      (stored : setInsn p.b ii { i with in0 := i.in1, in1 := i.in0 } = .ok b) :
      Outcome p ii i { p with b }
  /-- a symbol reference that is not called is loaded into a fresh temporary -/
  | spilledRef {p' : Pass} (idx : Fin 2) (ref : (i.input idx).isRef)
      (callee : i.type = .call → idx = 1) (inserted : spillRef p ii i idx = .ok p') :
      Outcome p ii i p'
  /-- an immediate that is not passed is loaded into a fresh temporary -/
  | spilledImm {p' : Pass} (idx : Fin 2) (imm : (i.input idx).isImm)
      (other : i.type.isConvention = false) (inserted : spillImm p ii i idx = .ok p') :
      Outcome p ii i p'
  /-- a local whose address is taken gets a rule -/
  | addressed {rules : List Val} (addr : i.type = .addr) (isTmp : i.in0.isTmp)
      (ruled : addRewriteRule p.rules i.in0 i.out = .ok rules) : Outcome p ii i { p with rules }

variable {p p' : Pass} {ii : Nat} {i : Insn}

private theorem correctArith_outcome (commutes : i.type = .add ∨ i.type = .mul)
    (corrected : correctArith p ii i = .ok p') : Outcome p ii i p' := by
  unfold correctArith at corrected
  by_cases imm : i.in0.isImm
  · rw [if_pos imm] at corrected
    simp only [Result.bind_eq_ok, Result.pure_eq, Except.ok.injEq] at corrected
    obtain ⟨b, stored, rfl⟩ := corrected
    exact .swapped commutes imm stored
  · rw [if_neg imm, if_neg imm] at corrected
    obtain rfl : p = p' := by simpa using corrected
    exact .same

/-- Instructions whose first input may not be an immediate. -/
private theorem positional_outcome (other : i.type.isConvention = false)
    (corrected : (if i.in0.isImm then spillImm p ii i 0 else pure p) = .ok p') :
    Outcome p ii i p' := by
  by_cases imm : i.in0.isImm
  · rw [if_pos imm] at corrected
    exact .spilledImm 0 imm other corrected
  · rw [if_neg imm] at corrected
    obtain rfl : p = p' := by simpa using corrected
    exact .same

private theorem correctStore_outcome (other : i.type.isConvention = false)
    (corrected : correctStore p ii i = .ok p') : Outcome p ii i p' := by
  unfold correctStore at corrected
  by_cases imm : i.in1.isImm
  · rw [if_pos imm] at corrected
    exact .spilledImm 1 imm other corrected
  · rw [if_neg imm] at corrected
    obtain rfl : p = p' := by simpa using corrected
    exact .same

private theorem correctBranch_outcome (other : i.type.isConvention = false)
    (corrected : correctBranch p ii i = .ok p') : Outcome p ii i p' := by
  unfold correctBranch at corrected
  by_cases imm : i.in0.isImm
  · rw [if_pos imm] at corrected
    exact .spilledImm 0 imm other corrected
  · rw [if_neg imm] at corrected
    exact correctStore_outcome other corrected

private theorem correctAddr_outcome (addr : i.type = .addr)
    (corrected : correctAddr p i = .ok p') : Outcome p ii i p' := by
  unfold correctAddr at corrected
  by_cases isTmp : i.in0.isTmp
  · rw [if_pos isTmp] at corrected
    simp only [Result.bind_eq_ok, Result.pure_eq, Except.ok.injEq] at corrected
    obtain ⟨rules, ruled, rfl⟩ := corrected
    exact .addressed addr isTmp ruled
  · rw [if_neg isTmp] at corrected
    obtain rfl : p = p' := by simpa using corrected
    exact .same

/-- What is made of the operands is one of the outcomes. -/
theorem correctOperands_outcome (corrected : correctOperands p ii i = .ok p') :
    Outcome p ii i p' := by
  unfold correctOperands at corrected
  by_cases ref0 : i.type ≠ .call ∧ i.in0.isRef
  · rw [if_pos ref0] at corrected
    exact .spilledRef 0 ref0.2 (fun call => absurd call ref0.1) corrected
  by_cases ref1 : i.in1.isRef
  · rw [if_neg ref0, if_pos ref1] at corrected
    exact .spilledRef 1 ref1 (fun _ => rfl) corrected
  rw [if_neg ref0, if_neg ref1] at corrected
  cases type : i.type <;> simp only [type] at corrected
  case add | mul => exact correctArith_outcome (by simp [type]) corrected
  case sub | div | rem | lshift | rshift =>
    exact positional_outcome (by rw [type]; rfl) corrected
  case lt | le | gt | ge | eq | ne => exact positional_outcome (by rw [type]; rfl) corrected
  case beq | bne | ble | bge | blt | bgt | bnz | bez =>
    exact correctBranch_outcome (by rw [type]; rfl) corrected
  case store => exact correctStore_outcome (by rw [type]; rfl) corrected
  case addr => exact correctAddr_outcome type corrected
  all_goals
    obtain rfl : p = p' := by simpa using corrected
    exact .same

/-- Only the instructions of the block may differ. -/
def Pass.Keeps (p p' : Pass) : Prop := p'.b = { p.b with insns := p'.b.insns }

namespace Pass.Keeps

theorem refl (p : Pass) : p.Keeps p := rfl

theorem trans {p p' p'' : Pass} (first : p.Keeps p') (second : p'.Keeps p'') : p.Keeps p'' := by
  unfold Keeps at *
  rw [second, first]

end Pass.Keeps

/-- What an insertion in front of the current instruction leaves. -/
theorem insertBefore_split {before after : List Insn} {x : Insn}
    (split : p.b.insns = before ++ x :: after) (index : before.length = ii) {idx : Fin 2}
    {new : Insn} (inserted : insertBefore p ii i idx new = .ok p') :
    p'.b.insns = before ++ [new, i.setInput idx (.tmp p.ri)] ++ after ∧ p'.rules = p.rules ∧
      p'.ri = p.ri + 1 := by
  subst index
  simp only [insertBefore, Result.bind_eq_ok, setInsn_eq_ok, insnInsert_eq_ok, Result.pure_eq,
    Except.ok.injEq] at inserted
  obtain ⟨_, ⟨_, rfl⟩, _, ⟨_, rfl⟩, rfl⟩ := inserted
  simp [split, Lists.insertIdx_length]

/-- Inserting before the visited instruction keeps the rest of the block. -/
theorem insertBefore_keeps {idx : Fin 2} {new : Insn}
    (inserted : insertBefore p ii i idx new = .ok p') : p.Keeps p' := by
  simp only [insertBefore, Result.bind_eq_ok, setInsn_eq_ok, insnInsert_eq_ok, Result.pure_eq,
    Except.ok.injEq] at inserted
  obtain ⟨_, ⟨_, rfl⟩, _, ⟨_, rfl⟩, rfl⟩ := inserted
  rfl

/-- Each outcome keeps all but the instructions. -/
theorem Outcome.keeps (outcome : Outcome p ii i p') : p.Keeps p' := by
  cases outcome with
  | same => exact .refl p
  | swapped _ _ stored =>
    obtain ⟨_, rfl⟩ := setInsn_eq_ok.mp stored
    rfl
  | spilledRef _ _ _ inserted => exact insertBefore_keeps inserted
  | spilledImm _ _ _ inserted => exact insertBefore_keeps inserted
  | addressed _ _ _ => rfl

private theorem storeRewrite_keeps (stored : storeRewrite p ii i = .ok p') : p.Keeps p' := by
  simp only [storeRewrite, Result.bind_eq_ok, setInsn_eq_ok, insnInsert_eq_ok, Result.pure_eq,
    Except.ok.injEq] at stored
  obtain ⟨_, _, _, ⟨_, rfl⟩, _, ⟨_, rfl⟩, rfl⟩ := stored
  rfl

private theorem correctInsn_keeps (corrected : correctInsn p ii i = .ok p') : p.Keeps p' := by
  unfold correctInsn loadRewrite at corrected
  split at corrected
  · obtain ⟨_, _, inserted⟩ := Result.bind_eq_ok.mp corrected
    exact insertBefore_keeps inserted
  split at corrected
  · obtain ⟨_, _, inserted⟩ := Result.bind_eq_ok.mp corrected
    exact insertBefore_keeps inserted
  split at corrected
  · obtain ⟨q, stored, corrected⟩ := Result.bind_eq_ok.mp corrected
    exact (storeRewrite_keeps stored).trans (correctOperands_outcome corrected).keeps
  · exact (correctOperands_outcome corrected).keeps

/-- Visiting the instructions keeps all else. -/
theorem correctInsns_keeps {fuel : Nat} (corrected : correctInsns fuel ii p = .ok p') :
    p.Keeps p' := by
  induction fuel generalizing ii p with
  | zero =>
    unfold correctInsns at corrected
    split at corrected
    · obtain rfl : p = p' := by simpa using corrected
      exact .refl p
    · cases corrected
  | succ fuel ih =>
    unfold correctInsns at corrected
    split at corrected
    · obtain rfl : p = p' := by simpa using corrected
      exact .refl p
    · obtain ⟨q, first, rest⟩ := Result.bind_eq_ok.mp corrected
      exact (correctInsn_keeps first).trans (ih rest)

/-- Only the instructions and the comparison of a block may differ. -/
structure Rewritten (b b' : Blk) : Prop where
  eq : b' = { b with insns := b'.insns, cmp0 := b'.cmp0, cmp1 := b'.cmp1 }

/-- A rewritten block is the same node of the graph. -/
theorem Rewritten.sameNode {b b' : Blk} (rewritten : Rewritten b b') : SameNode b b' := by
  rw [rewritten.eq]
  exact ⟨rfl, rfl, rfl, rfl⟩

/-- `correct_blk` rewrites its block. -/
theorem correctBlk_rewritten {fuel : Nat} (corrected : correctBlk fuel p = .ok p') :
    Rewritten p.b p'.b := by
  simp only [correctBlk, Result.bind_eq_ok, Result.pure_eq, Except.ok.injEq] at corrected
  obtain ⟨q, first, rfl⟩ := corrected
  have keeps := correctInsns_keeps first
  have cmp0 : Rewritten q.b (correctCmp0 q).b := by
    unfold correctCmp0
    split <;> exact ⟨rfl⟩
  have cmp1 : Rewritten (correctCmp0 q).b (correctCmp1 (correctCmp0 q)).b := by
    unfold correctCmp1
    split <;> exact ⟨rfl⟩
  refine ⟨?_⟩
  rw [cmp1.eq, cmp0.eq, keeps]

private theorem correctBlks_rewritten {fuel : Nat} {blks blks' : List Blk} {rules : List Val}
    {ri ri' : Nat} (corrected : correctBlks fuel blks rules ri = .ok (blks', ri')) :
    List.Forall₂ Rewritten blks blks' := by
  induction blks generalizing blks' rules ri with
  | nil =>
    simp only [correctBlks, Result.pure_eq, Except.ok.injEq, Prod.mk.injEq] at corrected
    obtain ⟨rfl, rfl⟩ := corrected
    exact .nil
  | cons b rest ih =>
    simp only [correctBlks, Result.bind_eq_ok, Result.pure_eq, Except.ok.injEq,
      Prod.mk.injEq, Prod.exists] at corrected
    obtain ⟨p, first, blks'', ri'', others, rfl, rfl⟩ := corrected
    exact .cons (correctBlk_rewritten first) (ih others)

end Correct

/-- A corrected function has the graph of the original. -/
theorem Corrected.raw {f g : Fn} (corrected : Corrected f g) (raw : Raw f) : Raw g := by
  obtain ⟨fuel, h, ri, returned, rfl⟩ := corrected
  simp only [correct, Result.bind_eq_ok, Result.pure_eq, Except.ok.injEq, Prod.mk.injEq,
    Prod.exists] at returned
  obtain ⟨blks, ri', passed, rfl, rfl⟩ := returned
  have rewritten := Correct.correctBlks_rewritten passed
  have unchanged {P : Blk → Prop} (holds : ∀ b ∈ f.blks, P b)
      (transfers : ∀ b b', Correct.Rewritten b b' → P b → P b') : ∀ b' ∈ blks, P b' := by
    intro b' member
    obtain ⟨b, member', same⟩ := Lists.mem_of_forall₂ rewritten member
    exact transfers b b' same (holds b member')
  exact {
    toLayout := raw.toLayout.congr (rewritten.imp fun _ _ same => same.sameNode)
    params := unchanged raw.params fun b b' same empty => by rw [same.eq]; exact empty
    args1 := unchanged raw.args1 fun b b' same empty => by rw [same.eq]; exact empty
    args2 := unchanged raw.args2 fun b b' same empty => by rw [same.eq]; exact empty
    visited := unchanged raw.visited fun b b' same zero => by rw [same.eq]; exact zero }

/-- A function the parser has built, before or after correction. -/
inductive BeforeSsa (f : Fn) : Prop where
  | parsed (built : Frontend.ParserBuilt f)
  | corrected {g : Fn} (built : Frontend.ParserBuilt g) (corrected : Corrected g f)

/-- Before the conversion a function is raw. -/
theorem BeforeSsa.raw {f : Fn} (before : BeforeSsa f) : Raw f := by
  cases before with
  | parsed built => exact built.raw
  | corrected built corrected => exact corrected.raw built.raw

end Qbt
