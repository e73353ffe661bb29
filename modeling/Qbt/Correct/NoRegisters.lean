import Qbt.Correct.Simulation

/-!
# No registers before register allocation

The parser writes no register into a function, and `correct` adds none, whatever rules
for addressed locals it follows. Conditional blocks compare temporaries behind it.
-/

namespace Qbt

/-- SAVE and RESTORE, which only register allocation inserts. -/
def InsnType.savesReg : InsnType → Bool
  | .save | .restore => true
  | _ => false

/-- No operand of the instruction is a register, and it saves or restores none. -/
structure Insn.NoRegs (n : Insn) : Prop where
  out : n.out.isReg = false
  in0 : n.in0.isReg = false
  in1 : n.in1.isReg = false
  type : n.type.savesReg = false

/-- Instructions over temporaries below a bound name no registers. -/
theorem Insn.Below.noRegs {bound : Nat} {n : Insn} (below : n.Below bound)
    (type : n.type.savesReg = false) : n.NoRegs :=
  ⟨below.out.isReg, below.in0.isReg, below.in1.isReg, type⟩

/-- The branches that compare two values. -/
def InsnType.comparesTwo : InsnType → Bool
  | .beq | .bne | .ble | .bge | .blt | .bgt => true
  | _ => false

/-- The branches that compare one value with zero. -/
def InsnType.comparesOne : InsnType → Bool
  | .bnz | .bez => true
  | _ => false

/-- The comparison of a block is between operands that satisfy `P`. -/
structure Blk.Compares (b : Blk) (P : Val → Prop) : Prop where
  first : b.btype.comparesTwo ∨ b.btype.comparesOne → P b.cmp0
  second : b.btype.comparesTwo → P b.cmp1

namespace Correct

/-- No register occurs where `correct` works. -/
structure Pass.NoRegs (p : Pass) : Prop where
  insns : ∀ n ∈ p.b.insns, n.NoRegs
  rules : ∀ v ∈ p.rules, v.isReg = false

section NoRegs

variable {p p' : Pass} {ii : Nat} {i : Insn}

/-- An insertion adds the new instruction and the changed one. -/
private theorem mem_insertBefore {idx : Fin 2} {new : Insn}
    (inserted : insertBefore p ii i idx new = .ok p') {n : Insn} (member : n ∈ p'.b.insns) :
    n = new ∨ n = i.setInput idx (.tmp p.ri) ∨ n ∈ p.b.insns := by
  simp only [insertBefore, Result.bind_eq_ok, setInsn_eq_ok, insnInsert_eq_ok, Result.pure_eq,
    Except.ok.injEq] at inserted
  obtain ⟨_, ⟨_, rfl⟩, _, ⟨_, rfl⟩, rfl⟩ := inserted
  rcases List.eq_or_mem_of_mem_insertIdx member with same | old
  · exact Or.inl same
  · exact Or.inr (List.mem_or_eq_of_mem_set old).symm

private theorem insertBefore_rules {idx : Fin 2} {new : Insn}
    (inserted : insertBefore p ii i idx new = .ok p') : p'.rules = p.rules := by
  simp only [insertBefore, Result.bind_eq_ok, Result.pure_eq, Except.ok.injEq] at inserted
  obtain ⟨_, _, _, _, rfl⟩ := inserted
  rfl

private theorem noRegs_setInput (noRegs : i.NoRegs) (idx : Fin 2) (t : Nat) :
    (i.setInput idx (.tmp t)).NoRegs := by
  unfold Insn.setInput
  split
  · exact ⟨noRegs.out, rfl, noRegs.in1, noRegs.type⟩
  · exact ⟨noRegs.out, noRegs.in0, rfl, noRegs.type⟩

private theorem noRegs_input (noRegs : i.NoRegs) (idx : Fin 2) : (i.input idx).isReg = false := by
  unfold Insn.input
  split
  · exact noRegs.in0
  · exact noRegs.in1

private theorem insertBefore_noRegs (noRegs : p.NoRegs) (current : i.NoRegs) {idx : Fin 2}
    {type : InsnType} {v : Val} (operand : v.isReg = false) (unsaved : type.savesReg = false)
    (inserted : insertBefore p ii i idx (insnCreate type .i27 (.tmp p.ri) v .noclass 0) = .ok p') :
    p'.NoRegs := by
  refine ⟨fun n member => ?_, by rw [insertBefore_rules inserted]; exact noRegs.rules⟩
  rcases mem_insertBefore inserted member with rfl | rfl | old
  · exact ⟨rfl, operand, rfl, unsaved⟩
  · exact noRegs_setInput current idx p.ri
  · exact noRegs.insns n old

/-- Rules name temporaries. -/
private theorem addRewriteRule_noRegs {rules rules' : List Val} {v w : Val}
    (added : addRewriteRule rules v w = .ok rules') (noRegs : ∀ v ∈ rules, v.isReg = false) :
    ∀ v ∈ rules', v.isReg = false := by
  unfold addRewriteRule at added
  split at added
  · cases added
    intro v member
    unfold Padded.write at member
    rcases List.mem_or_eq_of_mem_set member with old | rfl
    · rcases List.mem_append.mp old with old | padding
      · exact noRegs v old
      · rw [List.eq_of_mem_replicate padding]
        rfl
    · rfl
  · cases added

/-- No outcome brings registers in. -/
theorem Outcome.noRegs (outcome : Outcome p ii i p') (noRegs : p.NoRegs) (current : i.NoRegs) :
    p'.NoRegs := by
  cases outcome with
  | same => exact noRegs
  | swapped _ _ stored =>
    obtain ⟨_, rfl⟩ := setInsn_eq_ok.mp stored
    refine ⟨fun n member => ?_, noRegs.rules⟩
    rcases List.mem_or_eq_of_mem_set member with old | rfl
    · exact noRegs.insns n old
    · exact ⟨current.out, current.in1, current.in0, current.type⟩
  | spilledRef idx _ _ inserted =>
    exact insertBefore_noRegs noRegs current (noRegs_input current idx) rfl inserted
  | spilledImm idx _ _ inserted =>
    exact insertBefore_noRegs noRegs current (noRegs_input current idx) rfl inserted
  | addressed _ _ ruled => exact ⟨noRegs.insns, addRewriteRule_noRegs ruled noRegs.rules⟩

private theorem rewriteTmp_noRegs {rules : List Val} {v w : Val}
    (noRegs : ∀ v ∈ rules, v.isReg = false) (rewritten : rewriteTmp rules v = .ok w) :
    w.isReg = false := by
  unfold rewriteTmp at rewritten
  split at rewritten
  · split at rewritten
    · cases rewritten
    · cases rewritten
    · rename_i found
      cases rewritten
      exact noRegs _ (List.mem_of_getElem? found)
  · cases rewritten

private theorem loadRewrite_noRegs {idx : Fin 2} (noRegs : p.NoRegs) (current : i.NoRegs)
    (loaded : loadRewrite p ii i idx = .ok p') : p'.NoRegs := by
  obtain ⟨addr, rewritten, inserted⟩ := Result.bind_eq_ok.mp loaded
  exact insertBefore_noRegs noRegs current (rewriteTmp_noRegs noRegs.rules rewritten) rfl inserted

private theorem storeRewrite_noRegs (noRegs : p.NoRegs) (current : i.NoRegs)
    (stored : storeRewrite p ii i = .ok p') : p'.NoRegs := by
  simp only [storeRewrite, Result.bind_eq_ok, setInsn_eq_ok, insnInsert_eq_ok, Result.pure_eq,
    Except.ok.injEq] at stored
  obtain ⟨addr, rewritten, _, ⟨_, rfl⟩, _, ⟨_, rfl⟩, rfl⟩ := stored
  refine ⟨fun n member => ?_, noRegs.rules⟩
  rcases List.eq_or_mem_of_mem_insertIdx member with rfl | old
  · exact ⟨rfl, rewriteTmp_noRegs noRegs.rules rewritten, rfl, rfl⟩
  · rcases List.mem_or_eq_of_mem_set old with old | rfl
    · exact noRegs.insns n old
    · exact ⟨rfl, current.in0, current.in1, current.type⟩

private theorem correctInsn_noRegs (noRegs : p.NoRegs) (current : i.NoRegs)
    (corrected : correctInsn p ii i = .ok p') : p'.NoRegs := by
  unfold correctInsn at corrected
  split at corrected
  · exact loadRewrite_noRegs noRegs current corrected
  split at corrected
  · exact loadRewrite_noRegs noRegs current corrected
  split at corrected
  · obtain ⟨q, stored, corrected⟩ := Result.bind_eq_ok.mp corrected
    exact (correctOperands_outcome corrected).noRegs (storeRewrite_noRegs noRegs current stored)
      current
  · exact (correctOperands_outcome corrected).noRegs noRegs current

private theorem correctInsns_noRegs {fuel : Nat} (noRegs : p.NoRegs)
    (corrected : correctInsns fuel ii p = .ok p') : p'.NoRegs := by
  induction fuel generalizing ii p with
  | zero =>
    unfold correctInsns at corrected
    split at corrected
    · obtain rfl : p = p' := by simpa using corrected
      exact noRegs
    · cases corrected
  | succ fuel ih =>
    unfold correctInsns at corrected
    split at corrected
    · obtain rfl : p = p' := by simpa using corrected
      exact noRegs
    · rename_i found
      obtain ⟨q, first, rest⟩ := Result.bind_eq_ok.mp corrected
      exact ih (correctInsn_noRegs noRegs (noRegs.insns _ (List.mem_of_getElem? found)) first) rest

end NoRegs

/-- What correction makes of operands that satisfy the first predicate. -/
theorem correctBlk_compares {p p' : Pass} {fuel : Nat} (corrected : correctBlk fuel p = .ok p')
    (compares : p.b.Compares fun v => v.isTmp ∨ v.isImm) :
    p'.b.Compares fun v => v.isTmp := by
  simp only [correctBlk, Result.bind_eq_ok, Result.pure_eq, Except.ok.injEq] at corrected
  obtain ⟨q, first, rfl⟩ := corrected
  have before : q.b.Compares fun v => v.isTmp ∨ v.isImm := by
    rw [correctInsns_keeps first]
    exact ⟨compares.first, compares.second⟩
  have middle : ((correctCmp0 q).b.btype.comparesTwo ∨ (correctCmp0 q).b.btype.comparesOne →
      (correctCmp0 q).b.cmp0.isTmp) ∧
      ((correctCmp0 q).b.btype.comparesTwo →
        (correctCmp0 q).b.cmp1.isTmp ∨ (correctCmp0 q).b.cmp1.isImm) := by
    unfold correctCmp0
    split
    · exact ⟨fun _ => rfl, before.second⟩
    · rename_i noImm
      exact ⟨fun type => (before.first type).resolve_right noImm, before.second⟩
  unfold correctCmp1
  split
  · exact ⟨middle.1, fun _ => rfl⟩
  · rename_i noImm
    exact ⟨middle.1, fun type => (middle.2 type).resolve_right noImm⟩

private theorem correctBlk_noRegs {p p' : Pass} {fuel : Nat}
    (corrected : correctBlk fuel p = .ok p')
    (noRegs : p.NoRegs) (cmp0 : p.b.cmp0.isReg = false) : p'.NoRegs := by
  simp only [correctBlk, Result.bind_eq_ok, Result.pure_eq, Except.ok.injEq] at corrected
  obtain ⟨q, first, rfl⟩ := corrected
  have before := correctInsns_noRegs noRegs first
  have keeps : q.b.cmp0 = p.b.cmp0 := by rw [correctInsns_keeps first]
  have add {q : Pass} (noRegs : q.NoRegs) (t : Nat) {v : Val} (operand : v.isReg = false) :
      ∀ n ∈ (copied q.b t v).insns, n.NoRegs := by
    intro n member
    simp only [copied, insadd, List.mem_append, List.mem_singleton] at member
    rcases member with old | rfl
    · exact noRegs.insns n old
    · exact ⟨rfl, operand, rfl, rfl⟩
  have middle : (correctCmp0 q).NoRegs ∧ (correctCmp0 q).b.cmp0.isReg = false := by
    unfold correctCmp0
    split
    · exact ⟨⟨add before _ (by rw [keeps]; exact cmp0), before.rules⟩, rfl⟩
    · exact ⟨before, by rw [keeps]; exact cmp0⟩
  unfold correctCmp1
  split
  · exact ⟨add middle.1 _ middle.2, middle.1.rules⟩
  · exact middle.1

/-- What register allocation is given by the passes before it. -/
structure Plain (b : Blk) : Prop where
  insns : ∀ n ∈ b.insns, n.NoRegs
  compares : b.Compares fun v => v.isTmp

private theorem correctBlks_plain {fuel ri ri' : Nat} {rules : List Val} {blks blks' : List Blk}
    (noRules : ∀ v ∈ rules, v.isReg = false) (below : ∀ b ∈ blks, ∃ bound, b.Below bound)
    (unsaved : ∀ b ∈ blks, ∀ n ∈ b.insns, n.type.savesReg = false)
    (compares : ∀ b ∈ blks, b.Compares fun v => v.isTmp ∨ v.isImm)
    (corrected : correctBlks fuel blks rules ri = .ok (blks', ri')) : ∀ b ∈ blks', Plain b := by
  induction blks generalizing rules ri blks' with
  | nil =>
    simp only [correctBlks, Result.pure_eq, Except.ok.injEq, Prod.mk.injEq] at corrected
    obtain ⟨rfl, rfl⟩ := corrected
    simp
  | cons b rest ih =>
    simp only [correctBlks, Result.bind_eq_ok, Result.pure_eq, Except.ok.injEq,
      Prod.mk.injEq, Prod.exists] at corrected
    obtain ⟨p, first, rest', ri'', others, rfl, rfl⟩ := corrected
    obtain ⟨bound, belowB⟩ := below b List.mem_cons_self
    have noRegs := correctBlk_noRegs first
      ⟨fun n member => (belowB.insns n member).noRegs (unsaved b List.mem_cons_self n member),
        noRules⟩ belowB.cmp0.isReg
    rintro c (_ | ⟨_, member⟩)
    · exact ⟨noRegs.insns, correctBlk_compares first (compares b List.mem_cons_self)⟩
    · exact ih noRegs.rules (fun d member => below d (List.mem_cons_of_mem _ member))
        (fun d member => unsaved d (List.mem_cons_of_mem _ member))
        (fun d member => compares d (List.mem_cons_of_mem _ member)) others c member

end Correct

namespace Frontend

private theorem Arg.val_class (ν : String → Nat) (a : Arg) : (a.val ν).isTmp ∨ (a.val ν).isImm := by
  cases a <;> simp [Arg.val, Val.isTmp, Val.isImm]

/-- Branches of the text compare identifiers and integers. -/
theorem exit_compares {ν : String → Nat} {c : Chunk} {type : InsnType} {a0 a1 : Val}
    {label : String} (exit : c.exit ν = .cond type a0 a1 label) :
    (a0.isTmp ∨ a0.isImm) ∧ (type.comparesTwo → a1.isTmp ∨ a1.isImm) := by
  unfold Chunk.exit at exit
  cases closes : c.last with
  | none => simp [closes] at exit
  | some s =>
    cases s <;> simp only [closes, Stmt.exit] at exit <;> cases exit
    · exact ⟨Arg.val_class ν _, fun _ => Arg.val_class ν _⟩
    · exact ⟨Arg.val_class ν _, fun two => by cases two⟩
    · exact ⟨Arg.val_class ν _, fun two => by cases two⟩

/-- A parsed function compares temporaries and immediates. -/
theorem Built.compares {source : Function} {chunks : List Chunk} {f : Fn}
    (built : Built source chunks f) :
    ∀ b ∈ f.blks, b.Compares fun v => v.isTmp ∨ v.isImm := by
  intro b member
  obtain ⟨i, found⟩ := List.mem_iff_getElem?.mp member
  obtain ⟨c, foundChunk⟩ := built.chunk_of found
  have block := built.blks _ (numbers_numbering f.tmps) i c b foundChunk found
  rw [block]
  unfold Chunk.blk Chunk.exitBlk
  cases exit : c.exit (numbering f.tmps) with
  | cond type a0 a1 label =>
    obtain ⟨first, second⟩ := exit_compares exit
    exact ⟨fun _ => first, second⟩
  | _ => exact ⟨by simp [InsnType.comparesTwo, InsnType.comparesOne],
      by simp [InsnType.comparesTwo]⟩

private theorem plain_unsaved (ν : String → Nat) (s : Plain) :
    (s.insn ν).type.savesReg = false := by
  cases s with
  | binary op type dst left right => cases op <;> rfl
  | unary op type dst operand => cases op <;> rfl
  | _ => rfl

/-- No statement saves or restores a register. -/
private theorem stmt_unsaved (ν : String → Nat) (s : Stmt) :
    ∀ n ∈ s.insns ν, n.type.savesReg = false := by
  intro n member
  cases s with
  | plain p =>
    rw [List.mem_singleton.mp member]
    exact plain_unsaved ν p
  | call target args rets =>
    simp only [Stmt.insns, List.mem_append, List.mem_mapIdx, List.mem_cons] at member
    rcases member with ⟨k, _, rfl⟩ | rfl | ⟨k, _, rfl⟩ <;> rfl
  | leave args =>
    obtain ⟨k, _, rfl⟩ := List.mem_mapIdx.mp member
    rfl
  | _ => simp [Stmt.insns] at member

/-- A parsed function saves no registers. -/
theorem Built.unsaved {source : Function} {chunks : List Chunk} {f : Fn}
    (built : Built source chunks f) : ∀ b ∈ f.blks, ∀ n ∈ b.insns, n.type.savesReg = false := by
  intro b member n inside
  obtain ⟨i, found⟩ := List.mem_iff_getElem?.mp member
  obtain ⟨c, foundChunk⟩ := built.chunk_of found
  have block := built.blks _ (numbers_numbering f.tmps) i c b foundChunk found
  rw [block] at inside
  have inside' : n ∈ c.insns (numbering f.tmps) := by
    unfold Chunk.blk Chunk.exitBlk at inside
    split at inside <;> exact inside
  simp only [Chunk.insns, List.mem_append, List.mem_map, List.mem_flatMap, List.mem_mapIdx]
    at inside'
  rcases inside' with (⟨k, _, rfl⟩ | ⟨s, _, rfl⟩) | ⟨s, _, inStmt⟩
  · rfl
  · exact plain_unsaved _ s
  · exact stmt_unsaved _ s n inStmt

end Frontend

/-- Behind correction no operand is a register, and conditional blocks compare
temporaries. -/
theorem Corrected.plain {f g : Fn} (corrected : Corrected f g) (built : Frontend.ParserBuilt f) :
    ∀ b ∈ g.blks, Correct.Plain b := by
  obtain ⟨_, source, parsed⟩ := built
  obtain ⟨chunks, built⟩ := Frontend.buildFunction_built parsed
  obtain ⟨fuel, h, ri, returned, rfl⟩ := corrected
  simp only [correct, Result.bind_eq_ok, Result.pure_eq, Except.ok.injEq, Prod.mk.injEq,
    Prod.exists] at returned
  obtain ⟨blks, _, passed, rfl, rfl⟩ := returned
  exact Correct.correctBlks_plain (by simp) (fun b member => ⟨_, built.below b member⟩)
    built.unsaved built.compares passed

end Qbt
