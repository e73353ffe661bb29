import Qbt.IR.Operands
import Qbt.Std.Padded

/-!
# Operand correction

`src/correct.c`: the textual form lets immediates, symbol references and addressed
locals stand anywhere, the later passes do not. `correct` swaps operands, loads them
into fresh temporaries in front of the instruction, and does the same for the operands
of a block's comparison.
-/

namespace Qbt

namespace Insn

/-- `i.in[idx]`. -/
def input (n : Insn) : Fin 2 → Val
  | 0 => n.in0
  | 1 => n.in1

/-- An instruction has two inputs. -/
theorem input_cases (idx : Fin 2) : idx = 0 ∨ idx = 1 := by
  revert idx
  decide

/-- Assignment to `i.in[idx]`. -/
def setInput (n : Insn) (idx : Fin 2) (v : Val) : Insn :=
  match idx with
  | 0 => { n with in0 := v }
  | 1 => { n with in1 := v }

@[simp] theorem out_setInput (n : Insn) (idx : Fin 2) (v : Val) : (n.setInput idx v).out = n.out :=
  match idx with
  | 0 => rfl
  | 1 => rfl

@[simp] theorem type_setInput (n : Insn) (idx : Fin 2) (v : Val) :
    (n.setInput idx v).type = n.type :=
  match idx with
  | 0 => rfl
  | 1 => rfl

/-- Both inputs are below the bound. -/
theorem Below.input {bound : Nat} {n : Insn} (below : n.Below bound) (idx : Fin 2) :
    (n.input idx).Below bound :=
  match idx with
  | 0 => below.in0
  | 1 => below.in1

/-- An input may be the next temporary. -/
theorem Below.setInput {bound : Nat} {n : Insn} (below : n.Below bound) (idx : Fin 2) :
    (n.setInput idx (.tmp bound)).Below (bound + 1) := by
  have wider := below.mono (Nat.le_succ bound)
  match idx with
  | 0 => exact ⟨wider.out, Nat.lt_succ_self bound, wider.in1⟩
  | 1 => exact ⟨wider.out, wider.in0, Nat.lt_succ_self bound⟩

end Insn

namespace Correct

/-- What `correct` works on: a block, the rules for addressed locals, and the next free
temporary. -/
structure Pass where
  b : Blk
  rules : List Val
  ri : Nat

/-- `has_rewrite_rule`. -/
def hasRewriteRule (rules : List Val) : Val → Bool
  | .tmp t => (rules.getD t .noclass).hasclass
  | _ => false

/-- `rewrite_tmp`. -/
def rewriteTmp (rules : List Val) : Val → Result Val
  | .tmp t =>
    match rules[t]? with
    | none => .error .noRule
    | some .noclass => .error .noRule
    | some v => .ok v
  | _ => .error .valClass

/-- `add_rewrite_rule`. -/
def addRewriteRule (rules : List Val) (v to' : Val) : Result (List Val) :=
  match v, to' with
  | .tmp t, .tmp _ => .ok (Padded.write .noclass rules t to')
  | _, _ => .error .valClass

/-- Replace an input by a fresh temporary that `new` defines in front of the
instruction. -/
def insertBefore (p : Pass) (ii : Nat) (i : Insn) (idx : Fin 2) (new : Insn) : Result Pass := do
  let b ← setInsn p.b ii (i.setInput idx (.tmp p.ri))
  let b ← insnInsert b new ii
  pure { p with b, ri := p.ri + 1 }

/-- `spill_ref`. -/
def spillRef (p : Pass) (ii : Nat) (i : Insn) (idx : Fin 2) : Result Pass :=
  insertBefore p ii i idx (insnCreate .addr .i27 (.tmp p.ri) (i.input idx) .noclass 0)

/-- `spill_imm`. -/
def spillImm (p : Pass) (ii : Nat) (i : Insn) (idx : Fin 2) : Result Pass :=
  insertBefore p ii i idx (insnCreate .copy .i27 (.tmp p.ri) (i.input idx) .noclass 0)

/-- `correct_arith`. The second test of the source repeats the first. -/
def correctArith (p : Pass) (ii : Nat) (i : Insn) : Result Pass := do
  if i.in0.isImm then
    pure { p with b := ← setInsn p.b ii { i with in0 := i.in1, in1 := i.in0 } }
  else if i.in0.isImm then
    spillImm p ii i 0
  else
    pure p

/-- `correct_positional_arith`. -/
def correctPositionalArith (p : Pass) (ii : Nat) (i : Insn) : Result Pass :=
  if i.in0.isImm then spillImm p ii i 0 else pure p

/-- `correct_branch`. -/
def correctBranch (p : Pass) (ii : Nat) (i : Insn) : Result Pass :=
  if i.in0.isImm then spillImm p ii i 0
  else if i.in1.isImm then spillImm p ii i 1
  else pure p

/-- `correct_relations`. -/
def correctRelations (p : Pass) (ii : Nat) (i : Insn) : Result Pass :=
  if i.in0.isImm then spillImm p ii i 0 else pure p

/-- `correct_store`. -/
def correctStore (p : Pass) (ii : Nat) (i : Insn) : Result Pass :=
  if i.in1.isImm then spillImm p ii i 1 else pure p

/-- `correct_addr`. -/
def correctAddr (p : Pass) (i : Insn) : Result Pass := do
  if i.in0.isTmp then
    pure { p with rules := ← addRewriteRule p.rules i.in0 i.out }
  else
    pure p

/-- `load_rewrite`. -/
def loadRewrite (p : Pass) (ii : Nat) (i : Insn) (idx : Fin 2) : Result Pass := do
  let addr ← rewriteTmp p.rules (i.input idx)
  insertBefore p ii i idx (insnCreate .load .i27 (.tmp p.ri) addr .noclass 0)

/-- `store_rewrite`. Its caller drops the counter it returns. -/
def storeRewrite (p : Pass) (ii : Nat) (i : Insn) : Result Pass := do
  let addr ← rewriteTmp p.rules i.out
  let new := insnCreate .store .i27 (.tmp p.ri) addr .noclass 0
  let b ← setInsn p.b ii { i with out := .tmp p.ri }
  pure { p with b := ← insnInsert b new (ii + 1) }

/-- The part of `correct_insn` behind the rewriting of addressed locals. -/
def correctOperands (p : Pass) (ii : Nat) (i : Insn) : Result Pass :=
  if i.type ≠ .call ∧ i.in0.isRef then spillRef p ii i 0
  else if i.in1.isRef then spillRef p ii i 1
  else
    match i.type with
    | .add | .mul => correctArith p ii i
    | .sub | .div | .rem | .lshift | .rshift => correctPositionalArith p ii i
    | .beq | .bne | .ble | .bge | .blt | .bgt | .bnz | .bez => correctBranch p ii i
    | .lt | .le | .gt | .ge | .eq | .ne => correctRelations p ii i
    | .store => correctStore p ii i
    | .addr => correctAddr p i
    | _ => pure p

/-- `correct_insn`. -/
def correctInsn (p : Pass) (ii : Nat) (i : Insn) : Result Pass := do
  if hasRewriteRule p.rules i.in0 then
    loadRewrite p ii i 0
  else if hasRewriteRule p.rules i.in1 then
    loadRewrite p ii i 1
  else if hasRewriteRule p.rules i.out then
    correctOperands (← storeRewrite p ii i) ii i
  else
    correctOperands p ii i

/-- The loop over the instructions of a block from index `ii` on, which visits the
instructions inserted behind `ii` as well; `fuel` is the number of iterations it is
given. -/
def correctInsns : Nat → Nat → Pass → Result Pass
  | fuel, ii, p =>
    match p.b.insns[ii]? with
    | none => pure p
    | some i =>
      match fuel with
      | 0 => .error .diverged
      | fuel + 1 => do correctInsns fuel (ii + 1) (← correctInsn p ii i)

/-- The correction of `b->cmp[0]`. -/
def correctCmp0 (p : Pass) : Pass :=
  if p.b.cmp0.isImm then
    { p with
      b := { insadd p.b .copy .i27 (.tmp p.ri) p.b.cmp0 .noclass 0 with cmp0 := .tmp p.ri }
      ri := p.ri + 1 }
  else p

/-- The correction of `b->cmp[1]`, which copies `b->cmp[0]`. -/
def correctCmp1 (p : Pass) : Pass :=
  if p.b.cmp1.isImm then
    { p with
      b := { insadd p.b .copy .i27 (.tmp p.ri) p.b.cmp0 .noclass 0 with cmp1 := .tmp p.ri }
      ri := p.ri + 1 }
  else p

/-- `correct` for one block. -/
def correctBlk (fuel : Nat) (p : Pass) : Result Pass := do
  let p ← correctInsns fuel 0 p
  pure (correctCmp1 (correctCmp0 p))

/-- `correct` for the remaining blocks. -/
def correctBlks (fuel : Nat) : List Blk → List Val → Nat → Result (List Blk × Nat)
  | [], _, ri => pure ([], ri)
  | b :: rest, rules, ri => do
    let p ← correctBlk fuel { b, rules, ri }
    let (blks, ri) ← correctBlks fuel rest p.rules p.ri
    pure (p.b :: blks, ri)

/-- The immediate input that an instruction may not have, and that is copied into a
temporary. -/
def spilledImm (i : Insn) : Option (Fin 2 × InsnType) :=
  match i.type with
  | .sub | .div | .rem | .lshift | .rshift | .lt | .le | .gt | .ge | .eq | .ne =>
    if i.in0.isImm then some (0, .copy) else none
  | .beq | .bne | .ble | .bge | .blt | .bgt | .bnz | .bez =>
    if i.in0.isImm then some (0, .copy) else if i.in1.isImm then some (1, .copy) else none
  | .store => if i.in1.isImm then some (1, .copy) else none
  | _ => none

/-- The input that the operand corrections load into a temporary, and the instruction
that loads it. -/
def spilled (i : Insn) : Option (Fin 2 × InsnType) :=
  if i.type ≠ .call ∧ i.in0.isRef then some (0, .addr)
  else if i.in1.isRef then some (1, .addr)
  else spilledImm i

end Correct

/-- `correct`, with a bound on the instructions visited in each block. -/
def correct (fuel : Nat) (f : Fn) (ri : Nat) : Result (Fn × Nat) := do
  let (blks, ri) ← Correct.correctBlks fuel f.blks [] ri
  pure ({ f with blks }, ri)

/-- `optimize` stores the counter `correct` returns in the function it has corrected. -/
def Corrected (f g : Fn) : Prop :=
  ∃ fuel h ri, correct fuel f f.ntmp = .ok (h, ri) ∧ g = { h with ntmp := ri }

end Qbt
