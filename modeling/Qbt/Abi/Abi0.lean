import Qbt.Abi.Registers
import Qbt.IR.Nodes
import Qbt.Std.Lists

/-!
# Parameters, arguments and results in registers

`src/abi.c`: `abi0` replaces the instructions that read parameters and results and pass
arguments and return values by moves from and to argument registers.
-/

namespace Qbt

namespace Abi

/-- `nth_ar`. -/
def nthAr (nth : Nat) : Result Val :=
  match arMap[nth]? with
  | some r => .ok (.reg r)
  | none => .error .overread

/-- The checks on `n.in[1]`, and the slot it names. -/
def slotOf (n : Insn) : Result Nat := do
  match n.in1 with
  | .imm v _ =>
    Result.check (0 ≤ v ∧ v < 25) .stackSlot
    pure v.toNat
  | _ => .error .valClass

/-- `rewrite_param`. -/
def rewriteParam (n : Insn) : Result Insn := do
  pure (insnCreate .move .i27 n.out (← nthAr (← slotOf n)) .noclass 0)

/-- `rewrite_retval`. -/
def rewriteRetval (n : Insn) : Result Insn := do
  pure { insnCreate .move .i27 n.out (← nthAr (← slotOf n)) .noclass 0 with
    flags := { callTeardown := true } }

/-- What `rewrite_arg` and `rewrite_retarg` share: a register or temporary is moved to
the slot's register, an immediate or reference is copied. -/
def passIn (n : Insn) : Result Insn := do
  let r ← nthAr (← slotOf n)
  match n.in0 with
  | .tmp _ | .reg _ => pure (insnCreate .move .i27 r n.in0 .noclass 0)
  | .imm _ _ | .ref _ => pure (insnCreate .copy .i27 r n.in0 .noclass 0)
  | _ => .error .illegalOperand

/-- `rewrite_arg`. -/
def rewriteArg (n : Insn) : Result Insn := do
  pure { ← passIn n with flags := { callSetup := true } }

/-- `rewrite_retarg`. -/
def rewriteRetarg (n : Insn) : Result Insn := passIn n

/-- `abi0` for one instruction. -/
def rewriteInsn (n : Insn) : Result Insn :=
  match n.type with
  | .param => rewriteParam n
  | .retval => rewriteRetval n
  | .arg => rewriteArg n
  | .retarg => rewriteRetarg n
  | .call => pure { n with flags := { callTeardown := true, callSetup := true } }
  | _ => pure n

/-- `abi0` for one block. -/
def rewriteBlk (b : Blk) : Result Blk := do
  pure { b with insns := ← b.insns.mapM rewriteInsn }

end Abi

/-- `abi0`. -/
def abi0 (f : Fn) : Result Fn := do
  pure { f with blks := ← f.blks.mapM Abi.rewriteBlk }

namespace Abi

/-- The registers of slots 0 to 23 are read inside `ar_map`. -/
theorem nthAr_eq {k : Nat} (inside : k < 24) : nthAr k = .ok (.reg (ra k)) := by
  simp [nthAr, getElem?_arMap inside]

/-- The slot of a call instruction is the immediate it names. -/
theorem slotOf_eq {n : Insn} {k : Nat} {type : VType} (slot : n.in1 = .imm k type)
    (inside : k < 24) : slotOf n = .ok k := by
  have range : ((0 : Int) ≤ k ∧ (k : Int) < 25) := by omega
  simp [slotOf, slot, Result.check, range]

/-- A rewritten block differs from the original in its instructions. -/
theorem rewriteBlk_eq_ok {b b' : Blk} : rewriteBlk b = .ok b' ↔
    ∃ insns, List.Forall₂ (fun n n' => rewriteInsn n = .ok n') b.insns insns ∧
      b' = { b with insns } := by
  simp only [rewriteBlk, Result.bind_eq_ok, Result.pure_eq, Except.ok.injEq, Result.mapM_eq_ok,
    eq_comm (b := b')]

/-- The blocks of the second function are the rewritten blocks of the first. -/
abbrev RewrittenBlks (f f' : Fn) : Prop :=
  List.Forall₂ (fun b b' => rewriteBlk b = .ok b') f.blks f'.blks

/-- `abi0` replaces the instructions of each block one by one. -/
theorem abi0_rewritten {f f' : Fn} (returned : abi0 f = .ok f') : RewrittenBlks f f' := by
  simp only [abi0, Result.bind_eq_ok, Result.pure_eq, Except.ok.injEq] at returned
  obtain ⟨blks, mapped, rfl⟩ := returned
  exact Result.mapM_eq_ok.mp mapped

/-- A rewritten block is found under its old pointer. -/
theorem RewrittenBlks.find? {f f' : Fn} (rewritten : RewrittenBlks f f') {id : Nat} {b : Blk}
    (found : f.find? id = some b) : ∃ b', f'.find? id = some b' ∧ rewriteBlk b = .ok b' :=
  Lists.find?_forall₂ rewritten
    (fun b b' same => by obtain ⟨_, _, rfl⟩ := rewriteBlk_eq_ok.mp same; rfl) found

end Abi
end Qbt
