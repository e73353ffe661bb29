import Qbt.IR.Nodes

/-!
# Operands before register allocation

Up to `abi0` an operand is a temporary below the function's counter, an immediate,
a symbol reference or absent; registers and memory operands do not occur.
-/

namespace Qbt

/-- An operand that is no register or memory operand and, if it is a temporary, is
numbered below `bound`. -/
def Val.Below (bound : Nat) : Val → Prop
  | .tmp t => t < bound
  | .imm _ _ | .ref _ | .noclass => True
  | .reg _ | .mem _ _ => False

namespace Val

variable {bound : Nat}

@[simp] theorem below_tmp {t : Nat} : (Val.tmp t).Below bound ↔ t < bound := Iff.rfl

@[simp] theorem below_imm {v : Int} {type : VType} : (Val.imm v type).Below bound := trivial

@[simp] theorem below_ref {s : String} : (Val.ref s).Below bound := trivial

@[simp] theorem below_noclass : Val.noclass.Below bound := trivial

theorem Below.mono {bound' : Nat} (le : bound ≤ bound') {v : Val} (below : v.Below bound) :
    v.Below bound' := by
  cases v with
  | tmp t => exact Nat.lt_of_lt_of_le below le
  | reg r => exact below
  | mem base offset => exact below
  | _ => trivial

/-- A bounded value is no register. -/
theorem Below.isReg {v : Val} (below : v.Below bound) : v.isReg = false := by
  cases v with
  | reg r => exact below.elim
  | _ => rfl

end Val

/-- All operands of an instruction are below `bound`. -/
structure Insn.Below (bound : Nat) (n : Insn) : Prop where
  out : n.out.Below bound
  in0 : n.in0.Below bound
  in1 : n.in1.Below bound

theorem Insn.Below.mono {bound bound' : Nat} (le : bound ≤ bound') {n : Insn}
    (below : n.Below bound) : n.Below bound' :=
  ⟨below.out.mono le, below.in0.mono le, below.in1.mono le⟩

/-- All operands of a block are below `bound`. -/
structure Blk.Below (bound : Nat) (b : Blk) : Prop where
  insns : ∀ n ∈ b.insns, n.Below bound
  cmp0 : b.cmp0.Below bound
  cmp1 : b.cmp1.Below bound

theorem Blk.Below.mono {bound bound' : Nat} (le : bound ≤ bound') {b : Blk}
    (below : b.Below bound) : b.Below bound' :=
  ⟨fun n member => (below.insns n member).mono le, below.cmp0.mono le, below.cmp1.mono le⟩

end Qbt
