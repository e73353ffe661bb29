import Qbt.IR.Nodes
import Mathlib.Data.Set.Insert

/-!
# Uses and definitions of temporaries
-/

namespace Qbt

namespace Val

/-- The temporaries among one operand. -/
def temps (v : Val) : Set Nat := { t | v = .tmp t }

@[simp] theorem mem_temps {v : Val} {t : Nat} : t ∈ v.temps ↔ v = .tmp t := Iff.rfl

end Val

/-- The temporaries in a list of operands. -/
def tempsOf (values : List Val) : Set Nat := { t | .tmp t ∈ values }

@[simp] theorem mem_tempsOf {values : List Val} {t : Nat} :
    t ∈ tempsOf values ↔ .tmp t ∈ values := Iff.rfl

@[simp] theorem tempsOf_nil : tempsOf [] = ∅ := by
  ext t
  simp

/-- The temporaries an instruction reads. -/
def Insn.reads (n : Insn) : Set Nat := n.in0.temps ∪ n.in1.temps

/-- The temporary an instruction writes. -/
def Insn.writes (n : Insn) : Set Nat := n.out.temps

/-- The temporaries that occur in an instruction. -/
def Insn.mentions (n : Insn) : Set Nat := n.reads ∪ n.writes

/-- The temporaries a list of instructions writes. -/
def definedIn (insns : List Insn) : Set Nat := { t | ∃ n ∈ insns, t ∈ n.writes }

/-- The temporaries a list of instructions reads before it writes them. -/
def exposedIn : List Insn → Set Nat
  | [] => ∅
  | n :: rest => n.reads ∪ (exposedIn rest \ n.writes)

@[simp] theorem definedIn_nil : definedIn [] = ∅ := by
  ext t
  simp [definedIn]

@[simp] theorem definedIn_cons (n : Insn) (rest : List Insn) :
    definedIn (n :: rest) = n.writes ∪ definedIn rest := by
  ext t
  simp [definedIn]

namespace Blk

/-- The temporaries the comparison of a block reads. -/
def compared (b : Blk) : Set Nat := b.cmp0.temps ∪ b.cmp1.temps

/-- The temporaries that occur in a block. -/
def mentions (b : Blk) : Set Nat :=
  { t | ∃ n ∈ b.insns, t ∈ n.mentions } ∪ b.compared ∪ tempsOf b.params ∪ tempsOf b.args1 ∪
    tempsOf b.args2

/-- The temporaries a block defines. -/
def defined (b : Blk) : Set Nat := definedIn b.insns

/-- The temporaries a block reads before it defines them, the comparison included. -/
def exposed (b : Blk) : Set Nat := exposedIn b.insns ∪ (b.compared \ b.defined)

end Blk
end Qbt
