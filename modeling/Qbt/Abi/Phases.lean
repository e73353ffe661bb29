import Qbt.Abi.Abi0
import Qbt.IR.Layout

/-!
# The shape of a block's calls

The instructions that read and pass parameters, arguments and results come in a fixed
order in every block: parameters first, then plain instructions, and at the end either
one call between its arguments and its results, or the values of a return. `Phase` is
where in this order a block stands.
-/

namespace Qbt.Abi

/-- What an instruction does to the slots. -/
inductive Role where
  | param (slot : Nat)
  | arg (slot : Nat)
  | call
  | retval (slot : Nat)
  | retarg (slot : Nat)
  | plain
deriving DecidableEq, Repr

/-- The slot an instruction names, if it has a register. -/
def slot? (n : Insn) : Option Nat :=
  match n.in1 with
  | .imm v _ => if 0 ≤ v ∧ v < 24 then some v.toNat else none
  | _ => none

/-- The role of an instruction whose operands are of the classes the parser inserts. -/
def role (n : Insn) : Option Role :=
  match n.type with
  | .param => if n.out.isTmp ∧ n.in0 = .noclass then (slot? n).map .param else none
  | .retval => if n.out.isTmp ∧ n.in0 = .noclass then (slot? n).map .retval else none
  | .arg => if n.out = .noclass ∧ (n.in0.isTmp ∨ n.in0.isImm) then (slot? n).map .arg else none
  | .retarg =>
    if n.out = .noclass ∧ (n.in0.isTmp ∨ n.in0.isImm) then (slot? n).map .retarg else none
  | .call =>
    if n.out = .noclass ∧ (n.in0.isTmp ∨ n.in0.isRef) ∧ n.in1 = .noclass then some .call
    else none
  | _ => if n.out.isReg ∨ n.in0.isReg ∨ n.in1.isReg then none else some .plain

/-- Where in its order a block stands. -/
inductive Phase where
  /-- parameters may still be read -/
  | params
  /-- `count` arguments of a call have been passed -/
  | args (count : Nat)
  /-- a call has returned -/
  | results
  /-- `count` values of a return have been passed -/
  | returns (count : Nat)
deriving DecidableEq, Repr

/-- The phase behind an instruction. Plain code is the phase of no arguments. -/
def Phase.next : Phase → Role → Option Phase
  | .params, .param _ => some .params
  | .params, .plain => some (.args 0)
  | .args 0, .plain => some (.args 0)
  | .params, .arg 0 => some (.args 1)
  | .args count, .arg slot => if slot = count then some (.args (count + 1)) else none
  | .params, .call => some .results
  | .args _, .call => some .results
  | .results, .retval _ => some .results
  | .params, .retarg 0 => some (.returns 1)
  | .args 0, .retarg 0 => some (.returns 1)
  | .returns count, .retarg slot =>
    if slot = count then some (.returns (count + 1)) else none
  | _, _ => none

/-- The phase behind a list of instructions. -/
def phaseAfter (phase : Phase) (insns : List Insn) : Option Phase :=
  insns.foldlM (fun phase n => (role n).bind phase.next) phase

/-- A block may end in this phase: the arguments of a call are followed by the call,
return values are passed in return blocks only, and what compares with an immediate ends
in plain code. -/
def Phase.Ends (b : Blk) : Phase → Prop
  | .params => True
  | .args count => count = 0
  | .results => ¬ b.cmp0.isImm ∧ ¬ b.cmp1.isImm
  | .returns _ => b.isReturn ∧ ¬ b.cmp0.isImm ∧ ¬ b.cmp1.isImm

/-- The calls of a block are in order. -/
def Ordered (b : Blk) : Prop :=
  ∃ phase, phaseAfter .params b.insns = some phase ∧ phase.Ends b

/-- A list of instructions reads parameters. -/
def ReadsParams (insns : List Insn) : Prop := ∃ n ∈ insns, n.type = .param

/-- The calls of a function are in order, its parameters are read in a block that no edge
leads to, and its branches compare no registers. -/
structure CallShape (f : Fn) : Prop where
  blocks : ∀ b ∈ f.blks, Ordered b
  params : ∀ b ∈ f.blks, ReadsParams b.insns → ∀ id, ¬ Edge f id b.id
  cmps : ∀ b ∈ f.blks, b.cmp0.isReg = false ∧ b.cmp1.isReg = false

section Phases

variable {phase : Phase} {insns : List Insn}

@[simp] theorem phaseAfter_nil (phase : Phase) : phaseAfter phase [] = some phase := rfl

theorem phaseAfter_cons (phase : Phase) (n : Insn) (insns : List Insn) :
    phaseAfter phase (n :: insns) =
      ((role n).bind phase.next).bind fun next => phaseAfter next insns := rfl

/-- The phase behind two runs of instructions is that behind the second, from the first on. -/
theorem phaseAfter_append (phase : Phase) (first second : List Insn) :
    phaseAfter phase (first ++ second) =
      (phaseAfter phase first).bind fun next => phaseAfter next second := by
  simp only [phaseAfter, List.foldlM_append]
  rfl

/-- Instructions that do not leave the phase. -/
theorem phaseAfter_stay (stays : ∀ n ∈ insns, (role n).bind phase.next = some phase) :
    phaseAfter phase insns = some phase := by
  induction insns with
  | nil => rfl
  | cons n rest ih =>
    rw [phaseAfter_cons, stays n List.mem_cons_self]
    exact ih fun m member => stays m (List.mem_cons_of_mem _ member)

/-- Instructions for consecutive slots count up the phase. -/
theorem phaseAfter_count {α : Type} (count : Nat → Phase) {f : Nat → α → Insn}
    {items : List α} (offset : Nat) (counts : ∀ k a, k < offset + items.length → a ∈ items →
      (role (f k a)).bind (count k).next = some (count (k + 1))) :
    phaseAfter (count offset) (items.mapIdx fun i a => f (i + offset) a) =
      some (count (offset + items.length)) := by
  induction items generalizing offset with
  | nil => rfl
  | cons a rest ih =>
    have first := counts offset a (by simp) List.mem_cons_self
    have others := ih (offset + 1) fun k b inside member =>
      counts k b (by simp only [List.length_cons]; omega) (List.mem_cons_of_mem _ member)
    simp only [List.mapIdx_cons, phaseAfter_cons, Nat.zero_add, first, Option.bind_some,
      List.length_cons]
    rw [show offset + (rest.length + 1) = offset + 1 + rest.length by omega, ← others]
    congr 2
    funext i b
    rw [show i + 1 + offset = i + (offset + 1) by omega]

/-- In front of anything but a parameter, the block may as well stand in plain code. -/
theorem next_params {r : Role} (other : ∀ slot, r ≠ .param slot) :
    Phase.next .params r = Phase.next (.args 0) r := by
  cases r with
  | param slot => exact absurd rfl (other slot)
  | arg slot => cases slot <;> simp [Phase.next]
  | retarg slot => cases slot <;> simp [Phase.next]
  | _ => rfl

/-- What follows plain code may follow the parameters. -/
theorem phaseAfter_params {n : Insn} (other : n.type ≠ .param) (insns : List Insn) :
    phaseAfter .params (n :: insns) = phaseAfter (.args 0) (n :: insns) := by
  rw [phaseAfter_cons, phaseAfter_cons]
  congr 1
  cases known : role n with
  | none => rfl
  | some r =>
    refine next_params fun slot same => ?_
    subst r
    unfold role at known
    split at known <;> simp_all

/-- Plain code, from its start or from the parameters. -/
theorem phaseAfter_plain (plain : ∀ n ∈ insns, role n = some .plain) :
    phaseAfter (.args 0) insns = some (.args 0) :=
  phaseAfter_stay fun n member => by rw [plain n member]; rfl

end Phases

end Qbt.Abi
