import Qbt.IR.Semantics
import Qbt.Regalloc.Shape
import Qbt.Std.Interference

/-!
# Values in registers

Code whose temporaries are replaced by registers computes what the original computes, as long as
no instruction writes a register while it holds a value that is still to be read.
-/

namespace Qbt

open Interference

/-- An operand that can be written. -/
def Val.IsPlace (v : Val) : Prop := v.isTmp ∨ v.isReg

instance (v : Val) : Decidable v.IsPlace := inferInstanceAs (Decidable (_ ∨ _))

/-- What an instruction reads and writes. A MOVE copies its operand. -/
def Insn.line (n : Insn) : Line Val where
  reads := { v | v.IsPlace ∧ (v = n.in0 ∨ v = n.in1) }
  write := if n.out.IsPlace then some n.out else none
  copied := if n.type = .move ∧ n.vtype = .i27 then some n.in0 else none

/-- A line writes the output, if that is a place. -/
theorem Insn.line_write {n : Insn} {v : Val} :
    n.line.write = some v ↔ n.out = v ∧ v.IsPlace := by
  unfold Insn.line
  by_cases place : n.out.IsPlace
  · simp only [if_pos place, Option.some.injEq]
    exact ⟨fun same => ⟨same, same ▸ place⟩, And.left⟩
  · simp only [if_neg place, reduceCtorEq, false_iff]
    rintro ⟨same, place'⟩
    exact place (same ▸ place')

namespace Semantics

variable {W M : Type} (S : Semantics W M)

/-- What is no place has the same value in every state. -/
theorem value_of_not_isPlace {v : Val} (other : ¬ v.IsPlace) (state state' : State W M) :
    S.value state' v = S.value state v := by
  cases v with
  | tmp t => exact absurd (Or.inl rfl) other
  | reg r => exact absurd (Or.inr rfl) other
  | _ => rfl

/-- The word an instruction computes. -/
def result (n : Insn) (state : State W M) : W :=
  (S.effect n.type n.vtype (S.value state n.in0) (S.value state n.in1) n.v state.world).1

private theorem value_exec (n : Insn) (state : State W M) (v : Val) :
    S.value (S.exec n state) v = S.value (state.write n.out (S.result n state)) v := by
  cases v <;> rfl

/-- An instruction writes its result to its output. -/
theorem value_exec_self {n : Insn} (place : n.out.IsPlace) (state : State W M) :
    S.value (S.exec n state) n.out = S.result n state := by
  rw [S.value_exec, S.value_write_self state place]

/-- An instruction writes nothing else. -/
theorem value_exec_of_ne {n : Insn} {v : Val} (other : n.line.write ≠ some v) (state : State W M) :
    S.value (S.exec n state) v = S.value state v := by
  by_cases place : v.IsPlace
  · rw [S.value_exec, S.value_write_of_ne]
    exact fun same => other (Insn.line_write.mpr ⟨same.symm, place⟩)
  · exact S.value_of_not_isPlace place _ _

variable {S}

/-- A MOVE yields its operand. -/
theorem Lawful.result_copied (lawful : S.Lawful) {n : Insn} {v : Val}
    (copied : n.line.copied = some v) (state : State W M) : S.result n state = S.value state v := by
  unfold Insn.line at copied
  dsimp only at copied
  split at copied
  · rename_i moves
    obtain rfl := Option.some.inj copied
    rw [result, moves.1, moves.2, lawful.move]
  · cases copied

end Semantics

namespace Regalloc

variable {W M : Type} {S : Semantics W M} {rmap : List Val}

/-- What replaces an operand is its register. -/
theorem rewriteUse_eq {v v' : Val} (rewritten : rewriteUse rmap v = .ok v') :
    v' = registerOf rmap v := by
  unfold rewriteUse at rewritten
  split at rewritten
  · obtain ⟨t, rfl, rule, -⟩ := rewriteTmp_eq_ok.mp rewritten
    exact rule.symm
  · cases rewritten
    cases v with
    | tmp t => rename_i noTmp; exact absurd rfl noTmp
    | _ => rfl

/-- What is no place stands for itself. -/
theorem registerOf_of_not_isPlace {v : Val} (other : ¬ v.IsPlace) : registerOf rmap v = v := by
  cases v with
  | tmp t => exact absurd (Or.inl rfl) other
  | _ => rfl

/-- What replaces a place is a place, and nothing else is. -/
theorem rewriteUse_isPlace {v v' : Val} (rules : RulesIn rmap)
    (rewritten : rewriteUse rmap v = .ok v') : v'.IsPlace ↔ v.IsPlace := by
  rcases rewriteUse_allocable rules rewritten with ⟨isTmp, r, -, rfl⟩ | ⟨-, rfl⟩
  · exact ⟨fun _ => Or.inl isTmp, fun _ => Or.inr rfl⟩
  · exact Iff.rfl

/-- The states before and behind register allocation: the registers hold the values of the
places `live`. -/
structure Holds (S : Semantics W M) (rmap : List Val) (live : Set Val) (state state' : State W M) :
    Prop where
  world : state'.world = state.world
  values : Interference.Agree (registerOf rmap) live (S.value state) (S.value state')

section Step

variable {n n' : Insn} {rest : List (Line Val)} {out : Set Val} {state state' : State W M}

/-- Operands that are read have the same value on both sides. -/
theorem Holds.operand (holds : Holds S rmap (live (n.line :: rest) out) state state')
    {v v' : Val} (operand : v = n.in0 ∨ v = n.in1) (rewritten : rewriteUse rmap v = .ok v') :
    S.value state' v' = S.value state v := by
  by_cases place : v.IsPlace
  · rw [rewriteUse_eq rewritten]
    exact holds.values v (Or.inl ⟨place, operand⟩)
  · rw [rewriteUse_eq rewritten, registerOf_of_not_isPlace place]
    exact S.value_of_not_isPlace place _ _

/-- One instruction. -/
theorem Holds.step (lawful : S.Lawful) (rules : RulesIn rmap)
    (holds : Holds S rmap (live (n.line :: rest) out) state state')
    (coloured : Coloured (registerOf rmap) (n.line :: rest) out)
    (rewritten : rewriteInsn rmap n = .ok n') :
    Holds S rmap (live rest out) (S.exec n state) (S.exec n' state') := by
  simp only [rewriteInsn, Result.bind_eq_ok, Result.pure_eq, Except.ok.injEq] at rewritten
  obtain ⟨in0, first, in1, second, target, third, rfl⟩ := rewritten
  have same0 := holds.operand (Or.inl rfl) first
  have same1 := holds.operand (Or.inr rfl) second
  have result : S.result { n with in0, in1, out := target } state' = S.result n state := by
    simp only [Semantics.result, same0, same1, holds.world]
  refine ⟨by simp only [Semantics.exec, same0, same1, holds.world], ?_⟩
  refine holds.values.step coloured (w := S.result n state) {
    place := ?_
    others := fun v other => S.value_exec_of_ne other state
    others' := ?_
    copied := fun v copied => lawful.result_copied copied state }
  · intro v written
    obtain ⟨rfl, place⟩ := Insn.line_write.mp written
    have place' : target.IsPlace := (rewriteUse_isPlace rules third).mpr place
    refine ⟨S.value_exec_self place state, ?_⟩
    rw [← rewriteUse_eq third, ← result]
    exact S.value_exec_self (n := { n with in0, in1, out := target }) place' state'
  · intro x others
    refine S.value_exec_of_ne (n := { n with in0, in1, out := target }) ?_ state'
    intro written
    obtain ⟨same, place⟩ := Insn.line_write.mp written
    have same : target = x := same
    have place' : n.out.IsPlace := (rewriteUse_isPlace rules third).mp (same ▸ place)
    exact others n.out (Insn.line_write.mpr ⟨rfl, place'⟩) ((rewriteUse_eq third).symm.trans same)

end Step

/-- Execute instructions one behind the other. -/
def execAll (S : Semantics W M) (insns : List Insn) (state : State W M) : State W M :=
  insns.foldl (fun state n => S.exec n state) state

/-- Straight-line code. -/
theorem Holds.run (lawful : S.Lawful) (rules : RulesIn rmap) {insns insns' : List Insn}
    {out : Set Val} {state state' : State W M}
    (holds : Holds S rmap (live (insns.map Insn.line) out) state state')
    (coloured : Coloured (registerOf rmap) (insns.map Insn.line) out)
    (rewritten : List.Forall₂ (fun n n' => rewriteInsn rmap n = .ok n') insns insns') :
    Holds S rmap out (execAll S insns state) (execAll S insns' state') := by
  induction rewritten generalizing state state' with
  | nil => exact holds
  | cons head _ ih => exact ih (holds.step lawful rules coloured head) coloured.tail

end Regalloc
end Qbt
