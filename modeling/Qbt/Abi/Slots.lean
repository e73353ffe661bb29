import Qbt.Abi.Phases
import Qbt.IR.Semantics

/-!
# Slots and registers

Two readings of calls. Before `abi0`, parameters, call arguments, call results and
return values are four separate files of slots. Behind it there are only the argument
registers: a call receives the registers its set-up has written and may change all of
them, and a return hands over the registers written for it.
-/

namespace Qbt.Abi

variable {W M : Type}

/-- What calling does: from the address called, the arguments in the slots that were
passed and the rest of the machine, the results and the rest of the machine. -/
abbrev Callee (W M : Type) := W → (Nat → Option W) → M → (Nat → W) × M

/-- What an observer is shown of a function with calls. -/
inductive CallEvent (W : Type) where
  | insn (type : InsnType) (vtype : VType) (in0 in1 : W) (v : Int)
  | call (callee : W) (args : Nat → Option W)
  | branch (taken : Bool)
  | leave (returns : Nat → Option W)

/-- A state with the four files of slots. The arguments are those passed since the last
call. -/
structure SlotState (W M : Type) where
  core : State W M
  params : Nat → W
  args : Nat → Option W
  results : Nat → W
  returns : Nat → Option W

/-- The slot an instruction names. -/
def slot (n : Insn) : Nat :=
  match n.in1 with
  | .imm v _ => v.toNat
  | _ => 0

/-- Execute an instruction on the slots. -/
def SlotState.exec (S : Semantics W M) (call : Callee W M) (n : Insn) (state : SlotState W M) :
    SlotState W M :=
  match n.type with
  | .param => { state with core := state.core.write n.out (state.params (slot n)) }
  | .arg =>
    { state with
      args := Function.update state.args (slot n) (some (S.value state.core n.in0)) }
  | .call =>
    let called := call (S.value state.core n.in0) state.args state.core.world
    { state with
      core := { state.core with world := called.2 }
      results := called.1
      args := fun _ => none }
  | .retval => { state with core := state.core.write n.out (state.results (slot n)) }
  | .retarg =>
    { state with
      returns := Function.update state.returns (slot n) (some (S.value state.core n.in0)) }
  | _ => { state with core := S.exec n state.core }

/-- The reading with separate files of slots. -/
def slotInterp (S : Semantics W M) (call : Callee W M) : Interp (SlotState W M) (CallEvent W) where
  exec := SlotState.exec S call
  observe n state :=
    match n.type with
    | .param | .arg | .retval | .retarg => []
    | .call => [.call (S.value state.core n.in0) state.args]
    | type => [.insn type n.vtype (S.value state.core n.in0) (S.value state.core n.in1) n.v]
  taken type cmp0 cmp1 state := S.taken type (S.value state.core cmp0) (S.value state.core cmp1)
  decision taken := [.branch taken]
  assign params args state := { state with core := S.assign params args state.core }
  leave state := [.leave state.returns]
  assign_nil _ := rfl

/-- A state in which only registers are left. `passed` counts the moves of the set-up of
the next call, `returned` those that set up the return. -/
structure RegState (W M : Type) where
  core : State W M
  passed : Nat
  returned : Nat

/-- The first `count` argument registers. -/
def argRegs (state : RegState W M) (count : Nat) (k : Nat) : Option W :=
  if k < count then some (state.core.reg (ra k)) else none

/-- The registers behind a call: every argument register may have changed. -/
def afterCall (results : Nat → W) (reg : Nat → W) (r : Nat) : W :=
  if r ∈ arMap then results (arMap.idxOf r) else reg r

/-- Execute an instruction on the registers. -/
def RegState.exec (S : Semantics W M) (call : Callee W M) (n : Insn) (state : RegState W M) :
    RegState W M :=
  match n.type with
  | .call =>
    let called := call (S.value state.core n.in0) (argRegs state state.passed) state.core.world
    { state with
      core := { state.core with world := called.2, reg := afterCall called.1 state.core.reg }
      passed := 0 }
  | _ =>
    { core := S.exec n state.core
      passed := if n.out.isReg ∧ n.flags.callSetup then state.passed + 1 else state.passed
      returned := if n.out.isReg ∧ ¬ n.flags.callSetup then state.returned + 1
        else state.returned }

/-- The reading in which calls use the argument registers. Moves from and to them are
not observed. -/
def registerInterp (S : Semantics W M) (call : Callee W M) :
    Interp (RegState W M) (CallEvent W) where
  exec := RegState.exec S call
  observe n state :=
    match n.type with
    | .call => [.call (S.value state.core n.in0) (argRegs state state.passed)]
    | type =>
      if n.out.isReg ∨ n.in0.isReg then []
      else [.insn type n.vtype (S.value state.core n.in0) (S.value state.core n.in1) n.v]
  taken type cmp0 cmp1 state := S.taken type (S.value state.core cmp0) (S.value state.core cmp1)
  decision taken := [.branch taken]
  assign params args state := { state with core := S.assign params args state.core }
  leave state := [.leave (argRegs state state.returned)]
  assign_nil _ := rfl

/-- Behind a call the argument registers hold its results. -/
theorem afterCall_ra (results reg : Nat → W) {k : Nat} (inside : k < 24) :
    afterCall results reg (ra k) = results k := by
  have inside' : k < arMap.length := by rwa [arMap_length]
  have entry : arMap[k] = ra k := by
    have found := getElem?_arMap inside
    rwa [List.getElem?_eq_getElem inside', Option.some.injEq] at found
  rw [afterCall, ← entry, if_pos (List.getElem_mem inside'), arMap_nodup.idxOf_getElem]

/-- What the role of an instruction says about its operands. -/
inductive HasRole (n : Insn) : Role → Prop where
  | param {t k : Nat} {type : VType} (isParam : n.type = .param) (out : n.out = .tmp t)
      (in1 : n.in1 = .imm k type) (inside : k < 24) : HasRole n (.param k)
  | retval {t k : Nat} {type : VType} (isRetval : n.type = .retval) (out : n.out = .tmp t)
      (in1 : n.in1 = .imm k type) (inside : k < 24) : HasRole n (.retval k)
  | arg {k : Nat} {type : VType} (isArg : n.type = .arg) (in0 : n.in0.isTmp ∨ n.in0.isImm)
      (in1 : n.in1 = .imm k type) (inside : k < 24) : HasRole n (.arg k)
  | retarg {k : Nat} {type : VType} (isRetarg : n.type = .retarg)
      (in0 : n.in0.isTmp ∨ n.in0.isImm) (in1 : n.in1 = .imm k type) (inside : k < 24) :
      HasRole n (.retarg k)
  | call (isCall : n.type = .call) (in0 : n.in0.isReg = false) : HasRole n .call
  | plain (other : n.type.isConvention = false) (out : n.out.isReg = false)
      (in0 : n.in0.isReg = false) (in1 : n.in1.isReg = false) : HasRole n .plain

private theorem slot?_eq_some {n : Insn} {k : Nat} (named : slot? n = some k) :
    k < 24 ∧ ∃ type, n.in1 = .imm k type := by
  unfold slot? at named
  cases in1 : n.in1 with
  | imm v type =>
    simp only [in1] at named
    split at named
    · rename_i range
      obtain rfl : v.toNat = k := Option.some.inj named
      refine ⟨by omega, type, ?_⟩
      rw [Int.toNat_of_nonneg range.1]
    · cases named
  | _ => simp [in1] at named

/-- A known role fixes the operands of the instruction. -/
theorem hasRole {n : Insn} {r : Role} (known : role n = some r) : HasRole n r := by
  unfold role at known
  cases type : n.type with
  | param | retval =>
    simp only [type] at known
    split at known
    · rename_i classes
      obtain ⟨t, out⟩ := Val.isTmp_iff.mp classes.1
      obtain ⟨k, named, rfl⟩ := Option.map_eq_some_iff.mp known
      obtain ⟨inside, _, in1⟩ := slot?_eq_some named
      first
        | exact .param type out in1 inside
        | exact .retval type out in1 inside
    · cases known
  | arg | retarg =>
    simp only [type] at known
    split at known
    · rename_i classes
      obtain ⟨k, named, rfl⟩ := Option.map_eq_some_iff.mp known
      obtain ⟨inside, _, in1⟩ := slot?_eq_some named
      first
        | exact .arg type classes.2 in1 inside
        | exact .retarg type classes.2 in1 inside
    · cases known
  | call =>
    simp only [type] at known
    split at known
    · rename_i classes
      obtain rfl : Role.call = r := Option.some.inj known
      refine .call type ?_
      cases in0 : n.in0 <;> simp_all [Val.isTmp, Val.isRef]
    · cases known
  | _ =>
    simp only [type] at known
    split at known
    · cases known
    · rename_i classes
      obtain rfl : Role.plain = r := Option.some.inj known
      simp only [not_or, Bool.not_eq_true] at classes
      exact .plain (by rw [type]; rfl) classes.1 classes.2.1 classes.2.2

end Qbt.Abi
