import Qbt.Abi.KeepsShape
import Qbt.Abi.Slots

/-!
# Slots become registers

`abi0` lets four files of slots share the argument registers. Within a block the order
of its calls says at every point which file the registers hold: the parameters until the
first other instruction, the arguments passed so far until the call, its results behind
it, or the return values passed so far.
-/

namespace Qbt.Abi

variable {W M : Type} {S : Semantics W M} {call : Callee W M}

/-- The temporaries and the rest of the machine are the same. -/
structure SameCore (core core' : State W M) : Prop where
  tmp : core'.tmp = core.tmp
  world : core'.world = core.world

namespace SameCore

variable {core core' : State W M}

/-- What is no register has the same value. -/
theorem value (same : SameCore core core') {v : Val} (noReg : v.isReg = false) :
    S.value core' v = S.value core v := by
  cases v with
  | reg r => cases noReg
  | tmp t => exact congrFun same.tmp t
  | _ => rfl

/-- The same write keeps the states the same. -/
theorem write (same : SameCore core core') (v : Val) (w : W) :
    SameCore (core.write v w) (core'.write v w) := by
  refine ⟨?_, by simp [same.world]⟩
  cases v with
  | tmp t =>
    funext u
    simp [same.tmp]
  | _ => exact same.tmp

/-- A register may be written on one side. -/
theorem write_reg (same : SameCore core core') (r : Nat) (w : W) :
    SameCore core (core'.write (.reg r) w) :=
  ⟨same.tmp, same.world⟩

/-- An instruction that reads no register does the same. -/
theorem exec (same : SameCore core core') {n : Insn} (in0 : n.in0.isReg = false)
    (in1 : n.in1.isReg = false) : SameCore (S.exec n core) (S.exec n core') := by
  simp only [Semantics.exec, same.value in0, same.value in1, same.world]
  exact ⟨(same.write n.out _).tmp, rfl⟩

private theorem writes (same : SameCore core core') (entries : List (Val × W)) :
    SameCore (entries.foldl (fun state entry => state.write entry.1 entry.2) core)
      (entries.foldl (fun state entry => state.write entry.1 entry.2) core') := by
  induction entries generalizing core core' with
  | nil => exact same
  | cons entry rest ih => exact ih (same.write entry.1 entry.2)

/-- Block arguments that are no registers are handed over the same. -/
theorem assign (same : SameCore core core') (params : List Val) {args : List Val}
    (noRegs : ∀ a ∈ args, a.isReg = false) :
    SameCore (S.assign params args core) (S.assign params args core') := by
  have values : args.map (S.value core') = args.map (S.value core) :=
    List.map_congr_left fun a member => same.value (noRegs a member)
  unfold Semantics.assign
  rw [values]
  exact same.writes _

end SameCore

/-- `passed` arguments and `returned` return values are in registers, and the
corresponding slots are full. -/
structure Files (passed returned : Nat) (state : SlotState W M) (state' : RegState W M) :
    Prop where
  core : SameCore state.core state'.core
  countPassed : state'.passed = passed
  countReturned : state'.returned = returned
  args : state.args = argRegs state' passed
  returns : state.returns = argRegs state' returned

/-- What the registers hold in each phase of a block. `reads` says whether the block
reads parameters. -/
def InPhase (reads : Prop) (phase : Phase) (state : SlotState W M) (state' : RegState W M) :
    Prop :=
  match phase with
  | .params =>
    Files 0 0 state state' ∧ (reads → ∀ k < 24, state'.core.reg (ra k) = state.params k)
  | .args count => Files count 0 state state'
  | .results => Files 0 0 state state' ∧ ∀ k < 24, state'.core.reg (ra k) = state.results k
  | .returns count => Files 0 count state state'

section Rewrites

variable {n : Insn} {k : Nat} {type : VType}

/-- A parameter is moved out of its argument register. -/
theorem rewriteParam_eq (isParam : n.type = .param) (in1 : n.in1 = .imm k type)
    (inside : k < 24) :
    rewriteInsn n = .ok (insnCreate .move .i27 n.out (.reg (ra k)) .noclass 0) := by
  simp [rewriteInsn, isParam, rewriteParam, slotOf_eq in1 inside, nthAr_eq inside]

/-- A result is moved out of its argument register, as part of the tear-down. -/
theorem rewriteRetval_eq (isRetval : n.type = .retval) (in1 : n.in1 = .imm k type)
    (inside : k < 24) :
    rewriteInsn n = .ok { insnCreate .move .i27 n.out (.reg (ra k)) .noclass 0 with
      flags := { callTeardown := true } } := by
  simp [rewriteInsn, isRetval, rewriteRetval, slotOf_eq in1 inside, nthAr_eq inside]

/-- A temporary is moved, an immediate is copied. -/
theorem passIn_eq (in0 : n.in0.isTmp ∨ n.in0.isImm) (in1 : n.in1 = .imm k type)
    (inside : k < 24) : ∃ how, (how = .move ∨ how = .copy) ∧
      passIn n = .ok (insnCreate how .i27 (.reg (ra k)) n.in0 .noclass 0) := by
  cases operand : n.in0 with
  | tmp t =>
    exact ⟨.move, Or.inl rfl, by simp [passIn, slotOf_eq in1 inside, nthAr_eq inside, operand]⟩
  | imm v type' =>
    exact ⟨.copy, Or.inr rfl, by simp [passIn, slotOf_eq in1 inside, nthAr_eq inside, operand]⟩
  | _ => simp [operand, Val.isTmp, Val.isImm] at in0

/-- Instructions outside the convention stay as they are. -/
theorem rewriteOther_eq (other : n.type.isConvention = false) : rewriteInsn n = .ok n := by
  unfold rewriteInsn
  cases type : n.type <;> first | rfl | (rw [type] at other; cases other)

/-- A move or copy yields its operand. -/
theorem exec_transfer (lawful : S.Lawful) {how : InsnType} (transfers : how = .move ∨ how = .copy)
    (out in0 : Val) (flags : Flags) (core : State W M) :
    S.exec { insnCreate how .i27 out in0 .noclass 0 with flags } core =
      core.write out (S.value core in0) := by
  rcases transfers with rfl | rfl
  · simp only [Semantics.exec, insnCreate, lawful.move, State.write_with_world]
  · simp only [Semantics.exec, insnCreate, lawful.copy, State.write_with_world]

end Rewrites

section Step

variable {reads : Prop} {state : SlotState W M} {state' : RegState W M} {n : Insn}

/-- The registers of the slots below `k` are not the register of slot `k`. -/
private theorem argRegs_write {k : Nat} (inside : k < 24) (state' : RegState W M) (w : W)
    (passed returned : Nat) :
    argRegs { core := state'.core.write (.reg (ra k)) w, passed, returned } (k + 1) =
      Function.update (argRegs state' k) k (some w) := by
  funext j
  unfold argRegs
  by_cases same : j = k
  · subst j
    simp
  · rw [Function.update_of_ne same]
    by_cases less : j < k
    · have differs : ra j ≠ ra k := fun equal => same (ra_injective (by omega) inside equal)
      rw [if_pos (by omega), if_pos less]
      simp [differs]
    · rw [if_neg (by omega), if_neg less]

private theorem argRegs_zero (state' : RegState W M) : argRegs state' 0 = fun _ => none := by
  funext j
  simp [argRegs]

/-- Reading a slot into a temporary, where the register holds it. -/
private theorem Files.read (files : Files 0 0 state state') (t k : Nat) {w : W}
    (holds : state'.core.reg (ra k) = w) :
    Files 0 0 { state with core := state.core.write (.tmp t) w }
      { state' with core := state'.core.write (.tmp t) (S.value state'.core (.reg (ra k))) } := by
  rw [Semantics.value_reg, holds]
  exact ⟨files.core.write (.tmp t) w, files.countPassed, files.countReturned,
    by rw [files.args, argRegs_zero, argRegs_zero],
    by rw [files.returns, argRegs_zero, argRegs_zero]⟩

variable (call) in
/-- Passing an argument or return value on, in the slots and in the registers. -/
private theorem transfer_exec (lawful : S.Lawful) {how : InsnType}
    (transfers : how = .move ∨ how = .copy) (r : Nat) (in0 : Val) (flags : Flags)
    (state' : RegState W M) :
    RegState.exec S call { insnCreate how .i27 (.reg r) in0 .noclass 0 with flags } state' =
      { core := state'.core.write (.reg r) (S.value state'.core in0)
        passed := if flags.callSetup then state'.passed + 1 else state'.passed
        returned := if flags.callSetup then state'.returned else state'.returned + 1 } := by
  have executed := exec_transfer lawful transfers (.reg r) in0 flags state'.core
  rcases transfers with rfl | rfl <;>
    · simp only [RegState.exec, insnCreate] at executed ⊢
      rw [executed]
      cases flags.callSetup <;> simp

variable (call) in
/-- Reading an argument register into a temporary. -/
private theorem read_exec (lawful : S.Lawful) (t r : Nat) (flags : Flags)
    (state' : RegState W M) :
    RegState.exec S call { insnCreate .move .i27 (.tmp t) (.reg r) .noclass 0 with flags } state' =
      { state' with
        core := state'.core.write (.tmp t) (S.value state'.core (.reg r)) } := by
  have executed := exec_transfer lawful (Or.inl rfl) (.tmp t) (.reg r) flags state'.core
  simp only [RegState.exec, insnCreate] at executed ⊢
  rw [executed]
  simp

/-- Moves from and to argument registers show nothing. -/
private theorem observe_transfer {how : InsnType} (transfers : how = .move ∨ how = .copy)
    {out in0 : Val} (reg : out.isReg ∨ in0.isReg) (flags : Flags) (state' : RegState W M) :
    (registerInterp S call).observe { insnCreate how .i27 out in0 .noclass 0 with flags } state' =
      [] := by
  rcases transfers with rfl | rfl <;> exact if_pos reg

private theorem exec_plain (other : n.type.isConvention = false) :
    SlotState.exec S call n state = { state with core := S.exec n state.core } := by
  unfold SlotState.exec
  cases type : n.type <;> first | rfl | (rw [type] at other; cases other)

private theorem exec_plain_reg (other : n.type.isConvention = false)
    (out : n.out.isReg = false) :
    RegState.exec S call n state' = { state' with core := S.exec n state'.core } := by
  unfold RegState.exec
  cases type : n.type <;> first | (rw [type] at other; cases other; done) | simp [out]

private theorem observe_plain (other : n.type.isConvention = false) (out : n.out.isReg = false)
    (in0 : n.in0.isReg = false) (in1 : n.in1.isReg = false)
    (same : SameCore state.core state'.core) :
    (registerInterp S call).observe n state' = (slotInterp S call).observe n state := by
  simp only [registerInterp, slotInterp, same.value in0, same.value in1]
  cases type : n.type <;> first | (rw [type] at other; cases other; done) | simp [out, in0]

/-- What the slots and registers hold when an argument is passed or a call is made. -/
private theorem InPhase.files {phase phase' : Phase} (inPhase : InPhase reads phase state state') :
    (∀ k, phase.next (.arg k) = some phase' → phase' = .args (k + 1) ∧ Files k 0 state state') ∧
    (∀ k, phase.next (.retarg k) = some phase' →
      phase' = .returns (k + 1) ∧ Files 0 k state state') ∧
    (phase.next .call = some phase' → phase' = .results ∧ ∃ count, Files count 0 state state') ∧
    (phase.next .plain = some phase' → phase' = .args 0 ∧ Files 0 0 state state') := by
  cases phase with
  | params =>
    refine ⟨?_, ?_, ?_, ?_⟩
    · rintro (_ | k) next
      · exact ⟨(Option.some.inj next).symm, inPhase.1⟩
      · cases next
    · rintro (_ | k) next
      · exact ⟨(Option.some.inj next).symm, inPhase.1⟩
      · cases next
    · exact fun next => ⟨(Option.some.inj next).symm, 0, inPhase.1⟩
    · exact fun next => ⟨(Option.some.inj next).symm, inPhase.1⟩
  | args count =>
    refine ⟨?_, ?_, ?_, ?_⟩
    · intro k next
      have slots : k = count ∧ phase' = .args (k + 1) := by
        cases count <;> simp only [Phase.next] at next <;> split at next <;> simp_all
      obtain ⟨rfl, rfl⟩ := slots
      exact ⟨rfl, inPhase⟩
    · intro k next
      cases count with
      | zero =>
        cases k with
        | zero => exact ⟨(Option.some.inj next).symm, inPhase⟩
        | succ k => cases next
      | succ count => cases next
    · intro next
      refine ⟨?_, count, inPhase⟩
      cases count <;> exact (Option.some.inj next).symm
    · intro next
      cases count with
      | zero => exact ⟨(Option.some.inj next).symm, inPhase⟩
      | succ count => cases next
  | results =>
    exact ⟨(fun _ next => by cases next), (fun _ next => by cases next),
      (fun next => by cases next), (fun next => by cases next)⟩
  | returns count =>
    refine ⟨(fun _ next => by cases next), ?_, (fun next => by cases next),
      (fun next => by cases next)⟩
    intro k next
    have slots : k = count ∧ phase' = .returns (k + 1) := by
      simp only [Phase.next] at next
      split at next <;> simp_all
    obtain ⟨rfl, rfl⟩ := slots
    exact ⟨rfl, inPhase⟩

variable (S call reads) in
/-- `n'` replaces `n`, shows the same, and leads into `phase'`. -/
private structure Replaces (phase' : Phase) (n n' : Insn) (state : SlotState W M)
    (state' : RegState W M) : Prop where
  rewritten : rewriteInsn n = .ok n'
  observes : (registerInterp S call).observe n' state' = (slotInterp S call).observe n state
  inPhase : InPhase reads phase' (SlotState.exec S call n state) (RegState.exec S call n' state')

section Roles

variable {k t : Nat} {type : VType} {phase phase' : Phase}

private theorem slot_eq (in1 : n.in1 = .imm k type) : slot n = k := by
  simp [slot, in1]

private theorem noReg_of_passed (in0 : n.in0.isTmp ∨ n.in0.isImm) : n.in0.isReg = false := by
  cases operand : n.in0 <;> simp [operand, Val.isTmp, Val.isImm] at in0 ⊢

/-- Parameters are read in the first phase only. -/
private theorem next_param (next : phase.next (.param k) = some phase') :
    phase = .params ∧ phase' = .params := by
  cases phase with
  | params => exact ⟨rfl, (Option.some.inj next).symm⟩
  | args count => cases count <;> cases next
  | _ => cases next

/-- Results are read right behind a call only. -/
private theorem next_retval (next : phase.next (.retval k) = some phase') :
    phase = .results ∧ phase' = .results := by
  cases phase with
  | results => exact ⟨rfl, (Option.some.inj next).symm⟩
  | args count => cases count <;> cases next
  | _ => cases next

variable (call) in
private theorem replaces_param (lawful : S.Lawful) (isParam : n.type = .param)
    (out : n.out = .tmp t) (in1 : n.in1 = .imm k type) (inside : k < 24) (reading : reads)
    (inPhase : InPhase reads .params state state') :
    ∃ n', Replaces S call reads .params n n' state state' := by
  have holds := inPhase.2 reading
  refine ⟨_, rewriteParam_eq isParam in1 inside, ?_, ?_⟩
  · rw [out]
    exact (observe_transfer (Or.inl rfl) (Or.inr rfl) {} state').trans
      (by simp [slotInterp, isParam])
  · have executed := read_exec call lawful t (ra k) {} state'
    simp only [SlotState.exec, isParam, slot_eq in1, out]
    rw [show insnCreate .move .i27 (.tmp t) (.reg (ra k)) .noclass 0 =
      { insnCreate .move .i27 (.tmp t) (.reg (ra k)) .noclass 0 with flags := {} } from rfl,
      executed]
    exact ⟨inPhase.1.read t k (holds k inside), fun _ => holds⟩

variable (call) in
private theorem replaces_retval (lawful : S.Lawful) (isRetval : n.type = .retval)
    (out : n.out = .tmp t) (in1 : n.in1 = .imm k type) (inside : k < 24)
    (inPhase : InPhase reads .results state state') :
    ∃ n', Replaces S call reads .results n n' state state' := by
  have holds := inPhase.2
  refine ⟨_, rewriteRetval_eq isRetval in1 inside, ?_, ?_⟩
  · rw [out]
    exact (observe_transfer (Or.inl rfl) (Or.inr rfl) _ state').trans
      (by simp [slotInterp, isRetval])
  · simp only [SlotState.exec, isRetval, slot_eq in1, out]
    rw [read_exec call lawful]
    exact ⟨inPhase.1.read t k (holds k inside), holds⟩

variable (call) in
private theorem replaces_arg (lawful : S.Lawful) (isArg : n.type = .arg)
    (in0 : n.in0.isTmp ∨ n.in0.isImm) (in1 : n.in1 = .imm k type) (inside : k < 24)
    (files : Files k 0 state state') :
    ∃ n', Replaces S call reads (.args (k + 1)) n n' state state' := by
  obtain ⟨how, transfers, passes⟩ := passIn_eq in0 in1 inside
  refine ⟨_, by simp only [rewriteInsn, isArg, rewriteArg, passes, Result.ok_bind]; rfl, ?_, ?_⟩
  · exact (observe_transfer transfers (Or.inl rfl) _ state').trans
      (by simp [slotInterp, isArg])
  · rw [transfer_exec call lawful transfers]
    simp only [SlotState.exec, isArg, slot_eq in1, if_true]
    exact {
      core := files.core.write_reg _ _
      countPassed := by simp [files.countPassed]
      countReturned := files.countReturned
      args := by
        rw [argRegs_write inside, files.args, files.core.value (noReg_of_passed in0)]
      returns := by rw [files.returns, argRegs_zero, argRegs_zero] }

variable (call) in
private theorem replaces_retarg (lawful : S.Lawful) (isRetarg : n.type = .retarg)
    (in0 : n.in0.isTmp ∨ n.in0.isImm) (in1 : n.in1 = .imm k type) (inside : k < 24)
    (files : Files 0 k state state') :
    ∃ n', Replaces S call reads (.returns (k + 1)) n n' state state' := by
  obtain ⟨how, transfers, passes⟩ := passIn_eq in0 in1 inside
  refine ⟨_, by simp only [rewriteInsn, isRetarg, rewriteRetarg]; exact passes, ?_, ?_⟩
  · exact (observe_transfer transfers (Or.inl rfl) {} state').trans
      (by simp [slotInterp, isRetarg])
  · have executed := transfer_exec call lawful transfers (ra k) n.in0 {} state'
    rw [show insnCreate how .i27 (.reg (ra k)) n.in0 .noclass 0 =
      { insnCreate how .i27 (.reg (ra k)) n.in0 .noclass 0 with flags := {} } from rfl, executed]
    simp only [SlotState.exec, isRetarg, slot_eq in1, Bool.false_eq_true, if_false]
    exact {
      core := files.core.write_reg _ _
      countPassed := files.countPassed
      countReturned := by simp [files.countReturned]
      args := by rw [files.args, argRegs_zero, argRegs_zero]
      returns := by
        rw [argRegs_write inside, files.returns, files.core.value (noReg_of_passed in0)] }

private theorem replaces_call (isCall : n.type = .call) (in0 : n.in0.isReg = false) {count : Nat}
    (files : Files count 0 state state') :
    ∃ n', Replaces S call reads .results n n' state state' := by
  have called : S.value state'.core n.in0 = S.value state.core n.in0 := files.core.value in0
  have args : argRegs state' state'.passed = state.args := by rw [files.countPassed, files.args]
  refine ⟨_, by simp only [rewriteInsn, isCall]; rfl, ?_, ?_⟩
  · simp only [registerInterp, slotInterp, isCall, called, args]
  · simp only [SlotState.exec, RegState.exec, isCall, called, args, files.core.world]
    refine ⟨⟨⟨files.core.tmp, rfl⟩, rfl, files.countReturned, ?_, ?_⟩, ?_⟩
    · rw [argRegs_zero]
    · rw [files.returns, argRegs_zero, argRegs_zero]
    · exact fun k inside => afterCall_ra _ _ inside

private theorem replaces_plain (other : n.type.isConvention = false) (out : n.out.isReg = false)
    (in0 : n.in0.isReg = false) (in1 : n.in1.isReg = false) (files : Files 0 0 state state') :
    ∃ n', Replaces S call reads (.args 0) n n' state state' := by
  refine ⟨n, rewriteOther_eq other, observe_plain other out in0 in1 files.core, ?_⟩
  have executed : SameCore (S.exec n state.core) (S.exec n state'.core) :=
    files.core.exec in0 in1
  rw [exec_plain other, exec_plain_reg other out]
  exact {
    core := executed
    countPassed := files.countPassed
    countReturned := files.countReturned
    args := by rw [files.args, argRegs_zero, argRegs_zero]
    returns := by rw [files.returns, argRegs_zero, argRegs_zero] }

end Roles

variable (call) in
/-- One instruction and its replacement do the same. -/
theorem step_phase (lawful : S.Lawful) {phase phase' : Phase} {r : Role}
    (known : role n = some r) (next : phase.next r = some phase')
    (readsParam : n.type = .param → reads) (inPhase : InPhase reads phase state state') :
    ∃ n', rewriteInsn n = .ok n' ∧
      (registerInterp S call).observe n' state' = (slotInterp S call).observe n state ∧
      InPhase reads phase' (SlotState.exec S call n state) (RegState.exec S call n' state') := by
  have replaced : ∃ n', Replaces S call reads phase' n n' state state' := by
    cases hasRole known with
    | param isParam out in1 inside =>
      obtain ⟨rfl, rfl⟩ := next_param next
      exact replaces_param call lawful isParam out in1 inside (readsParam isParam) inPhase
    | retval isRetval out in1 inside =>
      obtain ⟨rfl, rfl⟩ := next_retval next
      exact replaces_retval call lawful isRetval out in1 inside inPhase
    | arg isArg in0 in1 inside =>
      obtain ⟨rfl, files⟩ := inPhase.files.1 _ next
      exact replaces_arg call lawful isArg in0 in1 inside files
    | retarg isRetarg in0 in1 inside =>
      obtain ⟨rfl, files⟩ := inPhase.files.2.1 _ next
      exact replaces_retarg call lawful isRetarg in0 in1 inside files
    | call isCall in0 =>
      obtain ⟨rfl, count, files⟩ := inPhase.files.2.2.1 next
      exact replaces_call isCall in0 files
    | plain other out in0 in1 =>
      obtain ⟨rfl, files⟩ := inPhase.files.2.2.2 next
      exact replaces_plain other out in0 in1 files
  obtain ⟨n', replaced⟩ := replaced
  exact ⟨n', replaced.rewritten, replaced.observes, replaced.inPhase⟩

end Step

section Run

variable {reads : Prop} {state : SlotState W M} {state' : RegState W M} {insns insns' : List Insn}

/-- An instruction with a role is replaced. -/
theorem rewriteInsn_returns {n : Insn} {r : Role} (known : role n = some r) :
    ∃ n', rewriteInsn n = .ok n' := by
  cases hasRole known with
  | param isParam _ in1 inside => exact ⟨_, rewriteParam_eq isParam in1 inside⟩
  | retval isRetval _ in1 inside => exact ⟨_, rewriteRetval_eq isRetval in1 inside⟩
  | arg isArg in0 in1 inside =>
    obtain ⟨how, _, passes⟩ := passIn_eq in0 in1 inside
    exact ⟨_, by simp only [rewriteInsn, isArg, rewriteArg, passes, Result.ok_bind]; rfl⟩
  | retarg isRetarg in0 in1 inside =>
    obtain ⟨how, _, passes⟩ := passIn_eq in0 in1 inside
    exact ⟨_, by simp only [rewriteInsn, isRetarg, rewriteRetarg]; exact passes⟩
  | call isCall _ => exact ⟨_, by simp only [rewriteInsn, isCall]; rfl⟩
  | plain other _ _ _ => exact ⟨n, rewriteOther_eq other⟩

/-- Instructions in order are replaced. -/
theorem rewriteInsns_returns {phase phase' : Phase}
    (reached : phaseAfter phase insns = some phase') :
    ∃ insns', insns.mapM rewriteInsn = .ok insns' := by
  induction insns generalizing phase with
  | nil => exact ⟨[], rfl⟩
  | cons n rest ih =>
    rw [phaseAfter_cons] at reached
    obtain ⟨next, stepped, reached⟩ := Option.bind_eq_some_iff.mp reached
    obtain ⟨r, known, _⟩ := Option.bind_eq_some_iff.mp stepped
    obtain ⟨n', first⟩ := rewriteInsn_returns known
    obtain ⟨rest', others⟩ := ih reached
    exact ⟨n' :: rest', by simp [List.mapM_cons, first, others]⟩

variable (call) in
/-- Instructions in order and their replacements do the same. -/
theorem perform_phase (lawful : S.Lawful) {phase phase' : Phase}
    (reached : phaseAfter phase insns = some phase')
    (rewritten : List.Forall₂ (fun n n' => rewriteInsn n = .ok n') insns insns')
    (readsParam : ReadsParams insns → reads) (inPhase : InPhase reads phase state state') :
    ((registerInterp S call).perform insns' state').1 =
        ((slotInterp S call).perform insns state).1 ∧
      InPhase reads phase' ((slotInterp S call).perform insns state).2
        ((registerInterp S call).perform insns' state').2 := by
  induction rewritten generalizing phase state state' with
  | nil =>
    obtain rfl : phase = phase' := Option.some.inj reached
    exact ⟨rfl, inPhase⟩
  | @cons n n' rest rest' first _ ih =>
    rw [phaseAfter_cons] at reached
    obtain ⟨next, stepped, reached⟩ := Option.bind_eq_some_iff.mp reached
    obtain ⟨r, known, follows⟩ := Option.bind_eq_some_iff.mp stepped
    obtain ⟨m, replaced, events, inPhase'⟩ := step_phase call lawful known follows
      (fun isParam => readsParam ⟨n, List.mem_cons_self, isParam⟩) inPhase
    obtain rfl : n' = m := Except.ok.inj (first.symm.trans replaced)
    obtain ⟨others, inPhase''⟩ := ih reached
      (fun reads => readsParam (reads.imp fun _ => And.imp_left (List.mem_cons_of_mem _))) inPhase'
    exact ⟨congrArg₂ (· ++ ·) events others, inPhase''⟩

end Run

section Lockstep

/-- Both functions stand at the same place, with the same temporaries. In a block that
reads parameters the registers still hold them. -/
structure AtBlock (f : Fn) (config : Ctrl × SlotState W M) (config' : Ctrl × RegState W M) :
    Prop where
  control : config'.1 = config.1
  core : SameCore config.2.core config'.2.core
  files : ∀ id, config.1 = .block id → Files 0 0 config.2 config'.2
  params : ∀ id b, config.1 = .block id → f.find? id = some b → ReadsParams b.insns →
    ∀ k < 24, config'.2.core.reg (ra k) = config.2.params k

variable {f f' : Fn}

theorem RewrittenBlks.find?_none (rewritten : RewrittenBlks f f') {id : Nat}
    (absent : f.find? id = none) : f'.find? id = none := by
  cases found' : f'.find? id with
  | none => rfl
  | some b' =>
    have back : ∃ b, f.find? id = some b ∧ rewriteBlk b = .ok b' :=
      Lists.find?_forall₂ rewritten.flip
        (fun b' b (same : rewriteBlk b = .ok b') => by
          obtain ⟨_, _, rfl⟩ := rewriteBlk_eq_ok.mp same; rfl) found'
    obtain ⟨b, found, _⟩ := back
    rw [absent] at found
    cases found

/-- The entry block stays the entry block. -/
theorem RewrittenBlks.entry (rewritten : RewrittenBlks f f') :
    Interp.entry f' = Interp.entry f := by
  unfold Interp.entry
  cases blks : f.blks with
  | nil =>
    have blks' : f'.blks = [] := by simpa [RewrittenBlks, blks] using rewritten
    simp [blks']
  | cons b rest =>
    rw [RewrittenBlks, blks] at rewritten
    obtain ⟨b', rest', first, _, blks'⟩ := List.forall₂_cons_left_iff.mp rewritten
    obtain ⟨_, _, rfl⟩ := rewriteBlk_eq_ok.mp first
    simp [blks']

variable (call) in
/-- Both functions follow an edge alike. -/
theorem SsaForm.follow (form : SsaForm f) (rewritten : RewrittenBlks f f')
    {state : SlotState W M} {state' : RegState W M} (files : Files 0 0 state state') {id : Nat}
    {target : Option Nat} (edge : ∀ next, target = some next → Edge f id next) {args : List Val}
    (temps : ∀ a ∈ args, a.isTmp) :
    AtBlock f ((slotInterp S call).follow f target args state)
      ((registerInterp S call).follow f' target args state') := by
  cases found : target.bind f.find? with
  | none =>
    have absent : target.bind f'.find? = none := by
      cases target with
      | none => rfl
      | some next => exact rewritten.find?_none found
    simp only [Interp.follow, found, absent]
    exact ⟨rfl, files.core, by simp, by simp⟩
  | some b =>
    obtain ⟨next, rfl, found⟩ := Option.bind_eq_some_iff.mp found
    obtain ⟨b', found', same⟩ := rewritten.find? found
    obtain ⟨_, _, rfl⟩ := rewriteBlk_eq_ok.mp same
    rw [Interp.follow_some found, Interp.follow_some found']
    have formed := form.blks b (Fn.find?_mem found)
    have noRegs : ∀ a ∈ args, a.isReg = false := by
      intro a member
      have isTmp := temps a member
      cases a <;> simp_all [Val.isTmp]
    have assigned := files.core.assign (S := S) b.params noRegs
    refine ⟨rfl, assigned, fun _ _ => ?_, ?_⟩
    · exact {
        core := assigned
        countPassed := files.countPassed
        countReturned := files.countReturned
        args := by rw [argRegs_zero, ← argRegs_zero state']; exact files.args
        returns := by rw [argRegs_zero, ← argRegs_zero state']; exact files.returns }
    · rintro id' c ⟨⟩ foundC reads
      obtain rfl : b = c := Option.some.inj (found.symm.trans foundC)
      have entered := edge next rfl
      rw [← Fn.find?_id found] at entered
      exact absurd entered (form.params b (Fn.find?_mem found) reads id)

variable (call) in
/-- Both functions leave a block alike. -/
theorem SsaForm.depart (form : SsaForm f) (rewritten : RewrittenBlks f f') {id : Nat}
    {b b' : Blk} (found : f.find? id = some b) (same : rewriteBlk b = .ok b') {reads : Prop}
    {phase : Phase} (ends : phase.Ends b) {state : SlotState W M} {state' : RegState W M}
    (inPhase : InPhase reads phase state state') :
    ((registerInterp S call).depart f' b' state').1 = ((slotInterp S call).depart f b state).1 ∧
      AtBlock f ((slotInterp S call).depart f b state).2
        ((registerInterp S call).depart f' b' state').2 := by
  obtain ⟨insns, _, rfl⟩ := rewriteBlk_eq_ok.mp same
  rw [show (registerInterp S call).depart f' { b with insns } state' =
    (registerInterp S call).depart f' b state' from rfl]
  have formed := form.blks b (Fn.find?_mem found)
  -- What has been passed at the end of a block are the values of a return.
  have files : ∃ returned, Files 0 returned state state' ∧ (¬ b.isReturn → returned = 0) := by
    cases phase with
    | params => exact ⟨0, inPhase.1, fun _ => rfl⟩
    | args count =>
      obtain rfl : count = 0 := ends
      exact ⟨0, inPhase, fun _ => rfl⟩
    | results => exact ⟨0, inPhase.1, fun _ => rfl⟩
    | returns count => exact ⟨count, inPhase, fun stays => absurd ends.1 stays⟩
  obtain ⟨returned, files, stays⟩ := files
  by_cases returns : b.btype = .ret
  · rw [Interp.depart_ret returns, Interp.depart_ret returns]
    refine ⟨?_, rfl, files.core, by simp, by simp⟩
    simp only [registerInterp, slotInterp, files.countReturned, files.returns]
  obtain rfl : returned = 0 := stays (by simpa [Blk.isReturn] using returns)
  have edge1 := form.follow (S := S) call rewritten files
    (fun next target => ⟨b, found, Or.inl target⟩) formed.args1
  have edge2 := form.follow (S := S) call rewritten files
    (fun next target => ⟨b, found, Or.inr target⟩) formed.args2
  by_cases jump : b.btype = .j
  · rw [Interp.depart_j jump, Interp.depart_j jump]
    exact ⟨rfl, edge2⟩
  · rw [Interp.depart_cond returns jump, Interp.depart_cond returns jump]
    have taken : (registerInterp S call).taken b.btype b.cmp0 b.cmp1 state' =
        (slotInterp S call).taken b.btype b.cmp0 b.cmp1 state := by
      simp only [registerInterp, slotInterp, files.core.value formed.cmp0,
        files.core.value formed.cmp1]
    rw [taken]
    refine ⟨rfl, ?_⟩
    by_cases decision : (slotInterp S call).taken b.btype b.cmp0 b.cmp1 state
    · simpa [decision] using edge2
    · simpa [decision] using edge1

variable (call) in
/-- The rewritten function keeps up with the original block by block. -/
theorem SsaForm.lockstep (form : SsaForm f) (rewritten : RewrittenBlks f f')
    (lawful : S.Lawful) :
    Machine.Lockstep ((slotInterp S call).machine f) ((registerInterp S call).machine f')
      (AtBlock f) where
  halts := by
    rintro ⟨ctrl, state⟩ ⟨ctrl', state'⟩ aligned
    obtain rfl : ctrl' = ctrl := aligned.control
    cases ctrl' with
    | block id =>
      cases found : f.find? id with
      | none => simp [Interp.machine, found, rewritten.find?_none found]
      | some b =>
        obtain ⟨b', found', _⟩ := rewritten.find? found
        simp [Interp.machine_step_block found, Interp.machine_step_block found']
    | returned => simp [Interp.machine]
    | stuck => simp [Interp.machine]
  steps := by
    rintro ⟨ctrl, state⟩ ⟨ctrl', state'⟩ events next events' next' aligned _ stepped stepped'
    obtain rfl : ctrl' = ctrl := aligned.control
    cases ctrl' with
    | block id =>
      cases found : f.find? id with
      | none =>
        simp only [Interp.machine, found, Option.some.injEq, Prod.mk.injEq] at stepped
        simp only [Interp.machine, rewritten.find?_none found, Option.some.injEq,
          Prod.mk.injEq] at stepped'
        obtain ⟨rfl, rfl⟩ := stepped
        obtain ⟨rfl, rfl⟩ := stepped'
        exact ⟨rfl, rfl, aligned.core, by simp, by simp⟩
      | some b =>
        obtain ⟨b', found', same⟩ := rewritten.find? found
        rw [Interp.machine_step_block found, Option.some.injEq] at stepped
        rw [Interp.machine_step_block found', Option.some.injEq] at stepped'
        obtain ⟨insns, replaced, rfl⟩ := rewriteBlk_eq_ok.mp same
        obtain ⟨phase, reached, ends⟩ := (form.blks b (Fn.find?_mem found)).ordered
        obtain ⟨performed, inPhase⟩ := perform_phase call lawful reached
          replaced (fun reads => reads)
            (show InPhase (ReadsParams b.insns) .params state state' from
              ⟨aligned.files _ rfl, aligned.params _ b rfl found⟩)
        obtain ⟨decision, left⟩ := form.depart (S := S) call rewritten found same ends
          inPhase
        obtain ⟨rfl, rfl⟩ := Prod.mk.inj stepped
        obtain ⟨rfl, rfl⟩ := Prod.mk.inj stepped'
        exact ⟨congrArg₂ (· ++ ·) performed decision, left⟩
    | returned => simp [Interp.machine] at stepped
    | stuck => simp [Interp.machine] at stepped

/-- `abi0` returns for functions in the form. -/
theorem SsaForm.abi0_returns (form : SsaForm f) : ∃ f', abi0 f = .ok f' ∧ RewrittenBlks f f' := by
  have each : ∀ blks : List Blk, (∀ b ∈ blks, Ordered b) →
      ∃ blks', blks.mapM rewriteBlk = .ok blks' := by
    intro blks ordered
    induction blks with
    | nil => exact ⟨[], rfl⟩
    | cons b rest ih =>
      obtain ⟨phase, reached, _⟩ := ordered b List.mem_cons_self
      obtain ⟨insns, replaced⟩ := rewriteInsns_returns reached
      obtain ⟨rest', others⟩ := ih fun c member => ordered c (List.mem_cons_of_mem _ member)
      have first : rewriteBlk b = .ok { b with insns } := by simp [rewriteBlk, replaced]
      exact ⟨{ b with insns } :: rest', by simp [List.mapM_cons, first, others]⟩
  obtain ⟨blks, replaced⟩ := each f.blks fun b member => (form.blks b member).ordered
  refine ⟨{ f with blks }, by simp [abi0, replaced], ?_⟩
  exact Result.mapM_eq_ok.mp replaced

end Lockstep

/-- The first 24 parameters are in the argument registers, and nothing has been passed. -/
structure Enters (state : SlotState W M) (state' : RegState W M) : Prop where
  core : SameCore state.core state'.core
  params : ∀ k < 24, state'.core.reg (ra k) = state.params k
  args : state.args = fun _ => none
  returns : state.returns = fun _ => none
  passed : state'.passed = 0
  returned : state'.returned = 0

/-- `f'` executes on the registers like `f` on the slots: the same blocks, and in them
the same instructions on the same operand values, the same calls with the same arguments
and results, the same decisions, and in the end the same return values. -/
structure CallsLike (S : Semantics W M) (call : Callee W M) (f f' : Fn) (state : SlotState W M)
    (state' : RegState W M) : Prop where
  events : ∀ count, (((registerInterp S call).machine f').run count (Interp.entry f', state')).1 =
    (((slotInterp S call).machine f).run count (Interp.entry f, state)).1
  control : ∀ count,
    (((registerInterp S call).machine f').run count (Interp.entry f', state')).2.1 =
      (((slotInterp S call).machine f).run count (Interp.entry f, state)).2.1
  core : ∀ count,
    SameCore (((slotInterp S call).machine f).run count (Interp.entry f, state)).2.2.core
      (((registerInterp S call).machine f').run count (Interp.entry f', state')).2.2.core

/-- What `abi0` makes of a function in the form executes like the function. -/
theorem SsaForm.callsLike {h k : Fn} (form : SsaForm h) (rewritten : RewrittenBlks h k)
    (lawful : S.Lawful) (call : Callee W M) {state : SlotState W M} {state' : RegState W M}
    (enters : Enters state state') : CallsLike S call h k state state' := by
  have start : AtBlock h (Interp.entry h, state) (Interp.entry k, state') := {
    control := rewritten.entry
    core := enters.core
    files := fun _ _ => {
      core := enters.core
      countPassed := enters.passed
      countReturned := enters.returned
      args := by rw [enters.args, argRegs_zero]
      returns := by rw [enters.returns, argRegs_zero] }
    params := fun _ _ _ _ _ => enters.params }
  have run (count : Nat) :=
    Machine.Lockstep.run (form.lockstep call rewritten lawful) start count
  exact {
    events := fun count => (run count).1
    control := fun count => (run count).2.control
    core := fun count => (run count).2.core }

/-- One file of argument registers serves parameters, arguments, results and return
values. -/
theorem abi0_preserves {f g h : Fn} {n : Nat} (built : Frontend.ParserBuilt f)
    (noAddr : ∀ b ∈ f.blks, ∀ i ∈ b.insns, i.type ≠ .addr)
    (few : ∀ b ∈ f.blks, InRegisters b.insns) (corrected : Corrected f g)
    (converted : ssa g = .ok (h, n)) :
    ∃ k, abi0 h = .ok k ∧ ∀ {W M : Type} {S : Semantics W M}, S.Lawful →
      ∀ (call : Callee W M) (state : SlotState W M) (state' : RegState W M),
        Enters state state' → CallsLike S call h k state state' := by
  have raw := (BeforeSsa.corrected built corrected).raw
  obtain ⟨entry, rest, blks⟩ := List.exists_cons_of_ne_nil raw.nonempty
  have form := converted_form (Ssa.ssa_converted raw blks converted)
    (corrected_callShape built noAddr few corrected)
  obtain ⟨k, returned, rewritten⟩ := form.abi0_returns
  exact ⟨k, returned, fun lawful call state state' enters =>
    form.callsLike rewritten lawful call enters⟩

/-- The loop test calls a procedure, from any state with its parameters in registers. -/
theorem abi0_preserves_simpleLoop :
    ∃ f g h n k, Frontend.buildFunction 0 Frontend.simpleLoop = .ok f ∧ Corrected f g ∧
      ssa g = .ok (h, n) ∧ abi0 h = .ok k ∧
        ∀ (call : Callee Int Unit) (params : Nat → Int),
          CallsLike Semantics.integers call h k
            ⟨⟨fun _ => 0, fun _ => 0, ()⟩, params, fun _ => none, fun _ => 0, fun _ => none⟩
            ⟨⟨fun _ => 0, afterCall params fun _ => 0, ()⟩, 0, 0⟩ := by
  have ran : ∃ f g ri h n, Frontend.buildFunction 0 Frontend.simpleLoop = .ok f ∧
      correct 20 f f.ntmp = .ok (g, ri) ∧ ssa { g with ntmp := ri } = .ok (h, n) ∧
        (∀ b ∈ f.blks, ∀ i ∈ b.insns, i.type ≠ .addr) ∧ ∀ b ∈ f.blks, InRegisters b.insns :=
    ⟨_, _, _, _, _, by rfl, by rfl, by rfl, by decide, by decide⟩
  obtain ⟨f, g, ri, h, n, parsed, corrected, converted, noAddr, few⟩ := ran
  have passed : Corrected f { g with ntmp := ri } := ⟨20, g, ri, corrected, rfl⟩
  obtain ⟨k, returned, same⟩ := abi0_preserves ⟨0, _, parsed⟩ noAddr few passed converted
  refine ⟨f, _, h, n, k, parsed, passed, converted, returned, fun call params => ?_⟩
  exact same Semantics.integers_lawful call _ _ {
    core := ⟨rfl, rfl⟩
    params := fun k inside => afterCall_ra params (fun _ => 0) inside
    args := rfl
    returns := rfl
    passed := rfl
    returned := rfl }

end Qbt.Abi
