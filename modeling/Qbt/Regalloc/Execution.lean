import Qbt.Abi.Simulation
import Qbt.Regalloc.Handover

/-!
# Execution with a frame

Behind `regalloc` there are only registers and the slots of the frame. A callee finds its arguments
in the argument registers and leaves its results there, keeps the callee-saved registers, and may
leave anything in the others.
-/

namespace Qbt.Regalloc

open Abi

variable {W M : Type}

/-- A state of the registers and the slots. `passed` counts the moves of the set-up of the next
call. -/
structure FrameState (W M : Type) extends Framed W M where
  passed : Nat

/-- What a callee leaves in the registers that are neither for results nor saved by it. -/
abbrev Clobber (W M : Type) := Framed W M → Nat → W

/-- The registers behind a call, in front of which they hold `reg`. -/
def behindCallee (results clobbered reg : Nat → W) : Nat → W :=
  afterCall results fun r => if r ∈ rsMap then reg r else clobbered r

/-- Execute an instruction on registers and slots. -/
def FrameState.exec (S : Semantics W M) (call : Callee W M) (clobber : Clobber W M) (n : Insn)
    (s : FrameState W M) : FrameState W M :=
  match n.type with
  | .call =>
    let called := call (S.value s.state n.in0) (argRegs ⟨s.state, s.passed, 0⟩ s.passed)
      s.state.world
    { s with
      state := { s.state with
        world := called.2
        reg := behindCallee called.1 (clobber s.toFramed) s.state.reg }
      passed := 0 }
  | _ =>
    { toFramed := execFramed S s.toFramed n
      passed := if n.flags.callSetup then s.passed + 1 else s.passed }

/-- What is left to see of a function: its calls with their arguments, its branch decisions and
what it computes in between. Values that only move are not seen, and neither are the returned ones,
which are in registers. -/
def CallEvent.seen : CallEvent W → Bool
  | .insn type _ _ _ _ => type ≠ .move && type ≠ .copy
  | .call _ _ | .branch _ => true
  | .leave _ => false

/-- The reading with registers and slots. -/
def frameInterp (S : Semantics W M) (call : Callee W M) (clobber : Clobber W M) :
    Interp (FrameState W M) (CallEvent W) where
  exec := FrameState.exec S call clobber
  observe n s :=
    match n.type with
    | .call => [.call (S.value s.state n.in0) (argRegs ⟨s.state, s.passed, 0⟩ s.passed)]
    | .move | .copy | .save | .restore => []
    | type => [.insn type n.vtype (S.value s.state n.in0) (S.value s.state n.in1) n.v]
  taken type cmp0 cmp1 s := S.taken type (S.value s.state cmp0) (S.value s.state cmp1)
  decision taken := [.branch taken]
  assign params args s := { s with state := S.assign params args s.state }
  leave _ := []
  assign_nil _ := rfl

/-- Behind a call the argument registers hold its results. -/
theorem behindCallee_ra (results clobbered reg : Nat → W) {k : Nat} (inside : k < 24) :
    behindCallee results clobbered reg (ra k) = results k :=
  afterCall_ra _ _ inside

/-- No callee-saved register is an argument register. -/
theorem rsMap_disjoint_arMap {r : Nat} (callee : r ∈ rsMap) : r ∉ arMap := by
  have disjoint : ∀ r ∈ rsMap, r ∉ arMap := by decide
  exact disjoint r callee

/-- A call keeps the callee-saved registers. -/
theorem behindCallee_kept (results clobbered reg : Nat → W) {r : Nat} (callee : r ∈ rsMap) :
    behindCallee results clobbered reg r = reg r := by
  rw [behindCallee, afterCall, if_neg (rsMap_disjoint_arMap callee), if_pos callee]

/-- An instruction of a block that neither calls nor saves: only moves touch registers, and a
set-up writes one. -/
structure Straight (n : Insn) : Prop where
  call : n.type ≠ .call
  saves : n.type.savesReg = false
  moves : n.out.isReg ∨ n.in0.isReg → n.type = .move ∨ n.type = .copy
  setup : n.flags.callSetup → n.out.isReg

/-- How many of the instructions set a call up. -/
def setups (insns : List Insn) : Nat := insns.countP (·.flags.callSetup)

/-- How many of the instructions set a return up. -/
def returnMoves (insns : List Insn) : Nat := insns.countP fun n => n.out.isReg && !n.flags.callSetup

section Straight

variable {S : Semantics W M} (call : Callee W M) (clobber : Clobber W M) {n n' : Insn}
  {insns insns' : List Insn}

private theorem Straight.exec_reg (straight : Straight n) (s : RegState W M) :
    RegState.exec S call n s = {
      core := S.exec n s.core
      passed := if n.flags.callSetup then s.passed + 1 else s.passed
      returned := if n.out.isReg && !n.flags.callSetup then s.returned + 1 else s.returned } := by
  have other := straight.call
  have setup := straight.setup
  unfold RegState.exec
  split
  · rename_i type
    exact absurd type other
  · cases flag : n.flags.callSetup with
    | false => simp
    | true => simp [setup flag]

/-- Other instructions leave the frame alone. -/
theorem exec_frame (call' : n'.type ≠ .call) (saves : n'.type.savesReg = false)
    (s : FrameState W M) : FrameState.exec S call clobber n' s = {
      state := S.exec n' s.state
      slots := s.slots
      passed := if n'.flags.callSetup then s.passed + 1 else s.passed } := by
  have state : execFramed S s.toFramed n' = { s.toFramed with state := S.exec n' s.state } := by
    unfold execFramed
    split
    · rename_i type _
      rw [type] at saves
      cases saves
    · rename_i type _
      rw [type] at saves
      cases saves
    · rfl
  unfold FrameState.exec
  split
  · rename_i type
    exact absurd type call'
  · rw [state]

/-- Before allocation straight instructions run on the core and count. -/
theorem perform_reg (straight : ∀ n ∈ insns, Straight n) (s : RegState W M) :
    ((registerInterp S call).perform insns s).2 = {
      core := execAll S insns s.core
      passed := s.passed + setups insns
      returned := s.returned + returnMoves insns } := by
  induction insns generalizing s with
  | nil => rfl
  | cons n rest ih =>
    rw [List.forall_mem_cons] at straight
    have executed : (registerInterp S call).exec n s = _ := straight.1.exec_reg call s
    rw [Interp.perform_cons, executed, ih straight.2]
    have first : setups (n :: rest) = setups rest + if n.flags.callSetup then 1 else 0 :=
      List.countP_cons
    have second : returnMoves (n :: rest) =
        returnMoves rest + if n.out.isReg && !n.flags.callSetup then 1 else 0 :=
      List.countP_cons
    rw [first, second]
    congr 1
    · dsimp only
      split <;> omega
    · dsimp only
      split <;> omega

/-- And behind it, too. -/
theorem perform_frame (calls : ∀ n ∈ insns', n.type ≠ .call)
    (saves : ∀ n ∈ insns', n.type.savesReg = false) (s : FrameState W M) :
    ((frameInterp S call clobber).perform insns' s).2 = {
      state := execAll S insns' s.state
      slots := s.slots
      passed := s.passed + setups insns' } := by
  induction insns' generalizing s with
  | nil => rfl
  | cons n rest ih =>
    rw [List.forall_mem_cons] at calls saves
    have executed : (frameInterp S call clobber).exec n s = _ :=
      exec_frame call clobber calls.1 saves.1 s
    rw [Interp.perform_cons, executed, ih calls.2 saves.2]
    have first : setups (n :: rest) = setups rest + if n.flags.callSetup then 1 else 0 :=
      List.countP_cons
    rw [first]
    congr 1
    dsimp only
    split <;> omega

end Straight

section Events

open Interference

variable {S : Semantics W M} (call : Callee W M) (clobber : Clobber W M) {rmap : List Val}

/-- An instruction and what replaces it show the same, where their operands have the same
values. -/
theorem observe_frame {n n' : Insn} (straight : Straight n)
    (rewritten : rewriteInsn rmap n = .ok n') (s : RegState W M) (s' : FrameState W M)
    (same0 : S.value s'.state n'.in0 = S.value s.core n.in0)
    (same1 : S.value s'.state n'.in1 = S.value s.core n.in1) :
    (frameInterp S call clobber).observe n' s' =
      ((registerInterp S call).observe n s).filter CallEvent.seen := by
  have call' := straight.call
  have saves := straight.saves
  simp only [rewriteInsn, Result.bind_eq_ok, Result.pure_eq, Except.ok.injEq] at rewritten
  obtain ⟨in0, -, in1, -, out, -, rfl⟩ := rewritten
  have same0 : S.value s'.state in0 = S.value s.core n.in0 := same0
  have same1 : S.value s'.state in1 = S.value s.core n.in1 := same1
  simp only [frameInterp, registerInterp, same0, same1]
  by_cases moving : n.type = .move ∨ n.type = .copy
  · rcases moving with type | type <;>
      · rw [type]
        dsimp only
        rw [apply_ite (List.filter _)]
        simp [CallEvent.seen]
  · have untouched : ¬ (n.out.isReg ∨ n.in0.isReg) := fun touches => moving (straight.moves touches)
    rw [if_neg untouched]
    cases type : n.type <;> rw [type] at call' saves moving <;>
      first
      | exact absurd rfl call'
      | exact absurd (Or.inl rfl) moving
      | exact absurd (Or.inr rfl) moving
      | (cases saves; done)
      | simp [CallEvent.seen]

/-- Straight-line code and what replaces it show the same. -/
theorem Holds.events (lawful : S.Lawful) (rules : RulesIn rmap) {insns insns' : List Insn}
    {out : Set Val} {core core' : State W M}
    (holds : Holds S rmap (live (insns.map Insn.line) out) core core')
    (coloured : Coloured (registerOf rmap) (insns.map Insn.line) out)
    (straight : ∀ n ∈ insns, Straight n)
    (rewritten : List.Forall₂ (fun n n' => rewriteInsn rmap n = .ok n') insns insns')
    (passed returned passed' : Nat) (slots : Int → W) :
    ((frameInterp S call clobber).perform insns' ⟨⟨core', slots⟩, passed'⟩).1 =
      ((registerInterp S call).perform insns ⟨core, passed, returned⟩).1.filter
        CallEvent.seen := by
  induction rewritten generalizing core core' passed returned passed' with
  | nil => rfl
  | @cons n n' rest rest' head _ ih =>
    rw [List.forall_mem_cons] at straight
    have type := (rewriteInsn_same head).1
    have operands : S.value core' n'.in0 = S.value core n.in0 ∧
        S.value core' n'.in1 = S.value core n.in1 := by
      have parts := head
      simp only [rewriteInsn, Result.bind_eq_ok, Result.pure_eq, Except.ok.injEq] at parts
      obtain ⟨in0, first, in1, second, _, _, rfl⟩ := parts
      exact ⟨holds.operand (Or.inl rfl) first, holds.operand (Or.inr rfl) second⟩
    have shown := observe_frame call clobber straight.1 head ⟨core, passed, returned⟩
      ⟨⟨core', slots⟩, passed'⟩ operands.1 operands.2
    have executed : (registerInterp S call).exec n ⟨core, passed, returned⟩ = _ :=
      straight.1.exec_reg call _
    have executed' : (frameInterp S call clobber).exec n' ⟨⟨core', slots⟩, passed'⟩ = _ :=
      exec_frame call clobber (by rw [type]; exact straight.1.call)
        (by rw [type]; exact straight.1.saves) _
    rw [Interp.perform_cons, Interp.perform_cons, List.filter_append, shown, executed, executed',
      ih (holds.step lawful rules coloured head) coloured.tail straight.2]

end Events

section Saves

variable {S : Semantics W M} (call : Callee W M) (clobber : Clobber W M)

/-- SAVEs in distinct slots copy each register into its slot and change nothing else. -/
theorem perform_saves {saving : List Insn}
    (each : ∀ n ∈ saving, ∃ r, ∃ slot : Nat, n = saveInsn r slot)
    (distinct : saving.Pairwise fun n m => n.in1 ≠ m.in1) (s : FrameState W M) :
    ∃ slots, (frameInterp S call clobber).perform saving s = ([], { s with slots }) ∧
      (∀ slot : Nat, (∀ n ∈ saving, n.in1 ≠ .imm slot .i27) → slots slot = s.slots slot) ∧
        ∀ r, ∀ slot : Nat, saveInsn r slot ∈ saving → slots slot = S.value s.state r := by
  induction saving generalizing s with
  | nil => exact ⟨s.slots, rfl, fun _ _ => rfl, fun _ _ none => by cases none⟩
  | cons n rest ih =>
    rw [List.forall_mem_cons] at each
    rw [List.pairwise_cons] at distinct
    obtain ⟨⟨r, slot, rfl⟩, others⟩ := each
    obtain ⟨slots, performed, kept, saved⟩ :=
      ih others distinct.2 { s with slots := Function.update s.slots slot (S.value s.state r) }
    have executed : (frameInterp S call clobber).exec (saveInsn r slot) s =
        { s with slots := Function.update s.slots slot (S.value s.state r) } := rfl
    have own : (frameInterp S call clobber).observe (saveInsn r slot) s = [] := rfl
    refine ⟨slots, ?_, fun other unused => ?_, fun q other member => ?_⟩
    · rw [Interp.perform_cons, executed, own, performed]
      rfl
    · rw [List.forall_mem_cons] at unused
      have differ : (other : Int) ≠ slot := fun same => unused.1 (by rw [same]; rfl)
      exact (kept other unused.2).trans (Function.update_of_ne differ _ _)
    · rcases List.mem_cons.mp member with same | later
      · obtain ⟨rfl, rfl⟩ : q = r ∧ other = slot := by
          have in0 := congrArg Insn.in0 same
          have in1 := congrArg Insn.in1 same
          simp only [saveInsn, insnCreate, Val.imm.injEq, Int.natCast_inj, and_true] at in0 in1
          exact ⟨in0, in1⟩
        refine (kept other fun m inside => ?_).trans (Function.update_self _ _ _)
        exact (distinct.1 m inside).symm
      · exact saved q other later

/-- RESTOREs copy the slots back. -/
theorem perform_restores {restoring : List Insn} {value : Val → W} {s : FrameState W M}
    (each : ∀ n ∈ restoring, ∃ r, ∃ slot : Nat, r.isReg ∧ s.slots slot = value r ∧
      n = restoreInsn r slot) :
    ∃ state, (frameInterp S call clobber).perform restoring s = ([], { s with state }) ∧
      state.world = s.state.world ∧
        (∀ v, (∀ slot : Nat, restoreInsn v slot ∉ restoring) →
          S.value state v = S.value s.state v) ∧
          ∀ v, S.value s.state v = value v ∨ (∃ slot : Nat, restoreInsn v slot ∈ restoring) →
            S.value state v = value v := by
  induction restoring generalizing s with
  | nil => exact ⟨s.state, rfl, rfl, fun _ _ => rfl, fun v known => by simpa using known⟩
  | cons n rest ih =>
    rw [List.forall_mem_cons] at each
    obtain ⟨⟨r, slot, isReg, held, rfl⟩, others⟩ := each
    obtain ⟨state, performed, world, kept, restored⟩ :=
      @ih { s with state := s.state.write r (s.slots slot) } others
    have executed : (frameInterp S call clobber).exec (restoreInsn r slot) s =
        { s with state := s.state.write r (s.slots slot) } := rfl
    have own : (frameInterp S call clobber).observe (restoreInsn r slot) s = [] := rfl
    have write (v : Val) : S.value (s.state.write r (s.slots slot)) v =
        if v = r then value r else S.value s.state v := by
      by_cases same : v = r
      · rw [if_pos same, same, S.value_write_self s.state (Or.inr isReg), held]
      · rw [if_neg same, S.value_write_of_ne s.state same]
    refine ⟨state, ?_, world.trans (State.write_world _ _ _), fun v unused => ?_, fun v known => ?_⟩
    · rw [Interp.perform_cons, executed, own, performed]
      rfl
    · have differ : v ≠ r := fun same => unused slot (by rw [same]; exact List.mem_cons_self)
      rw [kept v fun other member => unused other (List.mem_cons_of_mem _ member), write,
        if_neg differ]
    · refine restored v ?_
      by_cases same : v = r
      · exact Or.inl (by rw [write, if_pos same, same])
      · refine known.imp (fun already => by rw [write, if_neg same, already]) ?_
        rintro ⟨other, member⟩
        rcases List.mem_cons.mp member with here | later
        · exact absurd (congrArg Insn.in0 here) same
        · exact ⟨other, later⟩

end Saves

end Qbt.Regalloc
