import Qbt.Asm.Conventions
import Qbt.Asm.Printable
import Qbt.Asm.Text
import Qbt.Regalloc.Execution

/-!
# Registers and slots on the machine

Between its prologue and its epilogue a function has its registers in the registers of the machine
and its slots in its frame, below the words the prologue has stored.
-/

namespace Qbt.Asm

open Abi Regalloc

variable {T U : Type} {E : Encoding T} {m : Fn} {e s : MachineState T} {u : U}

section Memory

variable {mem mem' : Int → T} {low high a w : Int} {width : Width}

private theorem storeMem_congr {i : Int} (same : mem' i = mem i) :
    storeMem E width mem' a w i = storeMem E width mem a w i := by
  cases width with
  | word => simp only [storeMem, same]
  | tryte => simp only [storeMem, Function.update_apply, same]

/-- An access beside a frame reads what is beside it. -/
theorem loadMem_beside (same : ∀ i, Beside low high i → mem' i = mem i)
    (away : a + width.size ≤ low ∨ high ≤ a) :
    loadMem E width mem' a = loadMem E width mem a := by
  have beside {i : Int} (from' : a ≤ i) (below : i < a + width.size) : Beside low high i :=
    away.imp (fun lower => by omega) (fun higher => by omega)
  cases width with
  | word => exact loadMem_congr fun i from' below => same i (beside from' below)
  | tryte =>
    simp only [loadMem]
    rw [same a (beside (Int.le_refl a) (by simp [Width.size]))]

end Memory

/-- The lowest address of the frame of a function that is called in a state. -/
def frameLow (m : Fn) (e : MachineState T) : Int := e.read rsp - frameSize m

/-- The machine represents the registers and the slots of a function in their frame. -/
structure Represents (E : Encoding T) (m : Fn) (e : MachineState T)
    (f : FrameState Int (World T U)) (s : MachineState T) (u : U) : Prop where
  kept : Kept E m e s
  world : SameWorld (frameLow m e) (e.read rsp) f.state.world s u
  regs : ∀ r ∈ trMap, s.read r = f.state.reg r
  slots : ∀ slot < m.maxCallSave,
    loadMem E .word s.mem (e.read rsp - callSaveFploc m slot) = f.slots slot

/-- The address of a slot in the frame. -/
theorem slot_inside {slot : Nat} (inside : slot < m.maxCallSave) :
    frameLow m e ≤ e.read rsp - callSaveFploc m slot ∧
      e.read rsp - callSaveFploc m slot + 3 ≤ e.read rsp - (3 * m.maxCalleeSave + 6) := by
  simp only [frameLow, frameSize, callSaveFploc]
  push_cast
  omega

/-- A value that is not looked up: a register or an immediate. -/
def Known (v : Val) : Prop := v.isReg ∨ v.isImm

private theorem known_of_rname {v : Val} {r : Nat} (named : rname v = .ok r) : Known v := by
  rw [(rname_eq_ok.mp named).1]
  exact Or.inl rfl

namespace Represents

variable {f : FrameState Int (World T U)}

/-- Registers, and what is none, have the same value. -/
theorem value (represents : Represents E m e f s u) {symbols : String → Int} {v : Val}
    (allocable : v.isReg → v.Allocable) (known : Known v) :
    s.value v = (machineSemantics (T := T) (U := U) E symbols).value f.state v := by
  cases v with
  | reg r => exact represents.regs r (allocable rfl).num
  | imm => rfl
  | _ => rcases known with isReg | isImm <;> contradiction

/-- Only what is represented counts. -/
theorem congr {f' : FrameState Int (World T U)} (represents : Represents E m e f s u)
    (world : f'.state.world = f.state.world) (regs : f'.state.reg = f.state.reg)
    (slots : f'.slots = f.slots) : Represents E m e f' s u where
  kept := represents.kept
  world := world ▸ represents.world
  regs := regs ▸ represents.regs
  slots := slots ▸ represents.slots

/-- An allocable register is written. -/
theorem write (represents : Represents E m e f s u) {r : Nat} (listed : r ∈ trMap)
    (free : Free m r) (w : Int) :
    Represents E m e { f with state := f.state.write (.reg r) w } (s.write r w) u := by
  obtain ⟨real, notSp, -⟩ := special_of_listed listed
  exact {
    kept := represents.kept.write free w
    world := {
      sp := by
        rw [read_write_of_ne w notSp.symm]
        exact represents.world.sp
      mem := by
        rw [MachineState.write_mem]
        exact represents.world.mem
      outside := represents.world.outside }
    regs := fun q listed => by
      rw [MachineState.read_write _ _ _ _ real, represents.regs q listed]
      rfl
    slots := by
      rw [MachineState.write_mem]
      exact represents.slots }

/-- The stack pointer is moved. -/
theorem moveSp (represents : Represents E m e f s u) (sp : Int) :
    Represents E m e
      { f with state := { f.state with world := { f.state.world with sp } } }
      (s.write rsp sp) u where
  kept := represents.kept.write (free_of_special (Or.inl rfl)) sp
  world := {
    sp := by rw [MachineState.read_write _ _ _ _ (by decide), if_pos rfl]
    mem := by
      rw [MachineState.write_mem]
      exact represents.world.mem
    outside := represents.world.outside }
  regs r listed := by
    rw [read_write_of_ne sp (special_of_listed listed).2.1]
    exact represents.regs r listed
  slots := by
    rw [MachineState.write_mem]
    exact represents.slots

/-- The user stores beside the frame. -/
theorem store (represents : Represents E m e f s u) {width : Width} {a : Int} (w : Int)
    (away : a + width.size ≤ frameLow m e ∨ e.read rsp ≤ a) :
    Represents E m e
      { f with state := { f.state with world := { f.state.world with
        mem := storeMem E width f.state.world.mem a w } } }
      { s with mem := storeMem E width s.mem a w } u where
  kept := represents.kept.setMem fun i above below => by
    refine storeMem_of_outside ?_
    simp only [frameLow, frameSize] at away
    push_cast at away
    omega
  world := {
    sp := represents.world.sp
    mem := fun i beside => storeMem_congr (represents.world.mem i beside)
    outside := represents.world.outside }
  regs := represents.regs
  slots slot inside := by
    rw [← represents.slots slot inside]
    obtain ⟨above, below⟩ := slot_inside (e := e) inside
    exact loadMem_storeMem_of_disjoint (by omega)

/-- A register is saved in a slot. -/
theorem save (lawful : E.Lawful) (represents : Represents E m e f s u) {slot : Nat}
    (inside : slot < m.maxCallSave) (w : Int) :
    Represents E m e { f with slots := Function.update f.slots slot w }
      { s with mem := storeMem E .word s.mem (s.read rfp - callSaveFploc m slot) w } u := by
  obtain ⟨above, below⟩ := slot_inside (e := e) inside
  have fp := represents.kept.fp
  rw [fp]
  exact {
    kept := represents.kept.setMem fun i above below => by
      refine storeMem_of_outside ?_
      simp only [Width.size]
      omega
    world := {
      sp := represents.world.sp
      mem := fun i beside => by
        dsimp only
        rw [storeMem_of_outside, represents.world.mem i beside]
        simp only [Width.size]
        rcases beside with lower | higher <;> omega
      outside := represents.world.outside }
    regs := represents.regs
    slots := fun other inside' => by
      by_cases same : other = slot
      · subst other
        dsimp only
        rw [loadMem_storeMem_self lawful, Function.update_self]
      · have differ : (other : Int) ≠ slot := by omega
        dsimp only
        rw [Function.update_of_ne differ, ← represents.slots other inside']
        refine loadMem_storeMem_of_disjoint ?_
        simp only [callSaveFploc, Width.size]
        push_cast
        omega }

end Represents

section Insn

variable {symbols : String → Int} {call : Callee Int (World T U)}
  {clobber : Clobber Int (World T U)}
  {f : FrameState Int (World T U)} {n : Insn} {lines : List Line}

/-- What an instruction computes is written to its output. -/
theorem Represents.assign (represents : Represents E m e f s u) (printable : Printable m n)
    (w : Int) :
    Represents E m e { f with state := f.state.write n.out w } (s.assign n.out w) u := by
  cases out : n.out with
  | reg dst =>
    have allocable := printable.prepared.out (by rw [out]; rfl)
    rw [out] at allocable
    exact represents.write allocable.num (free_of_out printable.prepared printable.covered out) w
  | _ => exact represents.congr rfl rfl rfl

private theorem State.write_reg_of_noclass {W M : Type} {core : State W M} {v : Val}
    (none : v = .noclass) (w : W) : (core.write v w).reg = core.reg := by
  rw [none]
  rfl

variable (call clobber) in
/-- An instruction that only computes. -/
theorem Represents.computes (represents : Represents E m e f s u) (printable : Printable m n)
    (noCall : n.type ≠ .call) (noSaves : n.type.savesReg = false) {w : Int}
    (effect : (machineSemantics E symbols).effect n.type n.vtype
      ((machineSemantics E symbols).value f.state n.in0)
      ((machineSemantics E symbols).value f.state n.in1) n.v f.state.world = (w, f.state.world))
    (means : meaning E m n s = s.assign n.out w) :
    Represents E m e (FrameState.exec (machineSemantics E symbols) call clobber n f)
      (meaning E m n s) u := by
  rw [exec_frame call clobber noCall noSaves, means]
  refine (represents.assign printable w).congr ?_ ?_ rfl
  · simp [Semantics.exec, effect]
  · simp [Semantics.exec, effect]

/-- The operands of arithmetic that is printed. -/
theorem known_of_arith (printed : outputAdd n = .ok lines ∨ outputSub n = .ok lines ∨
    outputLt n = .ok lines) : Known n.in0 ∧ Known n.in1 := by
  have imm {v : Val} {i : Int} {type : VType} (same : v = .imm i type) : Known v := by
    rw [same]
    exact Or.inr rfl
  have reg {v : Val} {r : Nat} (same : v = .reg r) : Known v := by
    rw [same]
    exact Or.inl rfl
  rcases printed with printed | printed | printed
  · unfold outputAdd at printed
    split at printed
    · rename_i in1
      simp only [Result.bind_eq_ok] at printed
      obtain ⟨_, _, _, in0, _⟩ := printed
      exact ⟨known_of_rname in0, reg in1⟩
    · rename_i in1
      simp only [Result.bind_eq_ok] at printed
      obtain ⟨_, _, _, in0, _⟩ := printed
      exact ⟨known_of_rname in0, imm in1⟩
    · cases printed
  · unfold outputSub at printed
    split at printed
    · rename_i in1
      simp only [Result.bind_eq_ok] at printed
      obtain ⟨_, _, _, in0, _⟩ := printed
      exact ⟨known_of_rname in0, reg in1⟩
    · rename_i in1
      simp only [Result.bind_eq_ok] at printed
      obtain ⟨_, _, _, in0, _⟩ := printed
      exact ⟨known_of_rname in0, imm in1⟩
    · cases printed
  · unfold outputLt at printed
    split at printed
    · rename_i in1
      simp only [Result.bind_eq_ok] at printed
      obtain ⟨_, _, _, in0, _⟩ := printed
      exact ⟨known_of_rname in0, imm in1⟩
    · simp only [Result.bind_eq_ok] at printed
      obtain ⟨_, _, _, in0, _, in1, _⟩ := printed
      exact ⟨known_of_rname in0, known_of_rname in1⟩

section Operands

variable (represents : Represents E m e f s u) (printable : Printable m n)

include represents printable

variable (symbols) in
/-- The first operand, where it is not looked up. -/
private theorem Represents.value0 (known : Known n.in0) :
    s.value n.in0 = (machineSemantics (T := T) (U := U) E symbols).value f.state n.in0 :=
  represents.value printable.prepared.in0 known

variable (symbols) in
/-- The second operand, where it is not looked up. -/
private theorem Represents.value1 (known : Known n.in1) :
    s.value n.in1 = (machineSemantics (T := T) (U := U) E symbols).value f.state n.in1 :=
  represents.value printable.in1 known

end Operands

variable (E m e symbols call clobber f n) in
/-- The access of an instruction, if it makes one, goes beside the frame. -/
private def Accesses : Prop :=
  Orderly (frameLow m e) (e.read rsp) f.state.world.sp
    (((frameInterp (machineSemantics E symbols) call clobber).observe n f).filterMap access)

/-- A load or a store of the user is to memory beside the frame. -/
private theorem Accesses.beside (accesses : Accesses E m e symbols call clobber f n)
    (type : n.type = .load ∨ n.type = .store) :
    ((machineSemantics (U := U) E symbols).value f.state n.in0 + n.v) +
        (accessWidth n.vtype).size ≤ frameLow m e ∨
      e.read rsp ≤ (machineSemantics (U := U) E symbols).value f.state n.in0 + n.v := by
  rcases type with type | type <;>
    simp only [Accesses, frameInterp, type, List.filterMap_cons, Asm.access, insnAccess]
      at accesses <;>
    exact accesses.1

section Cases

variable (represents : Represents E m e f s u) (printable : Printable m n)
  (printed : outputInsn m n = .ok lines)

include represents printable printed

variable (symbols call clobber) in
private theorem Represents.insn_arith (type : n.type = .add ∨ n.type = .sub ∨ n.type = .lt) :
    Represents E m e (FrameState.exec (machineSemantics E symbols) call clobber n f)
      (meaning E m n s) u := by
  have known : Known n.in0 ∧ Known n.in1 := by
    apply known_of_arith
    rcases type with type | type | type <;> simp only [outputInsn, type] at printed
    · exact Or.inl printed
    · exact Or.inr (Or.inl printed)
    · exact Or.inr (Or.inr printed)
  have value0 := represents.value0 symbols printable known.1
  have value1 := represents.value1 symbols printable known.2
  rcases type with type | type | type <;>
  · refine represents.computes call clobber printable (by simp [type]) (by rw [type]; rfl)
      (by rw [type]; rfl) ?_
    rw [← value0, ← value1]
    simp [meaning, type]

variable (symbols call clobber) in
omit printed in
private theorem Represents.insn_copy (type : n.type = .copy) :
    Represents E m e (FrameState.exec (machineSemantics E symbols) call clobber n f)
      (meaning E m n s) u := by
  refine represents.computes call clobber printable (by simp [type]) (by rw [type]; rfl)
    (by rw [type]; rfl) ?_
  rw [← represents.value0 symbols printable (Or.inr (printable.assumed.copy type))]
  simp [meaning, type]

variable (symbols call clobber) in
private theorem Represents.insn_move (type : n.type = .move) :
    Represents E m e (FrameState.exec (machineSemantics E symbols) call clobber n f)
      (meaning E m n s) u := by
  have known (isReg : n.out.isReg) : Known n.in0 := by
    simp only [outputInsn, type, outputMove] at printed
    split at printed
    · -- Nothing is printed for a move of a register to itself.
      rename_i same
      left
      cases out : n.out <;> rw [out] at isReg same <;> cases isReg
      cases in0 : n.in0 <;> simp [in0, Val.same] at same
      rfl
    · simp only [Result.bind_eq_ok] at printed
      obtain ⟨_, _, _, in0, _⟩ := printed
      exact known_of_rname in0
  refine represents.computes call clobber printable (by simp [type]) (by rw [type]; rfl)
    (by rw [type]; rfl) ?_
  cases out : n.out with
  | reg r =>
    rw [← represents.value0 symbols printable (known (by rw [out]; rfl))]
    simp [meaning, type, out]
  | _ => simp [meaning, type, out, MachineState.assign]

private theorem Represents.insn_load (type : n.type = .load)
    (accesses : Accesses E m e symbols call clobber f n) :
    Represents E m e (FrameState.exec (machineSemantics E symbols) call clobber n f)
      (meaning E m n s) u := by
  simp only [outputInsn, type, outputLoad, Result.bind_eq_ok] at printed
  obtain ⟨_, _, _, in0, _⟩ := printed
  refine represents.computes call clobber printable (by simp [type]) (by rw [type]; rfl)
    (by rw [type]; rfl) ?_
  rw [← loadMem_beside represents.world.mem (accesses.beside (Or.inl type)),
    ← represents.value0 symbols printable (known_of_rname in0)]
  simp [meaning, type, width, accessWidth]

private theorem Represents.insn_store (type : n.type = .store)
    (accesses : Accesses E m e symbols call clobber f n) :
    Represents E m e (FrameState.exec (machineSemantics E symbols) call clobber n f)
      (meaning E m n s) u := by
  simp only [outputInsn, type, outputStore, Result.bind_eq_ok] at printed
  obtain ⟨_, in0, _, in1, _⟩ := printed
  have value0 := represents.value0 symbols printable (known_of_rname in0)
  have value1 := represents.value1 symbols printable (known_of_rname in1)
  have away := accesses.beside (Or.inr type)
  rw [← value0] at away
  rw [exec_frame call clobber (by simp [type]) (by rw [type]; rfl)]
  have means : meaning E m n s = { s with
      mem := storeMem E (accessWidth n.vtype) s.mem (s.value n.in0 + n.v) (s.value n.in1) } := by
    simp [meaning, type, width, accessWidth]
  rw [means]
  refine (represents.store (s.value n.in1) away).congr ?_ ?_ rfl
  · rw [value0, value1]
    simp only [Semantics.exec, type]
    rfl
  · exact State.write_reg_of_noclass (printable.silent (Or.inl type)) _

variable (symbols call clobber) in
omit printed in
private theorem Represents.insn_alloc (type : n.type = .alloc) :
    Represents E m e (FrameState.exec (machineSemantics E symbols) call clobber n f)
      (meaning E m n s) u := by
  rw [exec_frame call clobber (by simp [type]) (by rw [type]; rfl)]
  have means : meaning E m n s = (s.write rsp (f.state.world.sp - n.v)).assign n.out
      (f.state.world.sp - n.v) := by
    simp [meaning, type, ← represents.world.sp]
  rw [means]
  refine ((represents.moveSp _).assign printable _).congr ?_ ?_ rfl
  · simp only [Semantics.exec, type, State.write_world]
    rfl
  · simp only [Semantics.exec, type]
    cases n.out <;> rfl

variable (symbols call clobber) in
omit printed in
private theorem Represents.insn_dealloc (type : n.type = .dealloc) :
    Represents E m e (FrameState.exec (machineSemantics E symbols) call clobber n f)
      (meaning E m n s) u := by
  rw [exec_frame call clobber (by simp [type]) (by rw [type]; rfl)]
  have means : meaning E m n s = s.write rsp (f.state.world.sp + n.v) := by
    simp [meaning, type, ← represents.world.sp]
  rw [means]
  refine (represents.moveSp _).congr ?_ ?_ rfl
  · simp only [Semantics.exec, type]
    rfl
  · exact State.write_reg_of_noclass (printable.silent (Or.inr (Or.inl type))) _

variable (symbols call clobber) in
private theorem Represents.insn_save (lawful : E.Lawful) (type : n.type = .save) :
    Represents E m e (FrameState.exec (machineSemantics E symbols) call clobber n f)
      (meaning E m n s) u := by
  simp only [outputInsn, type, outputSave, Result.bind_eq_ok] at printed
  obtain ⟨_, in0, _⟩ := printed
  obtain ⟨-, -, slot, inside, in1⟩ := printable.saves (by rw [type]; rfl)
  have means : meaning E m n s = { s with
      mem := storeMem E .word s.mem (s.read rfp - callSaveFploc m slot) (s.value n.in0) } := by
    simp [meaning, type, slotAddress, in1, slotField]
  rw [means, represents.value0 symbols printable (known_of_rname in0)]
  refine (represents.save lawful inside _).congr ?_ ?_ ?_ <;>
    simp [FrameState.exec, execFramed, type, in1]

variable (symbols call clobber) in
omit printed in
private theorem Represents.insn_restore (type : n.type = .restore) :
    Represents E m e (FrameState.exec (machineSemantics E symbols) call clobber n f)
      (meaning E m n s) u := by
  obtain ⟨caller, allocable, slot, inside, in1⟩ := printable.saves (by rw [type]; rfl)
  obtain ⟨r, listed, same⟩ := allocable
  have free : Free m r := by
    rw [same] at caller
    have unlisted : r ∉ rsMap := by simpa [Regalloc.calleeSave] using caller
    refine free_of_allocable ⟨r, listed, rfl⟩ ?_
    rw [highestSreg, if_neg unlisted]
    exact Nat.zero_le _
  have means : meaning E m n s = s.write r (f.slots slot) := by
    rw [← represents.slots slot inside]
    simp [meaning, type, slotAddress, in1, slotField, same, MachineState.assign,
      represents.kept.fp]
  rw [means]
  refine (represents.write listed free _).congr ?_ ?_ ?_ <;>
    simp [FrameState.exec, execFramed, type, in1, same]

end Cases

/-- The machine does what an instruction other than a call does in the frame. -/
theorem Represents.insn (lawful : E.Lawful) (represents : Represents E m e f s u)
    (printable : Printable m n) (noCall : n.type ≠ .call) (printed : outputInsn m n = .ok lines)
    (orderly : Orderly (frameLow m e) (e.read rsp) f.state.world.sp
      (((frameInterp (machineSemantics E symbols) call clobber).observe n f).filterMap access)) :
    Represents E m e (FrameState.exec (machineSemantics E symbols) call clobber n f)
      (meaning E m n s) u := by
  cases type : n.type with
  | call => exact absurd type noCall
  | add => exact represents.insn_arith symbols call clobber printable printed (Or.inl type)
  | sub => exact represents.insn_arith symbols call clobber printable printed (.inr (.inl type))
  | lt => exact represents.insn_arith symbols call clobber printable printed (.inr (.inr type))
  | copy => exact represents.insn_copy symbols call clobber printable type
  | move => exact represents.insn_move symbols call clobber printable printed type
  | load => exact represents.insn_load printable printed type orderly
  | store => exact represents.insn_store printable printed type orderly
  | alloc => exact represents.insn_alloc symbols call clobber printable type
  | dealloc => exact represents.insn_dealloc symbols call clobber printable type
  | save => exact represents.insn_save symbols call clobber printable printed lawful type
  | restore => exact represents.insn_restore symbols call clobber printable type
  | _ =>
    simp only [outputInsn, type] at printed
    cases printed

variable (E symbols) in
private theorem effect_sp (type : InsnType) (vtype : VType) (w x v : Int) (world : World T U) :
    ((machineSemantics E symbols).effect type vtype w x v world).2.sp =
      world.sp - lowered (insnAccess type vtype w v).toList := by
  cases type <;> simp [machineSemantics, insnAccess, lowered]

variable (E symbols call clobber f) in
/-- An instruction other than a call moves the stack pointer as its access says. -/
theorem sp_exec (noCall : n.type ≠ .call) :
    (FrameState.exec (machineSemantics E symbols) call clobber n f).state.world.sp =
      f.state.world.sp - lowered
        (((frameInterp (machineSemantics E symbols) call clobber).observe n f).filterMap
          access) := by
  have plain : ((machineSemantics E symbols).exec n f.state).world.sp = f.state.world.sp -
      lowered (insnAccess n.type n.vtype ((machineSemantics E symbols).value f.state n.in0)
        n.v).toList :=
    effect_sp E symbols n.type n.vtype _ ((machineSemantics E symbols).value f.state n.in1) n.v
      f.state.world
  by_cases saves : n.type.savesReg
  · have still : (FrameState.exec (machineSemantics E symbols) call clobber n f).state.world =
        f.state.world := by
      cases type : n.type <;> rw [type] at saves <;> try cases saves
      all_goals
        cases in1 : n.in1 <;>
          simp [FrameState.exec, execFramed, type, in1, Semantics.exec, machineSemantics]
    rw [still]
    cases type : n.type <;> rw [type] at saves <;> try cases saves
    all_goals simp [frameInterp, type, lowered]
  · rw [exec_frame call clobber noCall (by simpa using saves)]
    refine plain.trans ?_
    cases type : n.type <;> first
      | exact absurd type noCall
      | simp [frameInterp, type, access, insnAccess, List.filterMap_cons]

/-- A call of a routine that does what `call` says. The registers it need not keep may hold
anything behind it. -/
theorem Represents.called {routine : Routine T U} {occurs : Int → MachineState T → U → Prop}
    (represents : Represents E m e f s u) (calls : m.hasCalls)
    (serves : Serves occurs (frameLow m e) (e.read rsp) call routine)
    (type : n.type = .call) {target : Int} (occurred : occurs target s u)
    (below : f.state.world.sp ≤ frameLow m e)
    (same : (machineSemantics (U := U) E symbols).value f.state n.in0 = target) :
    Represents E m e
      (FrameState.exec (machineSemantics E symbols) call
        (fun _ => (routine target s u).1.read) n f)
      (routine target s u).1 (routine target s u).2 ∧
    (FrameState.exec (machineSemantics E symbols) call
      (fun _ => (routine target s u).1.read) n f).state.world.sp = f.state.world.sp := by
  have answers := serves target (argRegs ⟨f.state, f.passed, 0⟩ f.passed) f.state.world s u
    occurred
    (fun k inside w passed => by
      unfold argRegs at passed
      split at passed
      · rw [represents.regs _ (arMap_subset (ra_mem inside))]
        exact Option.some.inj passed
      · cases passed) below represents.world
  have frame : ∀ i, frameLow m e ≤ i → i < e.read rsp → (routine target s u).1.mem i = s.mem i :=
    answers.back.frame
  have sp := (answers.back.regs rsp List.mem_cons_self).symm.trans answers.world.sp
  simp only [FrameState.exec, type, same]
  refine ⟨?_, sp.symm.trans represents.world.sp⟩
  exact {
    kept := represents.kept.comesBack calls answers.back
    world := answers.world
    regs := fun r listed => by
      dsimp only [behindCallee, afterCall]
      split
      · rename_i arg
        obtain ⟨k, inside, rfl⟩ := exists_ra arg
        rw [answers.results k inside]
        exact (behindCallee_ra _ (routine target s u).1.read f.state.reg inside).symm.trans
          (if_pos arg)
      · split
        · rename_i callee
          rw [answers.back.regs r (by simp [callee]), represents.regs r listed]
        · rfl
    slots := fun slot inside => by
      obtain ⟨above, below⟩ := slot_inside (e := e) inside
      dsimp only
      rw [← represents.slots slot inside]
      exact loadMem_congr fun i from' lower => frame i (by omega) (by omega) }

end Insn

end Qbt.Asm
