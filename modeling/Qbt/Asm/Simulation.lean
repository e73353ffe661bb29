import Qbt.Asm.Represents
import Qbt.Regalloc.Preserves

/-!
# The text of a block

Label, instructions, moves and branch: the lines of a block do on the machine what the block does
with registers and slots. What a routine leaves in the registers it need not keep is known on the
machine only, so it is chosen behind the call.
-/

namespace Qbt.Asm

open Abi Regalloc

variable {T U : Type} {E : Encoding T} {symbols : String → Int} {routine : Routine T U}
  {text : List Line} {m : Fn} {e s : MachineState T} {u : U} {call : Callee Int (World T U)}
  {clobber : Clobber Int (World T U)} {f : FrameState Int (World T U)}

section Insns

variable {n : Insn} {lines : List Line} {insns : List Insn} {parts : List (List Line)}

private theorem effects_eq_meaning (printable : Printable m n) (noCall : n.type ≠ .call)
    (printed : outputInsn m n = .ok lines) (s : MachineState T) :
    effects E lines s = meaning E m n s := by
  have straight : ∀ l ∈ lines, l.straight := fun l member =>
    (outputInsn_inner m n lines printed l member).straight noCall
  have selects := (selects_iff (E := E) printable.prepared noCall printed).mpr printable.assumed
  have executed := exec_append E straight [] s
  rw [List.append_nil, selects.2 s] at executed
  exact (congrArg Prod.snd executed).symm

variable (clobber) in
/-- Instructions other than calls are executed one behind the other, and nothing is visible of
them. -/
theorem Represents.plain (lawful : E.Lawful)
    (printed : List.Forall₂ (fun n part => outputInsn m n = .ok part) insns parts)
    (printable : ∀ n ∈ insns, Printable m n) (noCall : ∀ n ∈ insns, n.type ≠ .call)
    (represents : Represents E m e f s u)
    (orderly : Orderly (frameLow m e) (e.read rsp) f.state.world.sp
      (((frameInterp (machineSemantics E symbols) call clobber).perform insns f).1.filterMap
        access)) :
    (∀ l ∈ parts.flatten, l.straight) ∧
      Represents E m e ((frameInterp (machineSemantics E symbols) call clobber).perform insns f).2
        (effects E parts.flatten s) u ∧
      ((frameInterp (machineSemantics E symbols) call clobber).perform insns f).1.filterMap
        visible = [] := by
  induction printed generalizing f s with
  | nil => exact ⟨by simp, represents, rfl⟩
  | @cons n part rest parts' head _ ih =>
    rw [List.forall_mem_cons] at printable noCall
    rw [Interp.perform_cons, List.filterMap_append, orderly_append,
      ← sp_exec E symbols call clobber f noCall.1] at orderly
    have here := represents.insn lawful printable.1 noCall.1 head orderly.1
    rw [← effects_eq_meaning printable.1 noCall.1 head] at here
    obtain ⟨straight, behind, nothing⟩ := ih printable.2 noCall.2 here orderly.2
    have unseen : ((frameInterp (machineSemantics E symbols) call clobber).observe n f).filterMap
        visible = [] := by
      have other := noCall.1
      cases type : n.type <;> rw [type] at other <;>
        first
        | exact absurd rfl other
        | simp [frameInterp, type, visible]
    refine ⟨?_, ?_, ?_⟩
    · rw [List.flatten_cons, List.forall_mem_append]
      exact ⟨fun l member => (outputInsn_inner m n part head l member).straight noCall.1, straight⟩
    · rw [List.flatten_cons, effects, List.foldl_append]
      exact behind
    · rw [Interp.perform_cons, List.filterMap_append, unseen, List.nil_append]
      exact nothing

variable (E symbols call clobber) in
/-- And they move the stack pointer as their accesses say. -/
theorem sp_perform (noCall : ∀ n ∈ insns, n.type ≠ .call) (f : FrameState Int (World T U)) :
    ((frameInterp (machineSemantics E symbols) call clobber).perform insns f).2.state.world.sp =
      f.state.world.sp - lowered
        (((frameInterp (machineSemantics E symbols) call clobber).perform insns f).1.filterMap
          access) := by
  induction insns generalizing f with
  | nil => simp [lowered]
  | cons n rest ih =>
    rw [List.forall_mem_cons] at noCall
    have here := sp_exec E symbols call clobber f noCall.1
    rw [Interp.perform_cons, List.filterMap_append, lowered_append, ← Int.sub_sub, ← here]
    exact ih noCall.2 _

/-- The address a call goes to. -/
def callTarget (symbols : String → Int) (s : MachineState T) : Val → Int
  | .ref symbol => symbols symbol
  | v => s.value v

variable (symbols routine text e) in
/-- The line of a call goes to the routine it names. -/
theorem step_called (printable : Printable m n) (type : n.type = .call)
    (printed : outputInsn m n = .ok lines) :
    (∀ rest s u, (lineMachine E symbols routine text).step ⟨lines ++ rest, s, u⟩ =
      some (Running.called routine (callTarget symbols s n.in0) rest
        ⟨lines ++ rest, s, u⟩)) ∧
      ∀ {f s u}, Represents E m e f s u →
        (machineSemantics (U := U) E symbols).value f.state n.in0 = callTarget symbols s n.in0 := by
  simp only [outputInsn, type] at printed
  unfold outputCall at printed
  split at printed
  · rename_i symbol in0
    cases printed
    rw [in0]
    exact ⟨fun _ _ _ => rfl, fun _ => rfl⟩
  · rename_i r in0
    simp only [Result.bind_eq_ok, rname_eq_ok, Result.pure_eq, Except.ok.injEq] at printed
    obtain ⟨_, ⟨in0', -⟩, rfl⟩ := printed
    obtain rfl := Val.reg.inj (in0.symm.trans in0')
    refine ⟨fun rest s u => by rw [in0]; rfl, fun {f s u} represents => ?_⟩
    have same : s.value n.in0 = (machineSemantics E symbols).value f.state n.in0 :=
      represents.value printable.prepared.in0 (Or.inl (by rw [in0]; rfl))
    rw [← same, in0]
    rfl
  · cases printed

variable (E symbols call clobber) in
/-- A call makes no access. -/
private theorem access_of_call (type : n.type = .call) (f : FrameState Int (World T U)) :
    ((frameInterp (machineSemantics E symbols) call clobber).observe n f).filterMap access =
      [] := by
  simp [frameInterp, type, access]

variable (E symbols call clobber) in
/-- Of a call its target is visible. -/
private theorem visible_of_call (type : n.type = .call) (f : FrameState Int (World T U)) :
    ((frameInterp (machineSemantics E symbols) call clobber).observe n f).filterMap visible =
      [.call ((machineSemantics (U := U) E symbols).value f.state n.in0)] := by
  simp [frameInterp, type, visible]

/-- Beside the only call there are no others. -/
theorem others_of_once {front behind : List Insn}
    (once : ((front ++ n :: behind).filter (·.type = .call)).length ≤ 1) (type : n.type = .call) :
    (∀ n ∈ front, n.type ≠ .call) ∧ ∀ n ∈ behind, n.type ≠ .call := by
  rw [List.filter_append, List.filter_cons, if_pos (by simp [type]), List.length_append,
    List.length_cons] at once
  have none {l : List Insn} (empty : (l.filter (·.type = .call)).length = 0) :
      ∀ n ∈ l, n.type ≠ .call := by
    rw [List.length_eq_zero_iff, List.filter_eq_nil_iff] at empty
    exact fun n member same => empty n member (by simpa using same)
  exact ⟨none (by omega), none (by omega)⟩

variable (symbols text) in
/-- The instructions of a block, which calls once at most. -/
theorem Represents.performed (lawful : E.Lawful)
    {start : Running T U}
    (serves : Serves (CalledFrom E symbols routine text start) (frameLow m e) (e.read rsp) call
      routine)
    (printed : List.Forall₂ (fun n part => outputInsn m n = .ok part) insns parts)
    (printable : ∀ n ∈ insns, Printable m n)
    (once : (insns.filter (·.type = .call)).length ≤ 1) (represents : Represents E m e f s u)
    (orderly : ∀ clobber, Orderly (frameLow m e) (e.read rsp) f.state.world.sp
      (((frameInterp (machineSemantics E symbols) call clobber).perform insns f).1.filterMap
        access)) (rest : List Line) {before : List Visible}
    (came : (lineMachine E symbols routine text).Goes start before ⟨parts.flatten ++ rest, s, u⟩) :
    ∃ clobber s' u', (lineMachine E symbols routine text).Goes ⟨parts.flatten ++ rest, s, u⟩
        (((frameInterp (machineSemantics E symbols) call clobber).perform insns f).1.filterMap
          visible) ⟨rest, s', u'⟩ ∧
      Represents E m e
        ((frameInterp (machineSemantics E symbols) call clobber).perform insns f).2 s' u' ∧
      ((frameInterp (machineSemantics E symbols) call clobber).perform insns f).2.state.world.sp =
        f.state.world.sp - lowered
          (((frameInterp (machineSemantics E symbols) call clobber).perform insns f).1.filterMap
            access) := by
  by_cases calls : ∃ n ∈ insns, n.type = .call
  · obtain ⟨n, member, type⟩ := calls
    obtain ⟨front, behind, rfl⟩ := List.append_of_mem member
    obtain ⟨none, none'⟩ := others_of_once once type
    obtain ⟨parts₁, _, rfl, printed₁, printed⟩ := Lists.append_of_forall₂ printed
    obtain ⟨lines, parts₂, head, printed₂, rfl⟩ := List.forall₂_cons_left_iff.mp printed
    rw [List.forall_mem_append, List.forall_mem_cons] at printable
    obtain ⟨printable₁, printableCall, printable₂⟩ := printable
    simp only [Interp.perform_append, Interp.perform_cons, List.filterMap_append,
      orderly_append] at orderly
    obtain ⟨steps, target⟩ := step_called (E := E) symbols routine text e printableCall
      type head
    -- What the routine leaves depends on what is done in front of the call on the machine.
    let back := routine (callTarget symbols (effects E parts₁.flatten s) n.in0)
      (effects E parts₁.flatten s) u
    let clobber : Clobber Int (World T U) := fun _ => back.1.read
    obtain ⟨orderly₁, here, orderly₂⟩ := orderly clobber
    obtain ⟨straight₁, represents₁, nothing₁⟩ :=
      represents.plain clobber lawful printed₁ printable₁ none orderly₁
    have still := access_of_call E symbols call clobber type
      ((frameInterp (machineSemantics E symbols) call clobber).perform front f).2
    have sp₁ := sp_perform E symbols call clobber none f
    rw [← sp₁] at here orderly₂
    rw [still] at orderly₂
    have ahead := goes_effects (E := E) symbols routine text straight₁
      (lines ++ (parts₂.flatten ++ rest)) s u
    rw [List.flatten_append, List.flatten_cons, List.append_assoc, List.append_assoc] at came
    have occurred : CalledFrom E symbols routine text start
        (callTarget symbols (effects E parts₁.flatten s) n.in0) (effects E parts₁.flatten s) u :=
      ⟨_, _, _, came.trans ahead, steps _ _ _⟩
    have called : Represents E m e ((frameInterp (machineSemantics E symbols) call clobber).exec n
        ((frameInterp (machineSemantics E symbols) call clobber).perform front f).2)
          back.1 back.2 ∧ ((frameInterp (machineSemantics E symbols) call clobber).exec n
        ((frameInterp (machineSemantics E symbols) call clobber).perform front
          f).2).state.world.sp =
        ((frameInterp (machineSemantics E symbols) call clobber).perform front
          f).2.state.world.sp :=
      represents₁.called (printableCall.calls type) serves type occurred here.sp_le
        (target represents₁)
    obtain ⟨called, spCalled⟩ := called
    rw [lowered, Int.sub_zero, ← spCalled] at orderly₂
    obtain ⟨straight₂, represents₂, nothing₂⟩ :=
      called.plain clobber lawful printed₂ printable₂ none' orderly₂
    refine ⟨clobber, effects E parts₂.flatten back.1, back.2, ?_, ?_, ?_⟩
    · have path := (ahead.trans (.step (steps _ _ _))).trans
        (goes_effects symbols routine text straight₂ rest back.1 back.2)
      have shown := visible_of_call E symbols call clobber type
        ((frameInterp (machineSemantics E symbols) call clobber).perform front f).2
      rw [target represents₁] at shown
      rw [Interp.perform_append, Interp.perform_cons, List.filterMap_append, nothing₁,
        List.filterMap_append, shown, nothing₂]
      simpa using path
    · rw [Interp.perform_append, Interp.perform_cons]
      exact represents₂
    · rw [Interp.perform_append, Interp.perform_cons]
      simp only [List.filterMap_append, still, List.nil_append, lowered_append]
      rw [← Int.sub_sub, ← sp₁, ← spCalled]
      exact sp_perform E symbols call clobber none' _
  · push Not at calls
    obtain ⟨straight, behind, nothing⟩ := represents.plain (fun _ _ => 0) lawful printed
      printable calls (orderly _)
    refine ⟨_, _, _, ?_, behind, sp_perform E symbols call _ calls f⟩
    rw [nothing]
    exact goes_effects symbols routine text straight rest s u

end Insns

/-- What holds wherever control is between the prologue and the epilogue of a function. -/
structure InFrame (E : Encoding T) (m : Fn) (e : MachineState T) (world : World T U)
    (s : MachineState T) (u : U) : Prop where
  kept : Kept E m e s
  world : SameWorld (frameLow m e) (e.read rsp) world s u

/-- The registers and the slots as they are on the machine. -/
def frameOf (E : Encoding T) (m : Fn) (e : MachineState T) (world : World T U)
    (s : MachineState T) : FrameState Int (World T U) where
  state := { tmp := fun _ => 0, reg := s.read, world }
  slots i := loadMem E .word s.mem (e.read rsp - callSaveFploc m i.toNat)
  passed := 0

section Moves

variable {world : World T U} {made : List (Nat × Nat)}

/-- The caller's part and the world are as in the frame. -/
theorem Represents.inFrame (represents : Represents E m e f s u) :
    InFrame E m e f.state.world s u := ⟨represents.kept, represents.world⟩

/-- A frame represents the state that is read out of it. -/
theorem InFrame.represents (inFrame : InFrame E m e world s u) :
    Represents E m e (frameOf E m e world s) s u where
  kept := inFrame.kept
  world := inFrame.world
  regs _ _ := rfl
  slots _ _ := rfl

private theorem effects_moves (made : List (Nat × Nat)) (s : MachineState T) :
    effects E (made.map mvLine) s = moved made s := by
  rw [effects, List.foldl_map]
  rfl

private theorem straight_moves (made : List (Nat × Nat)) : ∀ l ∈ made.map mvLine, l.straight := by
  intro l member
  obtain ⟨move, -, rfl⟩ := List.mem_map.mp member
  rfl

/-- Moves to registers that are free. -/
theorem InFrame.moved (inFrame : InFrame E m e world s u)
    (free : ∀ move ∈ made, Free m move.1 ∧ move.1 ≠ rsp) :
    InFrame E m e world (moved made s) u := by
  induction made generalizing s with
  | nil => exact inFrame
  | cons move rest ih =>
    rw [List.forall_mem_cons] at free
    refine ih ⟨inFrame.kept.write free.1.1 _, ?_⟩ free.2
    have same := inFrame.world
    exact {
      sp := by rw [read_write_of_ne _ free.1.2.symm, same.sp]
      mem := by
        rw [MachineState.write_mem]
        exact same.mem
      outside := same.outside }

/-- The moves of an edge go to registers that are free. -/
theorem free_of_implements (allocated : Allocated m)
    (fits : ∀ b ∈ m.blks, b.FitsFrame m.maxCalleeSave m.maxCallSave m.hasCalls)
    {next : Option Nat} {args : List Val}
    (implements : ParallelMove.Implements rtmp0 (edgeMoves m next args) made) :
    ∀ move ∈ made, Free m move.1 ∧ move.1 ≠ rsp := by
  intro move member
  rcases implements.only move member with needed | scratch
  · cases found : next.bind m.find? with
    | none => simp [edgeMoves, found] at needed
    | some b =>
      obtain ⟨id, -, found'⟩ := Option.bind_eq_some_iff.mp found
      simp only [edgeMoves, found] at needed
      obtain ⟨⟨p, a⟩, zipped, rfl⟩ := List.mem_map.mp needed
      have param := (List.of_mem_zip zipped).1
      have listed := Fn.find?_mem found'
      obtain ⟨r, inTable, rfl⟩ := (allocated.inRegs b listed).1 p param
      exact ⟨free_of_allocable ⟨r, inTable, rfl⟩ ((fits b listed).params _ param),
        (special_of_listed inTable).2.1⟩
  · rw [scratch]
    exact ⟨free_of_special (Or.inr rfl), by decide⟩

/-- The moves of an edge that is none. -/
theorem made_of_none {args : List Val}
    (implements : ParallelMove.Implements rtmp0 (edgeMoves m none args) made) : made = [] := by
  have nothing : edgeMoves m none args = [] := rfl
  rw [nothing] at implements
  have within := (implements.order (ParallelMove.acyclic_of_rank id (by simp))).1
  exact List.eq_nil_iff_forall_not_mem.mpr fun move member => by simpa using within move member

end Moves

section Prologue

/-- The stores of the callee-saved registers. -/
def calleeStores (count : Nat) : List Line :=
  (List.range count).map fun i => .st .word (sreg i) (-calleeSaveFploc i) rfp

private theorem effects_append (first second : List Line) (s : MachineState T) :
    effects E (first ++ second) s = effects E second (effects E first s) :=
  List.foldl_append

/-- The stores of the prologue go to the words of the callee-saved registers. -/
theorem effects_stores_beside (count : Nat) (s : MachineState T) :
    (effects E (calleeStores count) s).regs = s.regs ∧
      ∀ i, Beside (s.read rfp - (3 * count + 6)) (s.read rfp) i →
        (effects E (calleeStores count) s).mem i = s.mem i := by
  induction count with
  | zero => exact ⟨rfl, fun _ _ => rfl⟩
  | succ count ih =>
    obtain ⟨regs, mem⟩ := ih
    have last : calleeStores (count + 1) =
        calleeStores count ++ [.st .word (sreg count) (-calleeSaveFploc count) rfp] := by
      simp [calleeStores, List.range_succ]
    rw [last, effects_append]
    refine ⟨regs, fun i beside => ?_⟩
    have fp : (effects E (calleeStores count) s).read rfp = s.read rfp := by
      rw [MachineState.read_of_ne _ (by decide), MachineState.read_of_ne _ (by decide), regs]
    rw [← mem i (beside.imp_left fun below => by push_cast at below; omega)]
    generalize effects E (calleeStores count) s = mid at fp
    change storeMem E .word mid.mem (mid.read rfp + -calleeSaveFploc count) _ i = mid.mem i
    rw [fp]
    refine storeMem_of_outside ?_
    simp only [calleeSaveFploc, Width.size]
    push_cast
    rcases beside with below | above
    · push_cast at below
      omega
    · omega

/-- The lines in front of the stores. -/
theorem effects_enter (m : Fn) (e : MachineState T) : ∃ front,
    saveState m = front ++ calleeStores m.maxCalleeSave ∧
    (effects E front e).read rfp = e.read rsp ∧
    (∀ r, r ≠ rsp → r ≠ rfp → (effects E front e).read r = e.read r) ∧
    ∀ i, Beside (e.read rsp - 6) (e.read rsp) i → (effects E front e).mem i = e.mem i := by
  have stored {mem : Int → T} {w d : Int} (inside : 3 ≤ d ∧ d ≤ 6) {i : Int}
      (beside : Beside (e.read rsp - 6) (e.read rsp) i) :
      storeMem E .word mem (e.read rsp + -d) w i = mem i := by
    refine storeMem_of_outside ?_
    simp only [Width.size]
    rcases beside with below | above <;> omega
  -- `fp` and `ra` are stored, and `fp` and `sp` are set.
  have state : ∃ front mem w, saveState m = front ++ calleeStores m.maxCalleeSave ∧
      effects E front e = MachineState.write { e.write rfp (e.read rsp) with mem } rsp w ∧
        ∀ i, Beside (e.read rsp - 6) (e.read rsp) i → mem i = e.mem i := by
    rw [saveState]
    cases calls : m.hasCalls with
    | false => exact ⟨_, _, _, rfl, rfl, fun i beside => stored (d := fpFploc) (by decide) beside⟩
    | true =>
      refine ⟨_, storeMem E .word (storeMem E .word e.mem (e.read rsp + -fpFploc) (e.read rfp))
        (e.read rsp + -raFploc) (e.read rra), _, rfl, rfl, fun i beside => ?_⟩
      rw [stored (d := raFploc) (by decide) beside, stored (d := fpFploc) (by decide) beside]
  obtain ⟨front, mem, w, split, state, others⟩ := state
  refine ⟨front, split, ?_, fun r notSp notFp => ?_, fun i beside => ?_⟩
  · rw [state, read_write_of_ne _ (by decide)]
    exact (MachineState.read_write e rfp rfp _ (by decide)).trans (if_pos rfl)
  · rw [state, read_write_of_ne _ notSp]
    exact read_write_of_ne _ notFp
  · rw [state, MachineState.write_mem]
    exact others i beside

/-- Behind the prologue nothing has changed but `fp`, `sp` and the frame. -/
theorem effects_saveState (lawful : E.Lawful) (m : Fn) (e : MachineState T) (u : U) :
    InFrame E m e ⟨frameLow m e, e.mem, u⟩ (effects E (saveState m) e) u ∧
      ∀ r ∈ trMap, (effects E (saveState m) e).read r = e.read r := by
  obtain ⟨front, split, fp, regs, mem⟩ := effects_enter (E := E) m e
  obtain ⟨regs', mem'⟩ := effects_stores_beside (E := E) m.maxCalleeSave (effects E front e)
  have whole := effects_append (E := E) front (calleeStores m.maxCalleeSave) e
  rw [← split] at whole
  rw [fp] at mem'
  refine ⟨⟨prologue_kept lawful m e, prologue_sp E m e, fun i beside => ?_, rfl⟩,
    fun r listed => ?_⟩
  · rw [whole, mem' i ?_, mem i ?_] <;>
      simp only [Beside, frameLow, frameSize] at beside ⊢ <;> push_cast at beside <;> omega
  · obtain ⟨-, notSp, notFp, -⟩ := special_of_listed listed
    rw [← regs r notSp notFp, whole]
    simp only [MachineState.read, regs']

end Prologue

section Epilogue

variable {lines : List Line} {r : Nat}

/-- Lines that write other registers. -/
theorem effects_of_targets (targets : ∀ l ∈ lines, ∃ dst, l.target? = some dst ∧ dst ≠ r)
    (s : MachineState T) :
    (effects E lines s).mem = s.mem ∧ (effects E lines s).read r = s.read r := by
  induction lines generalizing s with
  | nil => exact ⟨rfl, rfl⟩
  | cons line rest ih =>
    rw [List.forall_mem_cons] at targets
    obtain ⟨⟨dst, target, differ⟩, targets⟩ := targets
    obtain ⟨-, w, effect⟩ := effect_of_target E target s
    obtain ⟨mem, read⟩ := ih targets (s.write dst w)
    rw [effects, List.foldl_cons, effect]
    exact ⟨mem.trans (MachineState.write_mem _ _ _), read.trans (read_write_of_ne w differ.symm)⟩

private theorem restoreState_straight : ∀ l ∈ restoreState m, l.straight := by
  intro l member
  simp only [restoreState, List.mem_append, List.mem_map] at member
  rcases member with (⟨k, -, rfl⟩ | ra) | last
  · rfl
  · split at ra
    · rw [List.mem_singleton.mp ra]
      rfl
    · cases ra
  · simp only [List.mem_cons, List.not_mem_nil, or_false] at last
    rcases last with rfl | rfl <;> rfl

/-- The epilogue gives back the registers of the caller. It neither stores nor writes the registers
of results. -/
theorem effects_restoreState (kept : Kept E m e s) :
    Restored e (effects E (restoreState m) s) ∧
      (effects E (restoreState m) s).mem = s.mem ∧
        ∀ r ∈ arMap, (effects E (restoreState m) s).read r = s.read r := by
  have others (r : Nat) (listed : r ∈ arMap) :
      ∀ l ∈ restoreState m, ∃ dst, l.target? = some dst ∧ dst ≠ r := by
    obtain ⟨real, notSp, notFp, notRa, -⟩ := special_of_listed (arMap_subset listed)
    have saved (k : Nat) : sreg k ≠ r := by
      by_cases inside : k < 24
      · rintro rfl
        exact rsMap_disjoint_arMap (sreg_mem inside) listed
      · rw [sreg_outside (Nat.le_of_not_lt inside)]
        exact real.symm
    intro l member
    simp only [restoreState, List.mem_append, List.mem_map] at member
    rcases member with (⟨k, -, rfl⟩ | ra) | last
    · exact ⟨_, rfl, saved k⟩
    · split at ra
      · rw [List.mem_singleton.mp ra]
        exact ⟨_, rfl, notRa.symm⟩
      · cases ra
    · simp only [List.mem_cons, List.not_mem_nil, or_false] at last
      rcases last with rfl | rfl
      · exact ⟨_, rfl, notSp.symm⟩
      · exact ⟨_, rfl, notFp.symm⟩
  obtain ⟨s', left, restored⟩ := exec_leave kept []
  rw [outputRet, List.append_assoc, exec_append E restoreState_straight] at left
  obtain rfl : effects E (restoreState m) s = s' := congrArg Prod.snd left
  refine ⟨restored, ?_, fun r listed => (effects_of_targets (others r listed) s).2⟩
  exact (effects_of_targets (others (ra 0) (ra_mem (by decide))) s).1

end Epilogue

/-- The moves and the branch at the end of a block do not disturb each other. -/
structure SoundEdges (m : Fn) (b : Blk) : Prop where
  jump : b.btype = .j → ParallelMove.Sequential (edgeMoves m b.s2 b.args2)
  branch : ∀ cond left right, comparison b = some (cond, left, right) →
    Undisturbed (edgeMoves m b.s2 b.args2) (edgeMoves m b.s1 b.args1) cond left right

/-- `text` is printed for `m`, which computes in registers what `k` computes in temporaries. -/
structure Emitted (rmap : List Val) (k m : Fn) (n : Nat) (text : List Line) : Prop where
  placed : Placed rmap k m n
  allocated : Allocated m
  fits : ∀ b ∈ m.blks, b.FitsFrame m.maxCalleeSave m.maxCallSave m.hasCalls
  printable : ∀ b ∈ m.blks, ∀ i ∈ b.insns, Printable m i
  tidy : ∀ b ∈ m.blks, b.Tidy
  edges : ∀ b ∈ m.blks, SoundEdges m b
  printed : output m = .ok text

section Ends

variable {b : Blk} {world : World T U} {last behind : List Line}

/-- Control goes from some lines to a block, and the values of the arguments go to its
parameters. -/
structure Transfers (E : Encoding T) (symbols : String → Int) (routine : Routine T U)
    (text : List Line) (m : Fn) (e : MachineState T) (lines : List Line) (events : List Visible)
    (next : Nat) (args : List Val) (world : World T U) (s s' : MachineState T) (u : U) : Prop where
  goes : (lineMachine E symbols routine text).Goes ⟨lines, s, u⟩ events ⟨linesAt text next, s', u⟩
  inFrame : InFrame E m e world s' u
  delivered : ParallelMove.Delivered (edgeMoves m (some next) args) s.read s'.read

private theorem edgeMoves_inTable (allocated : Allocated m) {next : Option Nat} {args : List Val}
    (inRegs : ∀ a ∈ args, a.Allocable) : InTable (edgeMoves m next args) := by
  cases found : next.bind m.find? with
  | none => simp [edgeMoves, found, InTable]
  | some b =>
    obtain ⟨id, -, found'⟩ := Option.bind_eq_some_iff.mp found
    simp only [edgeMoves, found]
    exact regMoves_inTable (allocated.inRegs b (Fn.find?_mem found')).1 inRegs

variable (symbols routine) in
/-- A jump. Where nothing is printed for it, control falls to the block behind. -/
theorem transfers_jump (allocated : Allocated m)
    (fits : ∀ b ∈ m.blks, b.FitsFrame m.maxCalleeSave m.maxCallSave m.hasCalls) (tidy : b.Tidy)
    (edges : SoundEdges m b) (member : b ∈ m.blks) (jump : b.btype = .j)
    (printed : outputEnd m b = .ok last)
    (falls : ∃ next, b.s1 = some next ∧ behind = linesAt text next)
    (inFrame : InFrame E m e world s u) : ∃ next s', b.s2 = some next ∧
      Transfers E symbols routine text m e (last ++ behind) [] next b.args2 world s s' u := by
  obtain ⟨made2, branch, made1, rfl, branched, implements, -, none⟩ :=
    exists_parts allocated member printed
  obtain rfl := none jump
  obtain ⟨next, -, edge⟩ := allocated.branches b member (by simp [Blk.isReturn, jump])
  have inTable : InTable (edgeMoves m b.s2 b.args2) :=
    edgeMoves_inTable allocated (allocated.inRegs b member).2.2
  have delivered := implements.delivered (edges.jump jump) s.read
  rw [← read_moved (real_of_implements implements inTable)] at delivered
  have first := goes_effects (E := E) symbols routine text (straight_moves made2)
    (branch ++ behind) s u
  rw [effects_moves] at first
  refine ⟨next, moved made2 s, edge, ?_, inFrame.moved (free_of_implements allocated fits
    implements), by rwa [edge] at delivered⟩
  rw [List.map_nil, List.append_nil, List.append_assoc]
  simp only [outputBranch, jump, outputJ] at branched
  split at branched
  · rename_i nothing
    -- The block behind is the one that is jumped to.
    have same : b.s1 = b.s2 :=
      nothing.elim (fun unlabelled => tidy.falls jump (by simpa using unlabelled)) id
    obtain ⟨next', edge', rfl⟩ := falls
    rw [same, edge] at edge'
    obtain rfl := Option.some.inj edge'
    rw [← Except.ok.inj branched] at first ⊢
    exact first
  · simp only [target, edge, Result.ok_bind, Result.pure_eq, Except.ok.injEq] at branched
    subst branched
    exact first.trans (.step rfl)

variable (symbols routine text behind) in
/-- A return. Control stops in front of the last line of the epilogue. -/
theorem goes_ret (allocated : Allocated m) (member : b ∈ m.blks) (returns : b.btype = .ret)
    (printed : outputEnd m b = .ok last) (inFrame : InFrame E m e world s u) :
    ∃ rest s', (lineMachine E symbols routine text).Goes ⟨last ++ behind, s, u⟩ []
        ⟨.ret :: rest, s', u⟩ ∧
      Restored e s' ∧ s'.mem = s.mem ∧ ∀ r ∈ arMap, s'.read r = s.read r := by
  obtain ⟨made2, branch, made1, rfl, branched, implements, -, -⟩ :=
    exists_parts allocated member printed
  rw [(allocated.returns b member (by simp [Blk.isReturn, returns])).2] at implements
  obtain rfl := made_of_none implements
  simp only [outputBranch, returns, Except.ok.injEq] at branched
  subst branched
  have lines : ([] : List (Nat × Nat)).map mvLine ++ (outputRet m ++ made1.map mvLine) ++ behind =
      restoreState m ++ .ret :: (made1.map mvLine ++ behind) := by simp [outputRet]
  rw [lines]
  exact ⟨_, _, goes_effects symbols routine text restoreState_straight _ s u,
    effects_restoreState inFrame.kept⟩

variable (symbols routine) in
/-- A conditional branch. -/
theorem transfers_branch (allocated : Allocated m)
    (fits : ∀ b ∈ m.blks, b.FitsFrame m.maxCalleeSave m.maxCallSave m.hasCalls)
    (edges : SoundEdges m b) (member : b ∈ m.blks) {cond : Cond} {left right : Nat}
    (conditional : comparison b = some (cond, left, right)) (printed : outputEnd m b = .ok last)
    (falls : ∃ next, b.s1 = some next ∧ behind = linesAt text next)
    (inFrame : InFrame E m e world s u) :
    (Takes b s → ∃ next s', b.s2 = some next ∧ Transfers E symbols routine text m e
      (last ++ behind) [.branch true] next b.args2 world s s' u) ∧
    (¬ Takes b s → ∃ next s', b.s1 = some next ∧ Transfers E symbols routine text m e
      (last ++ behind) [.branch false] next b.args1 world s s' u) := by
  obtain ⟨next2, next1, made2, made1, ends⟩ := exists_printedEnd allocated member conditional
  obtain rfl := Except.ok.inj (ends.lines.symm.trans printed)
  obtain ⟨compared, -, takes⟩ :=
    compared_of_comparison (T := T) conditional (allocated.compares b member)
  obtain ⟨inTable2, inTable1⟩ := ends.inTable allocated member
  have correct := ends_of_undisturbed ends.implements2 ends.implements1 inTable1 compared
    (edges.branch cond left right conditional) s.read
  have read2 := read_moved (real_of_implements ends.implements2 inTable2) s
  have read1 := read_moved (real_of_implements ends.implements1 inTable1) (moved made2 s)
  have inFrame2 := inFrame.moved (free_of_implements allocated fits ends.implements2)
  have front := goes_effects (E := E) symbols routine text (straight_moves made2)
    (.branch cond left right next2.id :: (made1.map mvLine ++ behind)) s u
  rw [effects_moves] at front
  have decides : cond.holds ((moved made2 s).read left) ((moved made2 s).read right) ↔
      Takes b s := by
    rw [read2, correct.decides, takes s]
  have lines : made2.map mvLine ++ ([.branch cond left right next2.id] ++ made1.map mvLine) ++
      behind = made2.map mvLine ++
        .branch cond left right next2.id :: (made1.map mvLine ++ behind) := by simp
  rw [lines]
  constructor
  · intro taken
    refine ⟨next2.id, moved made2 s, ends.target2, ?_, inFrame2, ?_⟩
    · refine front.trans (.step ?_)
      simp only [lineMachine, stepLine, if_pos (decides.mpr taken)]
    · rw [← ends.target2, read2]
      exact correct.taken ((takes s).mp taken)
  · intro fails
    obtain ⟨next, edge, rfl⟩ := falls
    obtain rfl : next1.id = next := Option.some.inj (ends.target1.symm.trans edge)
    have back := goes_effects (E := E) symbols routine text (straight_moves made1)
      (linesAt text next1.id) (moved made2 s) u
    rw [effects_moves] at back
    refine ⟨next1.id, moved made1 (moved made2 s), edge, ?_,
      inFrame2.moved (free_of_implements allocated fits ends.implements1), ?_⟩
    · have step : (lineMachine E symbols routine text).step
          ⟨.branch cond left right next2.id :: (made1.map mvLine ++ linesAt text next1.id),
            moved made2 s, u⟩ =
          some ([.branch false],
            ⟨made1.map mvLine ++ linesAt text next1.id, moved made2 s, u⟩) := by
        simp only [lineMachine, stepLine, if_neg fun holds => fails (decides.mp holds)]
      exact (front.trans (.step step)).trans back
    · rw [← edge, read1, read2]
      exact correct.falls fun holds => fails ((takes s).mpr holds)

end Ends

section Edges

variable {rmap : List Val} {k : Fn} {n : Nat} {state : RegState Int (World T U)} {id : Nat}
  {b b' : Blk} {lifetimes : List Lifetime} {saved : Saving}

variable (symbols call) in
/-- Control comes to a block with the values of the arguments in the registers of its
parameters. -/
theorem Emitted.arrive (emitted : Emitted rmap k m n text) (found : k.find? id = some b)
    (allocated : AllocatedTo rmap b lifetimes b' saved) (foundM : m.find? id = some saved.b)
    (ends : AtEnd (machineSemantics E symbols) rmap b state f) (stays : b.btype ≠ .ret)
    (represents : Represents E m e f s u) {next : Nat} {args : List Val}
    (edge : b.s1 = some next ∧ args = b.args1 ∨ b.s2 = some next ∧ args = b.args2)
    {s' : MachineState T} (inFrame : InFrame E m e state.core.world s' u)
    (delivered : ParallelMove.Delivered (edgeMoves m (some next) (args.map (registerOf rmap)))
      s.read s'.read) :
    (∃ c, k.find? next = some c) ∧ AtPlace (machineSemantics E symbols) rmap k
      ((registerInterp (machineSemantics E symbols) call).follow k (some next) args state)
      (.block next, frameOf E m e state.core.world s') := by
  have member := Fn.find?_mem found
  have before := emitted.placed.input.before b member
  have target : b.s1 = some next ∨ b.s2 = some next := edge.imp And.left And.left
  obtain ⟨c, foundC⟩ := Option.isSome_iff_exists.mp
    (Fn.find?_isSome_iff.mpr (emitted.placed.input.successor member target))
  refine ⟨⟨c, foundC⟩, ?_⟩
  refine emitted.placed.arrive call ⟨b, found, target⟩ foundC rfl
    ⟨ends.passed, ends.stays stays, rfl⟩ ?_
  obtain ⟨_, _, savedC, allocatedC, foundMC⟩ := emitted.placed.blks.find? foundC
  have input := emitted.placed.input
  have inRegs := emitted.allocated.inRegs saved.b (Fn.find?_mem foundM)
  have inRegsC := (emitted.allocated.inRegs savedC.b (Fn.find?_mem foundMC)).1
  rw [allocated.eq] at inRegs
  rw [allocatedC.eq] at inRegsC
  obtain ⟨lengths, allocable, used⟩ : c.params.length = args.length ∧
      (∀ a ∈ args.map (registerOf rmap), a.Allocable) ∧ ∀ a ∈ args, a ∈ b.usedAtEnd := by
    rcases edge with ⟨target, rfl⟩ | ⟨target, rfl⟩
    · exact ⟨input.args1 b member next c target foundC, inRegs.2.1, fun a listed =>
        ⟨Or.inl (before.args1 a listed), Or.inr (Or.inr (Or.inl listed))⟩⟩
    · exact ⟨input.args2 b member next c target foundC, inRegs.2.2, fun a listed =>
        ⟨Or.inl (before.args2 a listed), Or.inr (Or.inr (Or.inr listed))⟩⟩
  have moves : edgeMoves m (some next) (args.map (registerOf rmap)) =
      regMoves (c.params.map (registerOf rmap)) (args.map (registerOf rmap)) := by
    have same := allocatedC.eq
    simp only [edgeMoves, Option.bind_some, foundMC]
    rw [same]
  rw [moves] at delivered
  have passes := (passes_iff (by simp [lengths]) inRegsC allocable).mpr delivered
  rw [Passes, List.forall₂_map_left_iff, List.forall₂_map_right_iff] at passes
  have old := (machineSemantics E symbols).assign_values state.core lengths.symm
    (input.params c (Fn.find?_mem foundC)).1
    fun p member => Or.inl ((input.params c (Fn.find?_mem foundC)).2 p member)
  intro p member
  obtain ⟨a, listed, first, second⟩ := Lists.mem_of_forall₂
    (old.mp (fun _ _ first second => And.intro first second) passes).flip member
  have isReg {v : Val} (allocable : v.Allocable) : Known v := by
    obtain ⟨r, _, rfl⟩ := allocable
    exact Or.inl rfl
  have allocableP := inRegsC _ (List.mem_map_of_mem member)
  have allocableA := allocable _ (List.mem_map_of_mem listed)
  calc (machineSemantics E symbols).value (frameOf E m e state.core.world s').state
        (registerOf rmap p)
      = s'.value (registerOf rmap p) :=
        (inFrame.represents.value (fun _ => allocableP) (isReg allocableP)).symm
    _ = s.value (registerOf rmap a) := second
    _ = (machineSemantics E symbols).value f.state (registerOf rmap a) :=
        represents.value (fun _ => allocableA) (isReg allocableA)
    _ = (machineSemantics E symbols).value state.core a := ends.holds.values a (used a listed)
    _ = (machineSemantics E symbols).value
        ((machineSemantics E symbols).assign c.params args state.core) p := first.symm

end Edges

end Qbt.Asm
