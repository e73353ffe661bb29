import Qbt.Asm.Machine
import Qbt.Asm.Prepared

/-!
# The meaning of the printed instructions

Every instruction is printed by a function of its own. The printed lines do what the
instruction says, except where a printer takes the class or the sign of an operand for
granted: SUB with a negative immediate, COPY of a register and ALLOC of a negative size.
-/

namespace Qbt.Asm

variable {T : Type}

/-- Assign to an operand. -/
def MachineState.assign (s : MachineState T) (v : Val) (w : Int) : MachineState T :=
  match v with
  | .reg r => s.write r w
  | _ => s

/-- The address of the slot in which SAVE keeps a register. -/
def slotAddress (f : Fn) (s : MachineState T) (n : Insn) : Int :=
  s.read rfp - callSaveFploc f (slotField n.in1)

/-- What an instruction is for, on registers and memory. -/
def meaning (E : Encoding T) (f : Fn) (n : Insn) (s : MachineState T) : MachineState T :=
  match n.type with
  | .add => s.assign n.out (s.value n.in0 + s.value n.in1)
  | .sub => s.assign n.out (s.value n.in0 - s.value n.in1)
  | .lt => s.assign n.out (if s.value n.in0 < s.value n.in1 then 1 else 0)
  | .copy | .move => s.assign n.out (s.value n.in0)
  | .load => s.assign n.out (loadMem E (width n) s.mem (s.value n.in0 + n.v))
  | .store => { s with mem := storeMem E (width n) s.mem (s.value n.in0 + n.v) (s.value n.in1) }
  | .alloc => (s.write rsp (s.read rsp - n.v)).assign n.out (s.read rsp - n.v)
  | .dealloc => s.write rsp (s.read rsp + n.v)
  | .save => { s with mem := storeMem E .word s.mem (slotAddress f s n) (s.value n.in0) }
  | .restore => s.assign n.in0 (loadMem E .word s.mem (slotAddress f s n))
  | _ => s

/-- The lines printed for an instruction can be read, and do what the instruction is for. -/
def Selects (E : Encoding T) (f : Fn) (n : Insn) (lines : List Line) : Prop :=
  (∀ line ∈ lines, line.Readable) ∧ ∀ s, exec E lines s = (.falls, meaning E f n s)

/-- What the printers take for granted: SUB has no negative immediate, COPY has an immediate,
and ALLOC no negative size. -/
structure Assumed (n : Insn) : Prop where
  sub : n.type = .sub → ∀ v type, n.in1 = .imm v type → 0 ≤ v
  copy : n.type = .copy → n.in0.isImm
  alloc : n.type = .alloc → 0 ≤ n.v

/-- Only registers of the table have a name. -/
theorem rname_eq_ok {v : Val} {r : Nat} : rname v = .ok r ↔ v = .reg r ∧ r ≤ 80 := by
  cases v with
  | reg q =>
    by_cases named : q ≤ 80
    · simp only [rname, if_pos named, Except.ok.injEq, Val.reg.injEq]
      exact ⟨fun same => ⟨same, same ▸ named⟩, fun same => same.1⟩
    · simp only [rname, if_neg named, reduceCtorEq, Val.reg.injEq, false_iff, not_and]
      rintro rfl
      exact named
  | _ => simp [rname]

/-- An allocable register is a real one. -/
theorem ne_rx0_of_allocable {r : Nat} (allocable : (Val.reg r).Allocable) : r ≠ rx0 := by
  obtain ⟨q, listed, same⟩ := allocable
  obtain rfl := Val.reg.inj same
  rintro rfl
  exact absurd listed (by decide)

/-- Writing different values to a real register leaves different states. -/
theorem write_injective {s : MachineState T} {r : Nat} (real : r ≠ rx0) {v w : Int}
    (same : s.write r v = s.write r w) : v = w := by
  have reads : (s.write r v).read r = (s.write r w).read r := by rw [same]
  rwa [MachineState.read_write s r r v real, MachineState.read_write s r r w real, if_pos rfl,
    if_pos rfl] at reads

section Selects

variable {E : Encoding T} {f : Fn} {n : Insn} {lines : List Line}

/-- One readable line selects an instruction if it has its effect. -/
private theorem selects_line {line : Line} (readable : line.Readable)
    (executes : ∀ s : MachineState T, exec E [line] s = (.falls, line.effect E s))
    (effect : ∀ s, line.effect E s = meaning E f n s) : Selects E f n [line] := by
  refine ⟨fun other member => ?_, fun s => ?_⟩
  · rw [List.mem_singleton.mp member]
    exact readable
  · rw [executes, effect]

/-- MOVE prints nothing where it would copy a register to itself. -/
private theorem selects_move (type : n.type = .move) (printed : outputMove n = .ok lines) :
    Selects E f n lines := by
  unfold outputMove at printed
  split at printed
  · rename_i same
    cases printed
    refine ⟨by simp, fun s => ?_⟩
    simp only [exec, meaning, type, Prod.mk.injEq, true_and]
    cases out : n.out with
    | reg r =>
      have in0 : n.in0 = .reg r := by
        rw [out] at same
        cases in0 : n.in0 <;> simp [in0, Val.same] at same
        rw [same]
      rw [in0, MachineState.value_reg]
      by_cases zero : r = rx0
      · subst r
        exact (MachineState.write_rx0 s _).symm
      · simp [MachineState.assign, MachineState.write_of_ne s zero,
          MachineState.read_of_ne s zero]
    | _ => rfl
  · simp only [Result.bind_eq_ok, rname_eq_ok, Result.pure_eq, Except.ok.injEq] at printed
    obtain ⟨dst, ⟨out, -⟩, src, ⟨in0, -⟩, rfl⟩ := printed
    refine selects_line trivial (fun _ => rfl) fun s => ?_
    simp [Line.effect, meaning, type, out, in0, MachineState.assign]

private theorem selects_add (type : n.type = .add) (printed : outputAdd n = .ok lines) :
    Selects E f n lines := by
  unfold outputAdd at printed
  split at printed
  · rename_i in1
    simp only [Result.bind_eq_ok, rname_eq_ok, Result.pure_eq, Except.ok.injEq] at printed
    obtain ⟨dst, ⟨out, -⟩, left, ⟨in0, -⟩, right, ⟨in1, -⟩, rfl⟩ := printed
    refine selects_line trivial (fun _ => rfl) fun s => ?_
    simp [Line.effect, meaning, type, out, in0, in1, MachineState.assign]
  · rename_i in1
    simp only [Result.bind_eq_ok, rname_eq_ok, Result.pure_eq, Except.ok.injEq] at printed
    obtain ⟨dst, ⟨out, -⟩, left, ⟨in0, -⟩, rfl⟩ := printed
    refine selects_line rfl (fun _ => rfl) fun s => ?_
    simp [Line.effect, meaning, type, out, in0, in1, MachineState.assign, MachineState.value,
      Numeral.value]
  · cases printed

private theorem selects_lt (type : n.type = .lt) (printed : outputLt n = .ok lines) :
    Selects E f n lines := by
  unfold outputLt at printed
  split at printed
  · rename_i in1
    simp only [Result.bind_eq_ok, rname_eq_ok, Result.pure_eq, Except.ok.injEq] at printed
    obtain ⟨dst, ⟨out, -⟩, left, ⟨in0, -⟩, rfl⟩ := printed
    refine selects_line trivial (fun _ => rfl) fun s => ?_
    simp [Line.effect, meaning, type, out, in0, in1, MachineState.assign, MachineState.value]
  · simp only [Result.bind_eq_ok, rname_eq_ok, Result.pure_eq, Except.ok.injEq] at printed
    obtain ⟨dst, ⟨out, -⟩, left, ⟨in0, -⟩, right, ⟨in1, -⟩, rfl⟩ := printed
    refine selects_line trivial (fun _ => rfl) fun s => ?_
    simp [Line.effect, meaning, type, out, in0, in1, MachineState.assign]

private theorem selects_load (type : n.type = .load) (printed : outputLoad n = .ok lines) :
    Selects E f n lines := by
  simp only [outputLoad, Result.bind_eq_ok, rname_eq_ok, Result.pure_eq, Except.ok.injEq]
    at printed
  obtain ⟨dst, ⟨out, -⟩, base, ⟨in0, -⟩, rfl⟩ := printed
  refine selects_line trivial (fun _ => rfl) fun s => ?_
  simp [Line.effect, meaning, type, out, in0, MachineState.assign]

private theorem selects_store (type : n.type = .store) (printed : outputStore n = .ok lines) :
    Selects E f n lines := by
  simp only [outputStore, Result.bind_eq_ok, rname_eq_ok, Result.pure_eq, Except.ok.injEq]
    at printed
  obtain ⟨base, ⟨in0, -⟩, src, ⟨in1, -⟩, rfl⟩ := printed
  refine selects_line trivial (fun _ => rfl) fun s => ?_
  simp [Line.effect, meaning, type, in0, in1]

private theorem selects_dealloc (type : n.type = .dealloc) (printed : outputDealloc n = .ok lines) :
    Selects E f n lines := by
  cases printed
  refine selects_line rfl (fun _ => rfl) fun s => ?_
  simp [Line.effect, meaning, type, Numeral.value]

private theorem selects_save (type : n.type = .save) (printed : outputSave f n = .ok lines) :
    Selects E f n lines := by
  simp only [outputSave, Result.bind_eq_ok, rname_eq_ok, Result.pure_eq, Except.ok.injEq]
    at printed
  obtain ⟨src, ⟨in0, -⟩, rfl⟩ := printed
  refine selects_line trivial (fun _ => rfl) fun s => ?_
  simp [Line.effect, meaning, type, in0, slotAddress, Int.sub_eq_add_neg]

private theorem selects_restore (type : n.type = .restore)
    (printed : outputRestore f n = .ok lines) : Selects E f n lines := by
  simp only [outputRestore, Result.bind_eq_ok, rname_eq_ok, Result.pure_eq, Except.ok.injEq]
    at printed
  obtain ⟨dst, ⟨in0, -⟩, rfl⟩ := printed
  refine selects_line trivial (fun _ => rfl) fun s => ?_
  simp [Line.effect, meaning, type, in0, slotAddress, Int.sub_eq_add_neg, MachineState.assign]

/-- SUB of an immediate is printed as the addition of its negative, and with a negative
immediate as the addition of the immediate itself. -/
private theorem selects_sub_iff (type : n.type = .sub) (allocable : n.out.isReg → n.out.Allocable)
    (printed : outputSub n = .ok lines) :
    Selects E f n lines ↔ ∀ v type, n.in1 = .imm v type → 0 ≤ v := by
  unfold outputSub at printed
  split at printed
  · simp only [Result.bind_eq_ok, rname_eq_ok, Result.pure_eq, Except.ok.injEq] at printed
    obtain ⟨dst, ⟨out, -⟩, left, ⟨in0, -⟩, right, ⟨in1, -⟩, rfl⟩ := printed
    refine iff_of_true ?_ (by simp [in1])
    refine selects_line trivial (fun _ => rfl) fun s => ?_
    simp [Line.effect, meaning, type, out, in0, in1, MachineState.assign]
  · rename_i v vtype in1
    simp only [Result.bind_eq_ok, rname_eq_ok, Result.pure_eq, Except.ok.injEq] at printed
    obtain ⟨dst, ⟨out, -⟩, left, ⟨in0, -⟩, rfl⟩ := printed
    by_cases positive : 0 ≤ v
    · rw [if_pos positive]
      refine iff_of_true ?_ (by simp [in1, positive])
      refine selects_line (by simp [Line.Readable, Numeral.value, positive]) (fun _ => rfl)
        fun s => ?_
      simp [Line.effect, meaning, type, out, in0, in1, MachineState.assign, MachineState.value,
        Numeral.value, positive, Int.sub_eq_add_neg]
    · rw [if_neg positive]
      refine iff_of_false ?_ (by simp [in1]; omega)
      rintro ⟨-, effect⟩
      have same := congrArg Prod.snd (effect (trial E 0))
      have sum : (trial E 0).write dst ((trial E 0).read left + v) =
          (trial E 0).write dst ((trial E 0).read left - v) := by
        simpa [exec, Line.effect, meaning, type, out, in0, in1, MachineState.assign,
          MachineState.value, Numeral.value] using same
      have equal := write_injective (ne_rx0_of_allocable (out ▸ allocable (by rw [out]; rfl))) sum
      omega
  · cases printed

/-- COPY prints the field of an immediate, whatever the class of its operand is. -/
private theorem selects_copy_iff (type : n.type = .copy) (prepared : Prepared n)
    (printed : outputCopy n = .ok lines) : Selects E f n lines ↔ n.in0.isImm := by
  simp only [outputCopy, Result.bind_eq_ok, rname_eq_ok, Result.pure_eq, Except.ok.injEq]
    at printed
  obtain ⟨dst, ⟨out, -⟩, rfl⟩ := printed
  rcases prepared.copy type with isReg | isImm
  · cases in0 : n.in0 with
    | reg r =>
      refine iff_of_false ?_ (by simp [Val.isImm])
      rintro ⟨-, effect⟩
      have same := congrArg Prod.snd (effect (trial E 1))
      have real : r ≠ rx0 := ne_rx0_of_allocable (in0 ▸ prepared.in0 isReg)
      have copied : (trial E 1).write dst 0 = (trial E 1).write dst 1 := by
        simpa [exec, Line.effect, meaning, type, out, in0, MachineState.assign, printedField,
          MachineState.read_of_ne _ real, trial] using same
      have equal := write_injective
        (ne_rx0_of_allocable (out ▸ prepared.out (by rw [out]; rfl))) copied
      cases equal
    | _ => simp [in0, Val.isReg] at isReg
  · refine iff_of_true ?_ isImm
    cases in0 : n.in0 with
    | imm v vtype =>
      refine selects_line rfl (fun _ => rfl) fun s => ?_
      simp [Line.effect, meaning, type, out, in0, MachineState.assign, MachineState.value,
        printedField]
    | _ => simp [in0, Val.isImm] at isImm

/-- ALLOC prints a minus sign in front of its size. -/
private theorem selects_alloc_iff (type : n.type = .alloc) (printed : outputAlloc n = .ok lines) :
    Selects E f n lines ↔ 0 ≤ n.v := by
  simp only [outputAlloc, Result.bind_eq_ok, rname_eq_ok, Result.pure_eq, Except.ok.injEq]
    at printed
  obtain ⟨dst, ⟨out, -⟩, rfl⟩ := printed
  by_cases positive : 0 ≤ n.v
  · refine iff_of_true ⟨?_, fun s => ?_⟩ positive
    · simp [Line.Readable, Numeral.value, positive]
    · have moved : (s.write rsp (s.read rsp - n.v)).read rsp = s.read rsp - n.v := by
        rw [MachineState.read_write s rsp rsp _ (by decide), if_pos rfl]
      simp [exec, Line.effect, meaning, type, out, MachineState.assign, Numeral.value, positive,
        ← Int.sub_eq_add_neg, moved]
  · refine iff_of_false (fun selects => positive ?_) positive
    have readable := selects.1 _ List.mem_cons_self
    by_contra negative
    simp [Line.Readable, Numeral.value, negative] at readable

/-- A prepared instruction is selected exactly where the printers' assumptions hold. -/
theorem selects_iff (prepared : Prepared n) (noCall : n.type ≠ .call)
    (printed : outputInsn f n = .ok lines) : Selects E f n lines ↔ Assumed n := by
  have always (holds : Selects E f n lines)
      (others : n.type ≠ .sub ∧ n.type ≠ .copy ∧ n.type ≠ .alloc) :
      Selects E f n lines ↔ Assumed n :=
    iff_of_true holds ⟨fun type => absurd type others.1, fun type => absurd type others.2.1,
      fun type => absurd type others.2.2⟩
  unfold outputInsn at printed
  cases type : n.type <;> simp only [type] at printed
  case call => exact absurd type noCall
  case lt => exact always (selects_lt type printed) (by simp [type])
  case move => exact always (selects_move type printed) (by simp [type])
  case add => exact always (selects_add type printed) (by simp [type])
  case store => exact always (selects_store type printed) (by simp [type])
  case load => exact always (selects_load type printed) (by simp [type])
  case dealloc => exact always (selects_dealloc type printed) (by simp [type])
  case save => exact always (selects_save type printed) (by simp [type])
  case restore => exact always (selects_restore type printed) (by simp [type])
  case sub =>
    rw [selects_sub_iff type prepared.out printed]
    exact ⟨fun sub => ⟨fun _ => sub, by simp [type], by simp [type]⟩,
      fun assumed => assumed.sub type⟩
  case copy =>
    rw [selects_copy_iff type prepared printed]
    exact ⟨fun copy => ⟨by simp [type], fun _ => copy, by simp [type]⟩,
      fun assumed => assumed.copy type⟩
  case alloc =>
    rw [selects_alloc_iff type printed]
    exact ⟨fun alloc => ⟨by simp [type], by simp [type], fun _ => alloc⟩,
      fun assumed => assumed.alloc type⟩
  all_goals cases printed

end Selects

/-- Whatever the passes before hand to `output_insn`, and it prints, is selected exactly where
the printers' assumptions hold. -/
theorem instruction_selection_iff {f g h k m : Fn} (built : Frontend.ParserBuilt f)
    (optimizes : Optimizes f g h k m) (E : Encoding T) {b : Blk} (member : b ∈ m.blks) {n : Insn}
    (inside : n ∈ b.insns) (noCall : n.type ≠ .call) {lines : List Line}
    (printed : outputInsn m n = .ok lines) : Selects E m n lines ↔ Assumed n :=
  selects_iff (optimizes.prepared built b member n inside) noCall printed

/-- The first instruction of the loop test. -/
theorem instruction_selection_iff_simpleLoop :
    ∃ f g h k m b n lines, Frontend.buildFunction 0 Frontend.simpleLoop = .ok f ∧
      Optimizes f g h k m ∧ b ∈ m.blks ∧ n ∈ b.insns ∧ outputInsn m n = .ok lines ∧
        ∀ E : Encoding Int, Selects E m n lines := by
  have ran : ∃ f g ri h c k m b n lines, Frontend.buildFunction 0 Frontend.simpleLoop = .ok f ∧
      correct 20 f f.ntmp = .ok (g, ri) ∧ ssa { g with ntmp := ri } = .ok (h, c) ∧
        abi0 h = .ok k ∧ regalloc k = .ok m ∧ m.blks[0]? = some b ∧ b.insns[0]? = some n ∧
        outputInsn m n = .ok lines ∧ n.type = .copy ∧ n.in0 = .imm 0 .i27 :=
    ⟨_, _, _, _, _, _, _, _, _, _, by rfl, by rfl, by rfl, by rfl, by rfl, by rfl, by rfl, by rfl,
      by rfl, by rfl⟩
  obtain ⟨f, g, ri, h, c, k, m, b, n, lines, parsed, corrected, converted, merged, allocated,
    listed, first, printed, type, in0⟩ := ran
  have optimizes : Optimizes f { g with ntmp := ri } h k m :=
    ⟨⟨20, g, ri, corrected, rfl⟩, ⟨c, converted⟩, merged, allocated⟩
  have member := List.mem_of_getElem? listed
  have inside := List.mem_of_getElem? first
  refine ⟨f, _, h, k, m, b, n, lines, parsed, optimizes, member, inside, printed, fun E => ?_⟩
  refine (instruction_selection_iff ⟨0, _, parsed⟩ optimizes E member inside (by simp [type])
    printed).mpr ?_
  exact ⟨by simp [type], fun _ => by simp [in0, Val.isImm], by simp [type]⟩

/-- A negative number is subtracted. -/
def minusMinusFive : Frontend.Function where
  name := "main"
  body := {
    items := [
      { stmt := .plain (.immInt .i27 "x" 1) },
      { stmt := .plain (.binary .sub .i27 "y" (.id "x") (.int (-5))) },
      { stmt := .leave [.id "y"] }] }

/-- It is printed as `addi a0, t0, -5`, which subtracts 5. -/
theorem minusMinusFive_subtracts :
    ∃ f g h k m b n lines, Frontend.buildFunction 0 minusMinusFive = .ok f ∧
      Optimizes f g h k m ∧ b ∈ m.blks ∧ n ∈ b.insns ∧ n.type ≠ .call ∧
        outputInsn m n = .ok lines ∧ ∀ E : Encoding Int, ¬ Selects E m n lines := by
  have ran : ∃ f g ri h c k m b n, Frontend.buildFunction 0 minusMinusFive = .ok f ∧
      correct 20 f f.ntmp = .ok (g, ri) ∧ ssa { g with ntmp := ri } = .ok (h, c) ∧
        abi0 h = .ok k ∧ regalloc k = .ok m ∧ m.blks[0]? = some b ∧ b.insns[1]? = some n ∧
        outputInsn m n = .ok [.addi 4 11 (.plain (-5))] ∧ n.type = .sub ∧ n.out = .reg 4 ∧
          n.in0 = .reg 11 ∧ n.in1 = .imm (-5) .notype :=
    ⟨_, _, _, _, _, _, _, _, _, by rfl, by rfl, by rfl, by rfl, by rfl, by rfl, by rfl, by rfl,
      by rfl, by rfl, by rfl, by rfl⟩
  obtain ⟨f, g, ri, h, c, k, m, b, n, parsed, corrected, converted, merged, allocated, listed,
    second, printed, type, out, in0, in1⟩ := ran
  refine ⟨f, _, h, k, m, b, n, _, parsed,
    ⟨⟨20, g, ri, corrected, rfl⟩, ⟨c, converted⟩, merged, allocated⟩, List.mem_of_getElem? listed,
    List.mem_of_getElem? second, by simp [type], printed, fun E selects => ?_⟩
  have same := congrArg (fun out => out.2.regs 4) (selects.2 ⟨fun _ => 0, fun _ => 0⟩)
  simp [exec, Line.effect, meaning, type, out, in0, in1, MachineState.assign, MachineState.value,
    MachineState.write, MachineState.read, Numeral.value, rx0] at same

end Qbt.Asm
