import Qbt.Asm.Edges
import Qbt.Asm.Frame
import Qbt.Asm.Selection
import Qbt.Regalloc.Frame

/-!
# The callee-save convention

What `output` prints for a function is its prologue and a body: every line writes registers that
are free to be written, and calls, slots and callee-saved registers are within the counters the
prologue goes by. So the function gives back the registers of its caller.
-/

namespace Qbt.Asm

section Bodies

variable {m : Fn}

private theorem Body.of_lines {lines : List Line} (each : ∀ l ∈ lines, BodyLine m l) :
    Body m lines := by
  induction lines with
  | nil => exact .nil
  | cons line rest ih =>
    rw [List.forall_mem_cons] at each
    exact .line each.1 (ih each.2)

/-- A body followed by a body is a body. -/
theorem Body.append {first second : List Line} (body : Body m first) (behind : Body m second) :
    Body m (first ++ second) := by
  induction body with
  | nil => exact behind
  | line ofBody _ ih => exact .line ofBody ih
  | leave _ ih =>
    rw [List.append_assoc]
    exact .leave ih

theorem Body.flatten {parts : List (List Line)} (each : ∀ p ∈ parts, Body m p) :
    Body m parts.flatten := by
  induction parts with
  | nil => exact .nil
  | cons part rest ih =>
    rw [List.forall_mem_cons] at each
    exact each.1.append (ih each.2)

end Bodies

section Free

variable {m : Fn}

private theorem highestSreg_sreg {k : Nat} (inside : k < 24) :
    Regalloc.highestSreg (.reg (sreg k)) = k + 1 := by
  have listed := sreg_mem inside
  have place : rsMap.idxOf (sreg k) = k := by
    have inside' : k < rsMap.length := inside
    rw [sreg, List.getD_eq_getElem?_getD, List.getElem?_eq_getElem inside', Option.getD_some]
    exact List.Nodup.idxOf_getElem rsMap_nodup k inside'
  rw [Regalloc.highestSreg, if_pos listed, place]

/-- A register that is handed out may be written if the counters cover it. -/
theorem free_of_allocable {r : Nat} (allocable : (Val.reg r).Allocable)
    (covered : Regalloc.highestSreg (.reg r) ≤ m.maxCalleeSave) : Free m r := by
  have listed : r ∈ trMap := allocable.num
  have special : ∀ r ∈ trMap, r ≠ rfp ∧ r ≠ rra := by decide
  refine ⟨(special r listed).1, (special r listed).2, fun k inside same => ?_⟩
  rw [same, highestSreg_sreg inside] at covered
  exact covered

/-- The register that an instruction writes may be written. -/
theorem free_of_out {n : Insn} (prepared : Prepared n)
    (covered : Regalloc.highestSreg n.out ≤ m.maxCalleeSave) {dst : Nat} (out : n.out = .reg dst) :
    Free m dst := by
  have allocable := prepared.out (by rw [out]; rfl)
  rw [out] at allocable covered
  exact free_of_allocable allocable covered

/-- The stack pointer and the scratch register may be written. -/
theorem free_of_special {r : Nat} (special : r = rsp ∨ r = rtmp0) : Free m r := by
  have unlisted : r ∉ rsMap := by
    rcases special with rfl | rfl <;> decide
  refine ⟨?_, ?_, fun k inside same => absurd (same ▸ sreg_mem inside) unlisted⟩ <;>
    rcases special with rfl | rfl <;> decide

end Free

section Printed

variable {m : Fn} {n : Insn} {lines : List Line}

/-- A line that writes the output of its instruction. -/
private theorem body_single (prepared : Prepared n)
    (covered : Regalloc.highestSreg n.out ≤ m.maxCalleeSave) {line : Line} {dst : Nat}
    (target : line.target? = some dst) (out : n.out = .reg dst) :
    ∀ l ∈ [line], BodyLine m l := by
  intro l member
  rw [List.mem_singleton.mp member]
  exact .writes target (free_of_out prepared covered out)

private theorem outputCall_body (calls : m.hasCalls) (printed : outputCall n = .ok lines) :
    ∀ l ∈ lines, BodyLine m l := by
  unfold outputCall at printed
  split at printed
  · cases printed
    simpa using BodyLine.call _ calls
  · simp only [Result.bind_eq_ok, Result.pure_eq, Except.ok.injEq] at printed
    obtain ⟨_, _, rfl⟩ := printed
    simpa using BodyLine.jalr _ calls
  · cases printed

/-- Comparisons, sums and differences, moves, copies and loads are one line, which writes the
output. A move to the same register is none. -/
private theorem writesOut_body (prepared : Prepared n)
    (covered : Regalloc.highestSreg n.out ≤ m.maxCalleeSave)
    (printed : outputLt n = .ok lines ∨ outputAdd n = .ok lines ∨ outputSub n = .ok lines ∨
      outputMove n = .ok lines ∨ outputCopy n = .ok lines ∨ outputLoad n = .ok lines) :
    ∀ l ∈ lines, BodyLine m l := by
  have single {line : Line} {dst : Nat} (target : line.target? = some dst)
      (out : n.out = .reg dst) := body_single prepared covered target out
  rcases printed with printed | printed | printed | printed | printed | printed
  · unfold outputLt at printed
    split at printed <;>
      simp only [Result.bind_eq_ok, rname_eq_ok, Result.pure_eq, Except.ok.injEq] at printed
    · obtain ⟨dst, ⟨out, -⟩, _, _, rfl⟩ := printed
      exact single rfl out
    · obtain ⟨dst, ⟨out, -⟩, _, _, _, _, rfl⟩ := printed
      exact single rfl out
  · unfold outputAdd at printed
    split at printed
    · simp only [Result.bind_eq_ok, rname_eq_ok, Result.pure_eq, Except.ok.injEq] at printed
      obtain ⟨dst, ⟨out, -⟩, _, _, _, _, rfl⟩ := printed
      exact single rfl out
    · simp only [Result.bind_eq_ok, rname_eq_ok, Result.pure_eq, Except.ok.injEq] at printed
      obtain ⟨dst, ⟨out, -⟩, _, _, rfl⟩ := printed
      exact single rfl out
    · cases printed
  · unfold outputSub at printed
    split at printed
    · simp only [Result.bind_eq_ok, rname_eq_ok, Result.pure_eq, Except.ok.injEq] at printed
      obtain ⟨dst, ⟨out, -⟩, _, _, _, _, rfl⟩ := printed
      exact single rfl out
    · simp only [Result.bind_eq_ok, rname_eq_ok, Result.pure_eq, Except.ok.injEq] at printed
      obtain ⟨dst, ⟨out, -⟩, _, _, rfl⟩ := printed
      exact single rfl out
    · cases printed
  · unfold outputMove at printed
    split at printed
    · cases printed
      simp
    · simp only [Result.bind_eq_ok, rname_eq_ok, Result.pure_eq, Except.ok.injEq] at printed
      obtain ⟨dst, ⟨out, -⟩, _, _, rfl⟩ := printed
      exact single rfl out
  · simp only [outputCopy, Result.bind_eq_ok, rname_eq_ok, Result.pure_eq, Except.ok.injEq]
      at printed
    obtain ⟨dst, ⟨out, -⟩, rfl⟩ := printed
    exact single rfl out
  · simp only [outputLoad, Result.bind_eq_ok, rname_eq_ok, Result.pure_eq, Except.ok.injEq]
      at printed
    obtain ⟨dst, ⟨out, -⟩, _, _, rfl⟩ := printed
    exact single rfl out

/-- The base of a store is neither the frame nor the stack pointer. -/
private theorem outputStore_body (prepared : Prepared n) (printed : outputStore n = .ok lines) :
    ∀ l ∈ lines, BodyLine m l := by
  simp only [outputStore, Result.bind_eq_ok, rname_eq_ok, Result.pure_eq, Except.ok.injEq]
    at printed
  obtain ⟨base, ⟨in0, -⟩, src, _, rfl⟩ := printed
  have allocable : (Val.reg base).Allocable := in0 ▸ prepared.in0 (by rw [in0]; rfl)
  have special : ∀ r ∈ trMap, r ≠ rfp ∧ r ≠ rsp := by decide
  obtain ⟨frame, stack⟩ := special base allocable.num
  simpa using BodyLine.store (width n) src n.v frame stack

/-- The stack pointer moves, and its new value is copied to the output. -/
private theorem outputAlloc_body (prepared : Prepared n)
    (covered : Regalloc.highestSreg n.out ≤ m.maxCalleeSave)
    (printed : outputAlloc n = .ok lines) : ∀ l ∈ lines, BodyLine m l := by
  simp only [outputAlloc, Result.bind_eq_ok, rname_eq_ok, Result.pure_eq, Except.ok.injEq]
    at printed
  obtain ⟨dst, ⟨out, -⟩, rfl⟩ := printed
  exact List.forall_mem_cons.mpr
    ⟨.writes rfl (free_of_special (Or.inl rfl)), body_single prepared covered rfl out⟩

/-- Only registers that the callee may change are restored around a call. -/
private theorem outputRestore_body
    (restores : Regalloc.calleeSave n.in0 = false ∧ n.in0.Allocable)
    (printed : outputRestore m n = .ok lines) : ∀ l ∈ lines, BodyLine m l := by
  simp only [outputRestore, Result.bind_eq_ok, rname_eq_ok, Result.pure_eq, Except.ok.injEq]
    at printed
  obtain ⟨dst, ⟨in0, -⟩, rfl⟩ := printed
  obtain ⟨caller, allocable⟩ := restores
  rw [in0] at caller allocable
  have unlisted : dst ∉ rsMap := by simpa [Regalloc.calleeSave] using caller
  intro l member
  rw [List.mem_singleton.mp member]
  refine .writes rfl (free_of_allocable allocable ?_)
  rw [Regalloc.highestSreg, if_neg unlisted]
  exact Nat.zero_le _

/-- The lines of an instruction belong to the body. -/
theorem outputInsn_body (prepared : Prepared n)
    (covered : Regalloc.highestSreg n.out ≤ m.maxCalleeSave)
    (saves : n.type.savesReg → Regalloc.calleeSave n.in0 = false ∧ n.in0.Allocable)
    (calls : n.type = .call → m.hasCalls) (printed : outputInsn m n = .ok lines) :
    ∀ l ∈ lines, BodyLine m l := by
  have writesOut := @writesOut_body m n lines prepared covered
  unfold outputInsn at printed
  cases type : n.type <;> simp only [type] at printed
  case call => exact outputCall_body (calls type) printed
  case lt => exact writesOut (Or.inl printed)
  case add => exact writesOut (Or.inr (Or.inl printed))
  case sub => exact writesOut (Or.inr (Or.inr (Or.inl printed)))
  case move => exact writesOut (Or.inr (Or.inr (Or.inr (Or.inl printed))))
  case copy => exact writesOut (Or.inr (Or.inr (Or.inr (Or.inr (Or.inl printed)))))
  case load => exact writesOut (Or.inr (Or.inr (Or.inr (Or.inr (Or.inr printed)))))
  case store => exact outputStore_body prepared printed
  case alloc => exact outputAlloc_body prepared covered printed
  case dealloc =>
    cases printed
    intro l member
    rw [List.mem_singleton.mp member]
    exact .writes rfl (free_of_special (Or.inl rfl))
  case save =>
    simp only [outputSave, Result.bind_eq_ok, Result.pure_eq, Except.ok.injEq] at printed
    obtain ⟨src, _, rfl⟩ := printed
    simpa using BodyLine.save src (slotField n.in1)
  case restore => exact outputRestore_body (saves (by rw [type]; rfl)) printed
  all_goals cases printed

/-- The moves of an edge belong to the body. -/
theorem outputEdge_body (allocated : Allocated m)
    (covered : ∀ b ∈ m.blks, ∀ p ∈ b.params, Regalloc.highestSreg p ≤ m.maxCalleeSave)
    {next : Option Nat} {args : List Val} (inRegs : ∀ a ∈ args, a.Allocable)
    (printed : outputEdge m next args = .ok lines) : ∀ l ∈ lines, BodyLine m l := by
  cases next with
  | none =>
    cases printed
    simp
  | some id =>
    simp only [outputEdge, Result.bind_eq_ok] at printed
    obtain ⟨b, found, printed⟩ := printed
    have member : b ∈ m.blks := by
      unfold Fn.deref at found
      split at found
      · rename_i found'
        cases found
        exact Fn.find?_mem found'
      · cases found
    have params := (allocated.inRegs b member).1
    have lengths : b.params.length = args.length := by
      simp only [outputMoves, Result.bind_eq_ok, Result.check_eq_ok, decide_eq_true_eq] at printed
      exact printed.choose_spec.1
    obtain ⟨made, printed', implements⟩ := outputMoves_implements lengths
      (fun p listed => hasName_of_allocable (params p listed))
      (fun a listed => hasName_of_allocable (inRegs a listed))
      fun p listed => (real_of_mem (params p listed).num).2
    obtain rfl : made.map mvLine = lines := Except.ok.inj (printed'.symm.trans printed)
    intro l listed
    obtain ⟨move, inside, rfl⟩ := List.mem_map.mp listed
    refine .writes rfl ?_
    rcases implements.only move inside with needed | scratch
    · obtain ⟨⟨p, a⟩, zipped, rfl⟩ := List.mem_map.mp needed
      have param := (List.of_mem_zip zipped).1
      obtain ⟨r, inTable, rfl⟩ := params p param
      exact free_of_allocable ⟨r, inTable, rfl⟩ (covered b member _ param)
    · exact free_of_special (Or.inr scratch)

/-- The branch at the end of a block belongs to the body, or leaves the function. -/
theorem outputBranch_body {b : Blk} (printed : outputBranch m b = .ok lines) : Body m lines := by
  have compared {cond : Cond} (printed : outputCompare cond b = .ok lines) : Body m lines := by
    simp only [outputCompare, Result.bind_eq_ok, Result.pure_eq, Except.ok.injEq] at printed
    obtain ⟨id, _, left, _, right, _, rfl⟩ := printed
    exact .line (.branch cond left right id) .nil
  have zero {cond : Cond} (printed : outputZero cond b = .ok lines) : Body m lines := by
    simp only [outputZero, Result.bind_eq_ok, Result.pure_eq, Except.ok.injEq] at printed
    obtain ⟨id, _, left, _, rfl⟩ := printed
    exact .line (.branch cond left rx0 id) .nil
  unfold outputBranch at printed
  split at printed
  · cases printed
    rw [← List.append_nil (outputRet m)]
    exact .leave .nil
  · unfold outputJ at printed
    split at printed
    · cases printed
      exact .nil
    · simp only [Result.bind_eq_ok, Result.pure_eq, Except.ok.injEq] at printed
      obtain ⟨id, _, rfl⟩ := printed
      exact .line (.jal id) .nil
  · exact compared printed
  · exact compared printed
  · exact compared printed
  · exact zero printed
  · exact zero printed
  · cases printed

/-- What is printed for a block belongs to the body. -/
theorem outputBlk_body (allocated : Allocated m)
    (fits : ∀ b ∈ m.blks, b.FitsFrame m.maxCalleeSave m.maxCallSave m.hasCalls) {b : Blk}
    (member : b ∈ m.blks) (prepared : ∀ n ∈ b.insns, Prepared n)
    (printed : outputBlk m b = .ok lines) : Body m lines := by
  have covered : ∀ b ∈ m.blks, ∀ p ∈ b.params, Regalloc.highestSreg p ≤ m.maxCalleeSave :=
    fun b member => (fits b member).params
  have inRegs := allocated.inRegs b member
  simp only [outputBlk, outputInsns, Result.bind_eq_ok, Result.pure_eq, Except.ok.injEq] at printed
  obtain ⟨_, ⟨parts, mapped, rfl⟩, last, ended, rfl⟩ := printed
  have insns : Body m parts.flatten := by
    refine .flatten fun part listed => .of_lines ?_
    obtain ⟨n, inside, printed⟩ := Lists.mem_of_forall₂ (Result.mapM_eq_ok.mp mapped) listed
    refine outputInsn_body (prepared n inside) ((fits b member).outs n inside) (fun saving => ?_)
      ((fits b member).calls n inside) printed
    obtain ⟨caller, allocable, _⟩ := (fits b member).saves n inside saving
    exact ⟨caller, allocable⟩
  refine (Body.line (.label b.id) insns).append ?_
  by_cases jumps : b.btype = .j
  · simp only [outputEnd, jumps, if_true, Result.bind_eq_ok, Result.pure_eq, Result.ok_bind,
      Except.ok.injEq] at ended
    obtain ⟨moves2, edge2, branch, branched, rfl⟩ := ended
    rw [List.append_nil]
    exact (Body.of_lines (outputEdge_body allocated covered inRegs.2.2 edge2)).append
      (outputBranch_body branched)
  · simp only [outputEnd, jumps, if_false, Result.bind_eq_ok, Result.pure_eq, Except.ok.injEq]
      at ended
    obtain ⟨moves2, edge2, branch, branched, moves1, edge1, rfl⟩ := ended
    exact ((Body.of_lines (outputEdge_body allocated covered inRegs.2.2 edge2)).append
      (outputBranch_body branched)).append
        (.of_lines (outputEdge_body allocated covered inRegs.2.1 edge1))

/-- What is printed for a function is its prologue and a body. -/
theorem output_body {text : List Line} (allocated : Allocated m)
    (fits : ∀ b ∈ m.blks, b.FitsFrame m.maxCalleeSave m.maxCallSave m.hasCalls)
    (prepared : ∀ b ∈ m.blks, ∀ n ∈ b.insns, Prepared n) (printed : output m = .ok text) :
    ∃ body, text = .function m.name :: saveState m ++ body ∧ Body m body := by
  simp only [output, Result.bind_eq_ok, Result.pure_eq, Except.ok.injEq] at printed
  obtain ⟨parts, mapped, rfl⟩ := printed
  refine ⟨parts.flatten, rfl, .flatten fun part listed => ?_⟩
  obtain ⟨b, member, printed⟩ := Lists.mem_of_forall₂ (Result.mapM_eq_ok.mp mapped) listed
  exact outputBlk_body allocated fits member (prepared b member) printed

end Printed

section Layout

variable {m : Fn}

/-- The words of the frame, by their distances below the frame pointer: those of `fp` and `ra`,
of the callee-saved registers, and the slots for registers saved across calls. -/
def frameWords (m : Fn) : List Nat :=
  [fpFploc, raFploc] ++ (List.range m.maxCalleeSave).map calleeSaveFploc ++
    (List.range m.maxCallSave).map (callSaveFploc m)

/-- The words of the frame do not overlap. -/
theorem frameWords_disjoint (m : Fn) : (frameWords m).Pairwise fun d d' => d + 3 ≤ d' := by
  have ascending {f : Nat → Nat} (count : Nat) (step : ∀ i j, i < j → f i + 3 ≤ f j) :
      ((List.range count).map f).Pairwise fun d d' => d + 3 ≤ d' := by
    rw [List.pairwise_map]
    exact List.pairwise_lt_range.imp (step _ _)
  rw [frameWords, List.pairwise_append, List.pairwise_append]
  refine ⟨⟨by decide, ascending _ fun i j less => ?_, fun d special d' saved => ?_⟩,
    ascending _ fun i j less => ?_, fun d front d' slot => ?_⟩
  · simp only [calleeSaveFploc]
    omega
  · obtain ⟨k, _, rfl⟩ := List.mem_map.mp saved
    simp only [List.mem_cons, List.not_mem_nil, or_false, fpFploc, raFploc] at special
    simp only [calleeSaveFploc]
    omega
  · simp only [callSaveFploc]
    omega
  · obtain ⟨k, _, rfl⟩ := List.mem_map.mp slot
    simp only [callSaveFploc]
    rcases List.mem_append.mp front with special | saved
    · simp only [List.mem_cons, List.not_mem_nil, or_false, fpFploc, raFploc] at special
      omega
    · obtain ⟨j, inside, rfl⟩ := List.mem_map.mp saved
      have inside := List.mem_range.mp inside
      simp only [calleeSaveFploc]
      omega

/-- The words of the frame are inside of it. -/
theorem frameWords_inside : ∀ d ∈ frameWords m, 3 ≤ d ∧ d ≤ frameSize m := by
  intro d member
  simp only [frameWords, List.mem_append, List.mem_cons, List.not_mem_nil, or_false, List.mem_map,
    List.mem_range, fpFploc, raFploc] at member
  simp only [frameSize]
  rcases member with ((rfl | rfl) | ⟨k, inside, rfl⟩) | ⟨k, inside, rfl⟩
  · omega
  · omega
  · simp only [calleeSaveFploc]
    omega
  · simp only [callSaveFploc]
    omega

end Layout

section Targets

variable {m : Fn} {lines : List Line} {k : Nat}

/-- The body writes callee-saved registers only that the prologue saves. -/
theorem Body.target (body : Body m lines) (inside : k < 24) {l : Line} (member : l ∈ lines)
    (target : l.target? = some (sreg k)) : k < m.maxCalleeSave := by
  obtain ⟨-, notSp, notFp, notRa⟩ := sreg_special inside
  induction body with
  | nil => cases member
  | line ofBody _ ih =>
    rcases List.mem_cons.mp member with rfl | later
    · cases ofBody with
      | writes target' free =>
        obtain rfl := Option.some.inj (target'.symm.trans target)
        exact free.saved k inside rfl
      | _ => cases target
    · exact ih later
  | leave _ ih =>
    simp only [outputRet, restoreState, List.mem_append, List.mem_map, List.mem_range] at member
    rcases member with ((((⟨i, counted, rfl⟩ | ra) | last) | ret) | later)
    · have same : sreg i = sreg k := Option.some.inj target
      by_cases real : i < 24
      · rwa [← sreg_injective real inside same]
      · rw [sreg_outside (Nat.le_of_not_lt real)] at same
        exact absurd same.symm (sreg_special inside).1
    · split at ra
      · rw [List.mem_singleton.mp ra] at target
        exact absurd (Option.some.inj target).symm notRa
      · cases ra
    · simp only [List.mem_cons, List.not_mem_nil, or_false] at last
      rcases last with rfl | rfl
      · exact absurd (Option.some.inj target).symm notSp
      · exact absurd (Option.some.inj target).symm notFp
    · rw [List.mem_singleton.mp ret] at target
      cases target
    · exact ih later

/-- The prologue writes none. -/
theorem saveState_target (inside : k < 24) {l : Line} (member : l ∈ saveState m) :
    l.target? ≠ some (sreg k) := by
  obtain ⟨-, notSp, notFp, -⟩ := sreg_special inside
  simp only [saveState, List.mem_append, List.mem_cons, List.not_mem_nil, or_false,
    List.mem_map] at member
  rcases member with (((rfl | rfl) | ra) | rfl) | ⟨i, _, rfl⟩
  · simp [Line.target?]
  · simp [Line.target?, notFp.symm]
  · split at ra
    · rw [List.mem_singleton.mp ra]
      simp [Line.target?]
    · cases ra
  · simp [Line.target?, notSp.symm]
  · simp [Line.target?]

end Targets

/-- Printed code honours the callee-save convention. Callee-saved registers that are written are
counted, slots for calls are within their counter, the words of the frame neither overlap nor
leave it, and on every path from the label of the function to a `ret ra` the registers `sp`, `fp`,
`ra` and `s0` to `s23` are given back, where the functions that are called do the same and stores
of the user spare the frame. -/
theorem callee_save_convention {f g h k m : Fn} (built : Frontend.ParserBuilt f)
    (optimizes : Optimizes f g h k m) {text : List Line} (printed : output m = .ok text) :
    (∃ body, text = .function m.name :: saveState m ++ body ∧ Body m body) ∧
      (∀ l ∈ text, ∀ k < 24, l.target? = some (sreg k) → k < m.maxCalleeSave) ∧
      (∀ b ∈ m.blks, ∀ n ∈ b.insns, n.type.savesReg →
        ∃ slot < m.maxCallSave, n.in1 = .imm (slot : Nat) .i27) ∧
      ((frameWords m).Pairwise (fun d d' => d + 3 ≤ d') ∧
        ∀ d ∈ frameWords m, 3 ≤ d ∧ d ≤ frameSize m) ∧
      ∀ (T : Type) (E : Encoding T), E.Lawful → ∀ e s : MachineState T,
        Returns E text ((effects E (saveState m) e).read rsp) (e.read rsp) text e s →
          Restored e s := by
  have fits := optimizes.fitsFrame built
  obtain ⟨body, rfl, ofBody⟩ := output_body (optimizes.isAllocated built) fits
    (optimizes.prepared built) printed
  refine ⟨⟨body, rfl, ofBody⟩, fun l member k inside target => ?_,
    fun b member n listed saving => ?_, ⟨frameWords_disjoint m, frameWords_inside⟩,
    fun T E lawful e s returns => ?_⟩
  · rcases List.mem_append.mp member with front | back
    · rcases List.mem_cons.mp front with rfl | prologue
      · cases target
      · exact absurd target (saveState_target inside prologue)
    · exact ofBody.target inside back target
  · obtain ⟨_, _, slot⟩ := (fits b member).saves n listed saving
    exact slot
  · rw [prologue_sp] at returns
    exact returns.restored_function lawful ofBody

/-- The call of `passedSecond` is on a path to its `ret ra`. -/
theorem callee_save_convention_passedSecond :
    ∃ f g h k m text, Frontend.buildFunction 0 Regalloc.passedSecond = .ok f ∧
      Optimizes f g h k m ∧ output m = .ok text ∧ ∃ (E : Encoding Int) (e s : MachineState Int),
        E.Lawful ∧ Returns E text ((effects E (saveState m) e).read rsp) (e.read rsp) text e s ∧
          Restored e s := by
  have ran : ∃ f g ri h n k m text, Frontend.buildFunction 0 Regalloc.passedSecond = .ok f ∧
      correct 20 f f.ntmp = .ok (g, ri) ∧ ssa { g with ntmp := ri } = .ok (h, n) ∧
        abi0 h = .ok k ∧ regalloc k = .ok m ∧ output m = .ok text ∧ text =
          [.function "main", .st .word rfp (-3) rsp, .mv rfp rsp, .st .word rra (-6) rfp,
            .addi rsp rsp (.negated 9), .label 1, .li 4 (.imm 1 .i27), .st .word 4 (-9) rfp,
            .mv 5 4, .call "f", .ld .word 4 (-9) rfp, .label 2, .ld .word rra (-6) rfp,
            .mv rsp rfp, .ld .word rfp (-3) rfp, .ret] :=
    ⟨_, _, _, _, _, _, _, _, by rfl, by rfl, by rfl, by rfl, by rfl, by rfl, by rfl⟩
  obtain ⟨f, g, ri, h, n, k, m, text, parsed, corrected, converted, merged, allocated, printed,
    lines⟩ := ran
  have optimizes : Optimizes f { g with ntmp := ri } h k m :=
    ⟨⟨20, g, ri, corrected, rfl⟩, ⟨n, converted⟩, merged, allocated⟩
  let E := Encoding.whole
  let e : MachineState Int := ⟨fun _ => 100, fun _ => 0⟩
  have lawful : E.Lawful := Encoding.whole_lawful
  have path : ∃ s, Returns E text ((effects E (saveState m) e).read rsp) (e.read rsp) text e s := by
    rw [lines]
    refine ⟨_, .call ?_ rfl ⟨fun _ _ => rfl, fun _ _ _ => rfl⟩ (.here ?_ rfl)⟩
    · simp [Spares]
    · simp [Spares]
  obtain ⟨s, returns⟩ := path
  exact ⟨f, _, h, k, m, text, parsed, optimizes, printed, E, e, s, lawful, returns,
    (callee_save_convention ⟨0, _, parsed⟩ optimizes printed).2.2.2.2 Int E lawful e s returns⟩

end Qbt.Asm
