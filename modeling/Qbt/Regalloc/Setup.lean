import Qbt.Abi.Order
import Qbt.Regalloc.CallSaves
import Qbt.Regalloc.Values

/-!
# The set-up of a call

The moves of arguments and returned values write argument registers one behind the other, while
parameters and hinted temporaries are in the same registers. They are a simultaneous assignment
where no operand is in the register of another one that is written before the operand is read for
the last time.
-/

namespace Qbt.Regalloc

open Interference

/-- The instructions in front of the call of a block, or all of them if there is none. -/
def untilCall (insns : List Insn) : List Insn := insns.takeWhile (·.type ≠ .call)

/-- The call of a block. -/
def callOf (insns : List Insn) : Option Insn := insns.find? (·.type = .call)

section UntilCall

variable {insns before after : List Insn} {call : Insn}

/-- Instructions other than calls stay in front of the call. -/
theorem untilCall_append (after : List Insn) (plain : ∀ n ∈ before, n.type ≠ .call) :
    untilCall (before ++ after) = before ++ untilCall after := by
  refine List.takeWhile_append_of_pos fun n member => ?_
  simpa using plain n member

/-- The call is behind instructions other than calls. -/
theorem callOf_append (after : List Insn) (plain : ∀ n ∈ before, n.type ≠ .call) :
    callOf (before ++ after) = callOf after := by
  have none : before.find? (·.type = .call) = none :=
    List.find?_eq_none.mpr fun n member => by simpa using plain n member
  rw [callOf, List.find?_append, none, Option.none_or]
  rfl

theorem untilCall_call (type : call.type = .call) : untilCall (call :: after) = [] := by
  simp [untilCall, type]

theorem callOf_call (type : call.type = .call) : callOf (call :: after) = some call := by
  simp [callOf, type]

/-- A block calls or it does not. -/
theorem split_untilCall (insns : List Insn) :
    (∀ n ∈ untilCall insns, n.type ≠ .call) ∧
      ((callOf insns = none ∧ untilCall insns = insns) ∨ ∃ call after,
        callOf insns = some call ∧ call.type = .call ∧
          insns = untilCall insns ++ call :: after) := by
  induction insns with
  | nil => exact ⟨by simp [untilCall], Or.inl ⟨rfl, rfl⟩⟩
  | cons n rest ih =>
    by_cases type : n.type = .call
    · rw [untilCall_call type]
      exact ⟨by simp, Or.inr ⟨n, rest, callOf_call type, type, rfl⟩⟩
    · have plain : ∀ m ∈ [n], m.type ≠ .call := by simpa using type
      have first : untilCall (n :: rest) = n :: untilCall rest :=
        untilCall_append rest plain
      have other : callOf (n :: rest) = callOf rest := callOf_append rest plain
      rw [first, other]
      refine ⟨List.forall_mem_cons.mpr ⟨type, ih.1⟩, ?_⟩
      rcases ih.2 with ⟨none, all⟩ | ⟨call, after, found, called, split⟩
      · exact Or.inl ⟨none, by rw [all]⟩
      · exact Or.inr ⟨call, after, found, called, congrArg (n :: ·) split⟩

theorem mem_of_mem_untilCall {n : Insn} (member : n ∈ untilCall insns) : n ∈ insns :=
  (List.takeWhile_prefix _).subset member

theorem mem_of_callOf (found : callOf insns = some call) : call ∈ insns :=
  List.mem_of_find?_eq_some found

/-- Instructions that are replaced by others of their type. -/
theorem untilCall_forall₂ {R : Insn → Insn → Prop} {insns insns' : List Insn}
    (types : ∀ n n', R n n' → (n'.type = .call ↔ n.type = .call))
    (related : List.Forall₂ R insns insns') :
    List.Forall₂ R (untilCall insns) (untilCall insns') ∧
      Option.Rel R (callOf insns) (callOf insns') := by
  induction related with
  | nil => exact ⟨.nil, .none⟩
  | @cons n n' rest rest' head _ ih =>
    by_cases type : n.type = .call
    · have type' := (types n n' head).mpr type
      rw [untilCall_call type, untilCall_call type', callOf_call type, callOf_call type']
      exact ⟨.nil, .some head⟩
    · have type' : n'.type ≠ .call := fun same => type ((types n n' head).mp same)
      have first {m : Insn} (more : List Insn) (plain : m.type ≠ .call) :
          untilCall (m :: more) = m :: untilCall more ∧ callOf (m :: more) = callOf more :=
        have single : ∀ other ∈ [m], other.type ≠ .call := by simpa using plain
        ⟨untilCall_append more single, callOf_append more single⟩
      rw [(first rest type).1, (first rest type).2, (first rest' type').1, (first rest' type').2]
      exact ⟨.cons head ih.1, ih.2⟩

end UntilCall

/-- The lines of a block up to its call. -/
def setupLines (insns : List Insn) : List (Line Val) := (untilCall insns).map Insn.line

/-- What a call or a return needs: the operands of the call, and the registers that have been
written for it. -/
def handedOver (insns : List Insn) : Set Val :=
  { v | v.IsPlace ∧ ∃ call, callOf insns = some call ∧ (v = call.in0 ∨ v = call.in1) } ∪
    { v | v.isReg ∧ ∃ n ∈ untilCall insns, n.out = v }

/-- What is live at the start of a block. -/
def liveIn (insns : List Insn) : Set Val := live (setupLines insns) (handedOver insns)

/-- Operands that cannot share a register: one of them is written while the other one holds a value
that is still needed up to the call, or both are live at the start. -/
def Conflict (insns : List Insn) (v w : Val) : Prop :=
  v ≠ w ∧ (Interferes (setupLines insns) (handedOver insns) v w ∨
    Interferes (setupLines insns) (handedOver insns) w v ∨ (v ∈ liveIn insns ∧ w ∈ liveIn insns))

/-- Only registers and temporaries are live. -/
theorem isPlace_of_liveIn {insns : List Insn} {v : Val} (member : v ∈ liveIn insns) :
    v.IsPlace := by
  rcases read_of_live member with ⟨l, listed, read⟩ | ⟨place, -⟩ | ⟨isReg, -⟩
  · obtain ⟨n, -, rfl⟩ := List.mem_map.mp listed
    exact read.1
  · exact place
  · exact Or.inr isReg

section Conflict

variable {b : Blk} {c : Collected} {last : Nat}

/-- What is read or written is a register or a temporary of the block. -/
private theorem place_of_mentioned (recorded : Recorded c.lifetimes b.defs last)
    (uses : b.UsesDefined) {n : Insn} (member : n ∈ b.insns) {v : Val} (place : v.IsPlace)
    (mentioned : v = n.in0 ∨ v = n.in1 ∨ v = n.out) :
    v.isReg ∨ ∃ t, v = .tmp t ∧ (lifetimeOf c.lifetimes t).used ≠ 0 := by
  rcases place with isTmp | isReg
  · obtain ⟨t, rfl⟩ := Val.isTmp_iff.mp isTmp
    refine Or.inr ⟨t, rfl, (recorded.used t).mpr (mem_defs.mpr ?_)⟩
    obtain ⟨before, after, split⟩ := List.mem_iff_append.mp member
    have reads := uses.reads before n after split
    have inside : definedIn before ⊆ b.defined := fun u ⟨m, listed, written⟩ =>
      ⟨m, by rw [split]; exact List.mem_append_left _ listed, written⟩
    rcases mentioned with same | same | same
    · exact (reads (Or.inl same.symm)).imp id fun earlier => inside earlier
    · exact (reads (Or.inr same.symm)).imp id fun earlier => inside earlier
    · exact Or.inr ⟨n, member, same.symm⟩
  · exact Or.inl isReg

private theorem place_of_live (recorded : Recorded c.lifetimes b.defs last) (uses : b.UsesDefined)
    {lines : List (Line Val)} (inside : ∀ l ∈ lines, l ∈ setupLines b.insns) {v : Val}
    (member : v ∈ live lines (handedOver b.insns)) :
    v.isReg ∨ ∃ t, v = .tmp t ∧ (lifetimeOf c.lifetimes t).used ≠ 0 := by
  rcases read_of_live member with ⟨l, listed, read⟩ | ⟨place, call, found, operand⟩ | ⟨isReg, -⟩
  · obtain ⟨n, front, rfl⟩ := List.mem_map.mp (inside l listed)
    obtain ⟨place, operand⟩ := read
    exact place_of_mentioned recorded uses (mem_of_mem_untilCall front) place
      (operand.imp id Or.inl)
  · exact place_of_mentioned recorded uses (mem_of_callOf found) place (operand.imp id Or.inl)
  · exact Or.inl isReg

/-- Operands in conflict are different registers or temporaries of the block. -/
theorem relates_conflict (recorded : Recorded c.lifetimes b.defs last) (uses : b.UsesDefined) :
    Relates c (Conflict b.insns) where
  symm := by
    rintro v w ⟨differ, forth | back | both⟩
    · exact ⟨differ.symm, Or.inr (Or.inl forth)⟩
    · exact ⟨differ.symm, Or.inl back⟩
    · exact ⟨differ.symm, Or.inr (Or.inr ⟨both.2, both.1⟩)⟩
  differ v w conflict := conflict.1
  place := by
    rintro v w ⟨-, ⟨before, l, after, split, -, member, -⟩ | ⟨before, l, after, split, write, -⟩ |
      ⟨member, -⟩⟩
    · exact place_of_live recorded uses
        (fun m listed => by rw [split]; simp [listed]) member
    · have listed : l ∈ setupLines b.insns := by rw [split]; simp
      obtain ⟨n, front, rfl⟩ := List.mem_map.mp listed
      obtain ⟨rfl, place⟩ := Insn.line_write.mp write
      exact place_of_mentioned recorded uses (mem_of_mem_untilCall front) place
          (Or.inr (Or.inr rfl))
    · exact place_of_live recorded uses (fun m listed => listed) member

end Conflict

section Execution

variable {W M : Type} {S : Semantics W M} {rmap : List Val}

/-- A block is entered with values for its parameters, and with the argument registers it reads. -/
structure Enters (S : Semantics W M) (rmap : List Val) (b : Blk) (state state' : State W M) :
    Prop where
  world : state'.world = state.world
  params : ∀ p ∈ b.params, p ∈ liveIn b.insns →
    S.value state' (registerOf rmap p) = S.value state p
  regs : ∀ a, .reg a ∈ liveIn b.insns → state'.reg a = state.reg a

/-- What is live at the start is a parameter or a register. -/
theorem Enters.holds {b : Blk} {state state' : State W M} (enters : Enters S rmap b state state')
    (uses : b.UsesDefined) : Holds S rmap (liveIn b.insns) state state' := by
  refine ⟨enters.world, fun v member => ?_⟩
  have param {before after : List Insn} {n : Insn} {t : Nat}
      (split : b.insns = before ++ n :: after)
      (read : t ∈ n.reads) (unwritten : ∀ m ∈ before, m.line.write ≠ some (.tmp t)) :
      .tmp t ∈ b.params := by
    refine (uses.reads before n after split read).resolve_right ?_
    rintro ⟨m, listed, written⟩
    exact unwritten m listed (Insn.line_write.mpr ⟨written, Or.inl rfl⟩)
  have reads {n : Insn} {t : Nat} (operand : .tmp t = n.in0 ∨ .tmp t = n.in1) : t ∈ n.reads :=
    operand.imp Eq.symm Eq.symm
  cases v with
  | tmp t =>
    refine enters.params _ ?_ member
    rcases not_written_of_live member with ⟨before, l, after, split, read, unwritten⟩ |
      ⟨⟨-, call, found, operand⟩ | ⟨isReg, -⟩, unwritten⟩
    · obtain ⟨front, behind, untilSplit, rfl, behind'⟩ := List.map_eq_append_iff.mp split
      obtain ⟨n, rest, rfl, rfl, rfl⟩ := List.map_eq_cons_iff.mp behind'
      obtain ⟨tail, whole⟩ : ∃ tail, b.insns = untilCall b.insns ++ tail :=
        ⟨_, (List.takeWhile_append_dropWhile (p := fun n : Insn => n.type ≠ .call)).symm⟩
      have located : b.insns = front ++ n :: (rest ++ tail) := by
        rw [whole, untilSplit]
        simp
      exact param located (reads read.2) fun m listed => unwritten _ (List.mem_map_of_mem listed)
    · rcases (split_untilCall b.insns).2 with ⟨none, -⟩ | ⟨call', after, found', -, split⟩
      · rw [none] at found
        cases found
      · obtain rfl : call' = call := Option.some.inj (found'.symm.trans found)
        exact param split (reads operand) fun m listed => unwritten _ (List.mem_map_of_mem listed)
    · cases isReg
  | reg a => exact enters.regs a member
  | _ =>
    rcases isPlace_of_liveIn member with isTmp | isReg
    · cases isTmp
    · cases isReg

end Execution
end Qbt.Regalloc
