import Qbt.Correct.Keeps
import Qbt.Regalloc.Clash

/-!
# Saving registers across calls

`do_call_saves` inserts a SAVE for every register that lives across a call in front of the
set-up of the call, and a RESTORE behind its results. What it inserts is found by position,
while the positions move.
-/

namespace Qbt.Regalloc

/-- The registers of a list that no callee saves. -/
def callerSaved (reserved : List Val) : List Val := reserved.filter fun r => !calleeSave r

/-- The reserved registers without the callee-saved ones. -/
theorem mem_callerSaved {reserved : List Val} {r : Val} :
    r ∈ callerSaved reserved ↔ r ∈ reserved ∧ calleeSave r = false := by
  simp [callerSaved]

theorem callerSaved_cons_of_callee {r : Val} {rest : List Val} (callee : calleeSave r) :
    callerSaved (r :: rest) = callerSaved rest := by
  simp [callerSaved, callee]

theorem callerSaved_cons_of_caller {r : Val} {rest : List Val} (caller : calleeSave r = false) :
    callerSaved (r :: rest) = r :: callerSaved rest := by
  simp [callerSaved, caller]

section Members

variable {b b' : Blk} {n : Insn} {pos counter : Nat} {reserved : List Val}

private theorem mem_insnInsert {new : Insn} (inserted : insnInsert b new pos = .ok b') :
    n ∈ b'.insns → n = new ∨ n ∈ b.insns := by
  obtain ⟨_, rfl⟩ := insnInsert_eq_ok.mp inserted
  exact List.eq_or_mem_of_mem_insertIdx

/-- Only SAVEs of registers of the list are inserted in front of a call. -/
theorem mem_saveBefore (saved : saveBefore b pos counter reserved = .ok b')
    (member : n ∈ b'.insns) : n ∈ b.insns ∨ ∃ r ∈ callerSaved reserved,
      ∃ slot < counter + (callerSaved reserved).length, r.isReg ∧ n = saveInsn r slot := by
  induction reserved generalizing b pos counter with
  | nil =>
    cases saved
    exact Or.inl member
  | cons r rest ih =>
    simp only [saveBefore, Result.bind_eq_ok, Result.check_eq_ok] at saved
    obtain ⟨_, isReg, saved⟩ := saved
    split at saved
    · rename_i callee
      rw [callerSaved_cons_of_callee callee]
      exact ih saved
    · rename_i caller
      have caller : calleeSave r = false := by simpa using caller
      simp only [insertBeforeCall, Result.bind_eq_ok] at saved
      obtain ⟨c, ⟨_, _, _, _, inserted⟩, saved⟩ := saved
      rw [callerSaved_cons_of_caller caller, List.length_cons]
      rcases ih saved with old | ⟨q, listed, slot, bound, isReg', rfl⟩
      · rcases mem_insnInsert inserted old with rfl | older
        · exact Or.inr ⟨r, List.mem_cons_self, counter, by omega, isReg, rfl⟩
        · exact Or.inl older
      · exact Or.inr ⟨q, List.mem_cons_of_mem _ listed, slot, by omega, isReg', rfl⟩

/-- Only RESTOREs of registers of the list are inserted behind a call. -/
theorem mem_restoreAfter (restored : restoreAfter b pos counter reserved = .ok b')
    (member : n ∈ b'.insns) : n ∈ b.insns ∨ ∃ r ∈ callerSaved reserved,
      ∃ slot < counter + (callerSaved reserved).length, n = restoreInsn r slot := by
  induction reserved generalizing b counter with
  | nil =>
    cases restored
    exact Or.inl member
  | cons r rest ih =>
    simp only [restoreAfter] at restored
    split at restored
    · rename_i callee
      rw [callerSaved_cons_of_callee callee]
      exact ih restored
    · rename_i caller
      have caller : calleeSave r = false := by simpa using caller
      simp only [insertAfterCall, Result.bind_eq_ok] at restored
      obtain ⟨c, ⟨_, _, inserted⟩, restored⟩ := restored
      rw [callerSaved_cons_of_caller caller, List.length_cons]
      rcases ih restored with old | ⟨q, listed, slot, bound, rfl⟩
      · rcases mem_insnInsert inserted old with rfl | older
        · exact Or.inr ⟨r, List.mem_cons_self, counter, by omega, rfl⟩
        · exact Or.inl older
      · exact Or.inr ⟨q, List.mem_cons_of_mem _ listed, slot, by omega, rfl⟩

/-- What is reserved are registers that rules give. -/
theorem rule_of_mem_buildReserved {active : List Lifetime} {rmap : List Val}
    (built : buildReserved active rmap = .ok reserved) {r : Val} (member : r ∈ reserved) :
    ∃ l ∈ active, l.used ≠ 0 ∧ rewriteTmp rmap l.v = .ok r := by
  obtain ⟨l, listed, rewritten⟩ := Lists.mem_of_forall₂ (Result.mapM_eq_ok.mp built) member
  obtain ⟨active, kept⟩ := List.mem_filter.mp listed
  simp only [ne_eq, decide_not, Bool.decide_and, Bool.and_eq_true] at kept
  exact ⟨l, active, by simpa using kept.1, rewritten⟩

/-- A register that is saved: a rule gives it, and no callee saves it. -/
def SavedReg (rmap : List Val) (r : Val) : Prop :=
  r.isReg ∧ calleeSave r = false ∧ ∃ v, rewriteTmp rmap v = .ok r

/-- What `do_call_saves` inserts, in slots below a bound. -/
inductive Inserted (rmap : List Val) (bound : Nat) : Insn → Prop where
  | save {r : Val} {slot : Nat} (saved : SavedReg rmap r) (inside : slot < bound) :
      Inserted rmap bound (saveInsn r slot)
  | restore {r : Val} {slot : Nat} (saved : SavedReg rmap r) (inside : slot < bound) :
      Inserted rmap bound (restoreInsn r slot)

theorem Inserted.mono {rmap : List Val} {bound more : Nat} (inserted : Inserted rmap bound n)
    (le : bound ≤ more) : Inserted rmap more n := by
  cases inserted with
  | save saved inside => exact .save saved (Nat.lt_of_lt_of_le inside le)
  | restore saved inside => exact .restore saved (Nat.lt_of_lt_of_le inside le)

/-- What is saved has been checked to be a register. -/
theorem saveBefore_isReg (saved : saveBefore b pos counter reserved = .ok b') :
    ∀ r ∈ reserved, r.isReg := by
  induction reserved generalizing b pos counter with
  | nil => simp
  | cons r rest ih =>
    simp only [saveBefore, Result.bind_eq_ok, Result.check_eq_ok] at saved
    obtain ⟨_, isReg, saved⟩ := saved
    rw [List.forall_mem_cons]
    refine ⟨isReg, ?_⟩
    split at saved
    · exact ih saved
    · obtain ⟨c, _, saved⟩ := Result.bind_eq_ok.mp saved
      exact ih saved

/-- `do_call_saves` counts the slots it uses. -/
theorem saveCalls_inserted {lifetimes : List Lifetime} {rmap : List Val} {calls : List Nat}
    {s s' : Saving} (saved : calls.foldlM (saveCall lifetimes rmap) s = .ok s') :
    s.maxCounter ≤ s'.maxCounter ∧
      ∀ n ∈ s'.b.insns, n ∈ s.b.insns ∨ Inserted rmap s'.maxCounter n := by
  induction calls generalizing s with
  | nil =>
    cases saved
    exact ⟨Nat.le_refl _, fun n member => Or.inl member⟩
  | cons callPos rest ih =>
    rw [List.foldlM_cons, Result.bind_eq_ok] at saved
    obtain ⟨t, first, others⟩ := saved
    simp only [saveCall, Result.bind_eq_ok, Result.pure_eq, Except.ok.injEq] at first
    obtain ⟨reserved, built, c, before, d, behind, rfl⟩ := first
    obtain ⟨le, inserted⟩ := ih others
    have le : max s.maxCounter (callerSaved reserved).length ≤ s'.maxCounter := le
    have savedReg {r : Val} (listed : r ∈ callerSaved reserved) : SavedReg rmap r := by
      obtain ⟨inside, caller⟩ := mem_callerSaved.mp listed
      obtain ⟨l, _, _, rewritten⟩ := rule_of_mem_buildReserved built inside
      exact ⟨saveBefore_isReg before r inside, caller, l.v, rewritten⟩
    refine ⟨by omega, fun n member => ?_⟩
    rcases inserted n member with old | new
    · rcases mem_restoreAfter behind old with older | ⟨r, listed, slot, bound, rfl⟩
      · rcases mem_saveBefore before older with oldest | ⟨r, listed, slot, bound, _, rfl⟩
        · exact Or.inl oldest
        · exact Or.inr (.save (savedReg listed) (by omega))
      · exact Or.inr (.restore (savedReg listed) (by omega))
    · exact Or.inr new

/-- Only SAVEs and RESTOREs are inserted. -/
theorem doCallSaves_inserted {lifetimes : List Lifetime} {rmap : List Val} {calls : List Nat}
    {saved : Saving} (saves : doCallSaves b lifetimes rmap calls = .ok saved) :
    ∀ n ∈ saved.b.insns, n ∈ b.insns ∨ Inserted rmap saved.maxCounter n :=
  (saveCalls_inserted saves).2

end Members

end Qbt.Regalloc
