import Qbt.Regalloc.Input
import Qbt.Regalloc.Saves

/-!
# Around a call

The instructions in front of a call that set it up, and those behind it that fetch its
results, form one run around the call. The SAVEs go in front of this run and the RESTOREs
behind it, although each of them is placed by a search that starts at the call.
-/

namespace Qbt.Regalloc

/-- The instructions around a call: the longest runs that set it up and that belong to its
results, and what is in front of them and behind them. -/
structure Around (insns before setup : List Insn) (call : Insn) (results after : List Insn) :
    Prop where
  split : insns = before ++ setup ++ call :: results ++ after
  setup : ∀ n ∈ setup, n.flags.callSetup
  results : ∀ n ∈ results, n.flags.callTeardown
  before : ∀ n ∈ before.getLast?, n.flags.callSetup = false
  after : ∀ n ∈ after.head?, n.flags.callTeardown = false

/-- A call that is both part of its set-up and of its results. -/
structure IsCall (call : Insn) : Prop where
  type : call.type = .call
  flags : call.flags = { callTeardown := true, callSetup := true }

section Runs

variable {before run rest : List Insn}

/-- The search for the set-up stops behind what is in front of it. -/
theorem setupStart_append (setup : ∀ n ∈ run, n.flags.callSetup)
    (before' : ∀ n ∈ before.getLast?, n.flags.callSetup = false) :
    setupStart (before ++ run ++ rest) (before.length + run.length) = .ok before.length := by
  induction run using List.reverseRecOn generalizing rest with
  | nil =>
    cases before using List.reverseRecOn with
    | nil => rfl
    | append_singleton front last =>
      have plain : last.flags.callSetup = false := before' last (by simp)
      have here : (front ++ [last] ++ [] ++ rest)[front.length]? = some last := by simp
      rw [List.length_append, List.length_singleton, List.length_nil, Nat.add_zero, setupStart,
        here]
      simp [plain]
  | append_singleton front last ih =>
    rw [List.forall_mem_append] at setup
    have sets : last.flags.callSetup = true := setup.2 last (by simp)
    have same : before ++ (front ++ [last]) ++ rest = before ++ front ++ (last :: rest) := by simp
    have here : (before ++ front ++ (last :: rest))[before.length + front.length]? = some last := by
      rw [List.getElem?_append_right (by simp)]
      simp
    rw [same, List.length_append, List.length_singleton, ← Nat.add_assoc, setupStart, here]
    simp only [sets, if_true]
    exact ih setup.1

/-- The results of a call end where its tear-down does. -/
theorem teardownLength_append (results : ∀ n ∈ run, n.flags.callTeardown)
    (after : ∀ n ∈ rest.head?, n.flags.callTeardown = false) :
    teardownLength (run ++ rest) = run.length := by
  induction run with
  | nil =>
    cases rest with
    | nil => rfl
    | cons n rest => simp [teardownLength, after n (by simp)]
  | cons n run ih =>
    rw [List.forall_mem_cons] at results
    simp [teardownLength, results.1, ih results.2]

end Runs

/-- Whatever stands around a call, it has such a run. -/
theorem exists_around {insns front behind : List Insn} {call : Insn}
    (split : insns = front ++ call :: behind) : ∃ before setup results after,
      front = before ++ setup ∧ behind = results ++ after ∧
        Around insns before setup call results after := by
  obtain ⟨before, setup, rfl, sets, stops⟩ := Lists.exists_trailing (·.flags.callSetup) front
  obtain ⟨results, after, rfl, tears, stops'⟩ :=
    Lists.exists_leading (·.flags.callTeardown) behind
  exact ⟨before, setup, results, after, rfl, rfl, by simp [split], sets, tears, stops, stops'⟩

/-- The SAVEs of registers in the slots from `counter` on. -/
def saves (counter : Nat) (regs : List Val) : List Insn :=
  (regs.zipIdx counter).map fun p => saveInsn p.1 p.2

/-- The RESTOREs of registers from the slots from `counter` on, the last register first. -/
def restores (counter : Nat) (regs : List Val) : List Insn :=
  ((regs.zipIdx counter).map fun p => restoreInsn p.1 p.2).reverse

private theorem saves_nil (counter : Nat) : saves counter [] = [] := rfl

private theorem restores_nil (counter : Nat) : restores counter [] = [] := rfl

theorem saves_cons (counter : Nat) (r : Val) (rest : List Val) :
    saves counter (r :: rest) = saveInsn r counter :: saves (counter + 1) rest := by
  simp [saves]

private theorem restores_cons (counter : Nat) (r : Val) (rest : List Val) :
    restores counter (r :: rest) = restores (counter + 1) rest ++ [restoreInsn r counter] := by
  simp [restores]

/-- The SAVEs take consecutive slots. -/
theorem mem_saves {counter : Nat} {regs : List Val} {n : Insn} :
    n ∈ saves counter regs ↔ ∃ r slot, (r, slot) ∈ regs.zipIdx counter ∧ n = saveInsn r slot := by
  simp [saves, eq_comm]

/-- There is one RESTORE for each register and slot. -/
theorem mem_restores {counter : Nat} {regs : List Val} {n : Insn} :
    n ∈ restores counter regs ↔
      ∃ r slot, (r, slot) ∈ regs.zipIdx counter ∧ n = restoreInsn r slot := by
  simp [restores, eq_comm]

/-- The SAVEs go to different slots. -/
theorem saves_distinct (counter : Nat) (regs : List Val) :
    (saves counter regs).Pairwise fun n m => n.in1 ≠ m.in1 := by
  induction regs generalizing counter with
  | nil => exact .nil
  | cons r rest ih =>
    rw [saves_cons, List.pairwise_cons]
    refine ⟨fun n later same => ?_, ih (counter + 1)⟩
    obtain ⟨q, slot, entry, rfl⟩ := mem_saves.mp later
    obtain rfl : counter = slot := Int.ofNat.inj (Val.imm.inj same).1
    have le := List.le_snd_of_mem_zipIdx entry
    omega

section Insert

variable {b : Blk} {before setup results after : List Insn} {call new : Insn}

private theorem Around.at_call (around : Around b.insns before setup call results after) :
    b.insns[before.length + setup.length]? = some call := by
  rw [around.split, List.append_assoc, ← List.length_append,
    List.getElem?_append_right (Nat.le_refl _)]
  simp

/-- The parts make up the block. -/
theorem Around.same (around : Around b.insns before setup call results after) :
    { b with insns := before ++ setup ++ call :: results ++ after } = b := by
  rw [← around.split]

/-- The call is where it is expected. -/
theorem Around.checkCall (around : Around b.insns before setup call results after)
    (isCall : IsCall call) : checkCall b.insns (before.length + setup.length) = .ok () := by
  rw [Regalloc.checkCall, around.at_call]
  simp [isCall.type]

/-- A SAVE goes in front of the run. -/
theorem insertBeforeCall_eq (around : Around b.insns before setup call results after)
    (isCall : IsCall call) : insertBeforeCall b new (before.length + setup.length) =
      .ok { b with insns := before ++ [new] ++ setup ++ call :: results ++ after } := by
  have sets : call.flags.callSetup = true := by simp [isCall.flags]
  have start : setupStart b.insns (before.length + setup.length + 1) = .ok before.length := by
    rw [setupStart, around.at_call]
    simp only [sets, if_true]
    rw [around.split, List.append_assoc]
    exact setupStart_append around.setup around.before
  rw [insertBeforeCall, around.checkCall isCall, Result.ok_bind, start, Result.ok_bind,
    insnInsert_eq_ok]
  refine ⟨by simp [around.split], ?_⟩
  rw [around.split, List.append_assoc, List.append_assoc, Lists.insertIdx_length]
  simp

/-- A RESTORE goes behind the run. -/
theorem insertAfterCall_eq (around : Around b.insns before setup call results after)
    (isCall : IsCall call) : insertAfterCall b new (before.length + setup.length) =
      .ok { b with insns := before ++ setup ++ call :: results ++ new :: after } := by
  have tears : ∀ n ∈ call :: results, n.flags.callTeardown :=
    List.forall_mem_cons.mpr ⟨by simp [isCall.flags], around.results⟩
  have behind : b.insns.drop (before.length + setup.length) = call :: results ++ after := by
    rw [around.split, List.append_assoc, ← List.length_append, List.drop_left]
  have length : before.length + setup.length + (call :: results).length =
      (before ++ setup ++ call :: results).length := by
    rw [List.length_append, List.length_append]
  rw [insertAfterCall, around.checkCall isCall, Result.ok_bind, behind,
    teardownLength_append tears around.after, length, insnInsert_eq_ok]
  refine ⟨by simp [around.split], ?_⟩
  rw [around.split, Lists.insertIdx_length]

/-- The SAVEs stand in front of the run in the order of their slots. -/
theorem saveBefore_eq (around : Around b.insns before setup call results after)
    (isCall : IsCall call) {reserved : List Val} (isReg : ∀ r ∈ reserved, r.isReg)
    (counter : Nat) : saveBefore b (before.length + setup.length) counter reserved =
      .ok { b with insns :=
        before ++ saves counter (callerSaved reserved) ++ setup ++ call :: results ++ after } := by
  induction reserved generalizing b before counter with
  | nil =>
    rw [saveBefore, callerSaved, List.filter_nil, saves_nil, List.append_nil, around.same]
  | cons r rest ih =>
    rw [List.forall_mem_cons] at isReg
    rw [saveBefore, isReg.1]
    cases callee : calleeSave r with
    | true =>
      rw [callerSaved_cons_of_callee callee]
      exact ih around isReg.2 counter
    | false =>
      rw [callerSaved_cons_of_caller callee, saves_cons]
      have next : Around (before ++ [saveInsn r counter] ++ setup ++ call :: results ++ after)
          (before ++ [saveInsn r counter]) setup call results after :=
        ⟨rfl, around.setup, around.results, by simp [saveInsn, insnCreate], around.after⟩
      have saved := ih (b := { b with
        insns := before ++ [saveInsn r counter] ++ setup ++ call :: results ++ after }) next
        isReg.2 (counter + 1)
      rw [List.length_append, List.length_singleton] at saved
      simp only [Result.check, if_true, Result.ok_bind, Bool.false_eq_true, if_false,
        insertBeforeCall_eq around isCall]
      rw [Nat.add_right_comm, saved]
      simp

/-- The RESTOREs stand behind the run, the last slot first. -/
theorem restoreAfter_eq (around : Around b.insns before setup call results after)
    (isCall : IsCall call) (reserved : List Val) (counter : Nat) :
    restoreAfter b (before.length + setup.length) counter reserved = .ok { b with
      insns := before ++ setup ++ call :: results ++ restores counter (callerSaved reserved) ++
        after } := by
  induction reserved generalizing b after counter with
  | nil =>
    rw [restoreAfter, callerSaved, List.filter_nil, restores_nil, List.append_nil, around.same]
  | cons r rest ih =>
    rw [restoreAfter]
    cases callee : calleeSave r with
    | true =>
      rw [callerSaved_cons_of_callee callee]
      exact ih around counter
    | false =>
      rw [callerSaved_cons_of_caller callee, restores_cons]
      have next : Around (before ++ setup ++ call :: results ++ restoreInsn r counter :: after)
          before setup call results (restoreInsn r counter :: after) :=
        ⟨rfl, around.setup, around.results, around.before, by simp [restoreInsn, insnCreate]⟩
      have restored := ih (b := { b with
        insns := before ++ setup ++ call :: results ++ restoreInsn r counter :: after }) next
        (counter + 1)
      simp only [Bool.false_eq_true, if_false, insertAfterCall_eq around isCall, Result.ok_bind]
      rw [restored]
      simp

/-- One pass of the loop of `do_call_saves`, for the call at `callPos`. -/
theorem saveCall_eq {lifetimes : List Lifetime} {rmap reserved : List Val} {s : Saving}
    {callPos : Nat} (around : Around s.b.insns before setup call results after)
    (isCall : IsCall call) (pos : callPos + s.offset = before.length + setup.length + 1)
    (built : buildReserved (buildActiveBetween [] lifetimes 0 callPos callPos) rmap = .ok reserved)
    (isReg : ∀ r ∈ reserved, r.isReg) :
    saveCall lifetimes rmap s callPos = .ok {
      b := { s.b with
        insns := before ++ saves 0 (callerSaved reserved) ++ setup ++ call :: results ++
          restores 0 (callerSaved reserved) ++ after }
      offset := s.offset + (callerSaved reserved).length + (callerSaved reserved).length
      maxCounter := max s.maxCounter (callerSaved reserved).length } := by
  have saved := saveBefore_eq around isCall isReg 0
  have behind : Around
      (before ++ saves 0 (callerSaved reserved) ++ setup ++ call :: results ++ after)
      (before ++ saves 0 (callerSaved reserved)) setup call results after := by
    refine ⟨rfl, around.setup, around.results, fun n last => ?_, around.after⟩
    rw [List.getLast?_append] at last
    cases final : (saves 0 (callerSaved reserved)).getLast? with
    | none =>
      rw [final, Option.none_or] at last
      exact around.before n last
    | some m =>
      obtain ⟨r, slot, _, rfl⟩ := mem_saves.mp (List.mem_of_getLast? final)
      rw [final, Option.some_or] at last
      cases last
      rfl
  have restored := restoreAfter_eq (b := { s.b with
    insns := before ++ saves 0 (callerSaved reserved) ++ setup ++ call :: results ++ after })
    behind isCall reserved 0
  have length : (saves 0 (callerSaved reserved)).length = (callerSaved reserved).length := by
    simp [saves]
  rw [List.length_append, length] at restored
  have posBefore : callPos + s.offset - 1 = before.length + setup.length := by omega
  have posBehind : callPos + (s.offset + (callerSaved reserved).length) - 1 =
      before.length + (callerSaved reserved).length + setup.length := by omega
  rw [saveCall, built, Result.ok_bind]
  change (saveBefore s.b (callPos + s.offset - 1) 0 reserved >>= fun b =>
    restoreAfter b (callPos + (s.offset + (callerSaved reserved).length) - 1) 0 reserved >>= _) = _
  rw [posBefore, saved, Result.ok_bind, posBehind, restored]
  rfl

end Insert

/-- The positions of the calls, from `pos` on. -/
def callPositions : List Insn → Nat → List Nat
  | [], _ => []
  | n :: rest, pos => (if n.type = .call then [pos] else []) ++ callPositions rest (pos + 1)

private theorem collectInsns_calls {c c' : Collected} {insns : List Insn} {pos : Nat}
    (collected : collectInsns c insns pos = .ok c') :
    c'.calls = c.calls ++ callPositions insns pos := by
  induction insns generalizing c pos with
  | nil =>
    cases collected
    simp [callPositions]
  | cons n rest ih =>
    simp only [collectInsns, Result.bind_eq_ok] at collected
    obtain ⟨next, first, others⟩ := collected
    simp only [collectInsn, Result.bind_eq_ok, Result.pure_eq, Except.ok.injEq] at first
    obtain ⟨_, _, _, _, hinted, collectedHints, rfl⟩ := first
    have same : hinted.calls = c.calls := (collectHints_lifetimes collectedHints).2
    rw [ih others, callPositions, same]
    split <;> simp

/-- `collect_lifetimes` lists the positions of the calls. -/
theorem collectLifetimes_calls {b : Blk} {hints rmap : List Val} {c : Collected}
    (collected : collectLifetimes b hints rmap = .ok c) : c.calls = callPositions b.insns 1 := by
  simp only [collectLifetimes, Result.bind_eq_ok, Result.pure_eq, Except.ok.injEq] at collected
  obtain ⟨next, insns, _, _, _, _, _, _, _, _, rfl⟩ := collected
  exact collectInsns_calls insns

/-- Without a call there are no positions of calls. -/
theorem callPositions_eq_nil {insns : List Insn} (none : ∀ n ∈ insns, n.type ≠ .call)
    (pos : Nat) : callPositions insns pos = [] := by
  induction insns generalizing pos with
  | nil => rfl
  | cons n rest ih =>
    rw [List.forall_mem_cons] at none
    rw [callPositions, if_neg none.1, ih none.2, List.nil_append]

/-- The calls behind are further on by the length of the front. -/
theorem callPositions_append (front behind : List Insn) (pos : Nat) :
    callPositions (front ++ behind) pos =
      callPositions front pos ++ callPositions behind (pos + front.length) := by
  induction front generalizing pos with
  | nil => rfl
  | cons n rest ih =>
    rw [List.cons_append, callPositions, callPositions, ih, List.append_assoc, List.length_cons,
      Nat.add_right_comm, Nat.add_assoc]

/-- `do_rewrites` replaces operands only. -/
theorem rewriteInsn_same {rmap : List Val} {n n' : Insn} (rewritten : rewriteInsn rmap n = .ok n') :
    n'.type = n.type ∧ n'.flags = n.flags := by
  simp only [rewriteInsn, Result.bind_eq_ok, Result.pure_eq, Except.ok.injEq] at rewritten
  obtain ⟨_, _, _, _, _, _, rfl⟩ := rewritten
  exact ⟨rfl, rfl⟩

section Calls

variable {rmap : List Val} {insns insns' : List Insn}

theorem callPositions_rewritten
    (rewritten : List.Forall₂ (fun n n' => rewriteInsn rmap n = .ok n') insns insns') (pos : Nat) :
    callPositions insns' pos = callPositions insns pos := by
  induction rewritten generalizing pos with
  | nil => rfl
  | cons head _ ih => rw [callPositions, callPositions, ih, (rewriteInsn_same head).1]

/-- Rewriting keeps the one call. -/
theorem OneCall.rewritten (calls : OneCall insns)
    (rewritten : List.Forall₂ (fun n n' => rewriteInsn rmap n = .ok n') insns insns') :
    OneCall insns' := by
  constructor
  · have same : (insns'.filter (·.type = .call)).length =
        (insns.filter (·.type = .call)).length := by
      clear calls
      induction rewritten with
      | nil => rfl
      | cons head _ ih =>
        rw [List.filter_cons, List.filter_cons, (rewriteInsn_same head).1]
        split
        · rw [List.length_cons, List.length_cons, ih]
        · exact ih
    rw [same]
    exact calls.once
  · intro n' member type
    obtain ⟨n, listed, head⟩ := Lists.mem_of_forall₂ rewritten member
    obtain ⟨sameType, sameFlags⟩ := rewriteInsn_same head
    rw [sameFlags]
    exact calls.flags n listed (sameType ▸ type)

/-- What stands around the call of a block is no call. -/
theorem OneCall.others {front behind : List Insn} {call : Insn} (calls : OneCall insns)
    (split : insns = front ++ call :: behind) (type : call.type = .call) :
    IsCall call ∧ (∀ n ∈ front, n.type ≠ .call) ∧ ∀ n ∈ behind, n.type ≠ .call := by
  have once := calls.once
  rw [split, List.filter_append, List.filter_cons, if_pos (by simp [type]), List.length_append,
    List.length_cons] at once
  have none {l : List Insn} (empty : (l.filter (·.type = .call)).length = 0) :
      ∀ n ∈ l, n.type ≠ .call := by
    rw [List.length_eq_zero_iff, List.filter_eq_nil_iff] at empty
    exact fun n member same => empty n member (by simpa using same)
  exact ⟨⟨type, calls.flags call (by simp [split]) type⟩, none (by omega), none (by omega)⟩

/-- The one call is where the instructions are split. -/
theorem OneCall.positions {front behind : List Insn} {call : Insn} (calls : OneCall insns)
    (split : insns = front ++ call :: behind) (type : call.type = .call) (pos : Nat) :
    callPositions insns pos = [pos + front.length] := by
  obtain ⟨_, before, after⟩ := calls.others split type
  rw [split, callPositions_append, callPositions, if_pos type, callPositions_eq_nil before,
    callPositions_eq_nil after]
  rfl

/-- `do_call_saves` for a block with a call. -/
theorem doCallSaves_eq {b : Blk} {before setup results after : List Insn} {call : Insn}
    {lifetimes : List Lifetime} {reserved : List Val} {pos : Nat} (calls : OneCall b.insns)
    (around : Around b.insns before setup call results after) (type : call.type = .call)
    (at_call : pos = before.length + setup.length + 1)
    (built : buildReserved (buildActiveBetween [] lifetimes 0 pos pos) rmap = .ok reserved)
    (isReg : ∀ r ∈ reserved, r.isReg) :
    doCallSaves b lifetimes rmap (callPositions b.insns 1) = .ok {
      b := { b with
        insns := before ++ saves 0 (callerSaved reserved) ++ setup ++ call :: results ++
          restores 0 (callerSaved reserved) ++ after }
      offset := (callerSaved reserved).length + (callerSaved reserved).length
      maxCounter := (callerSaved reserved).length } := by
  have split : b.insns = before ++ setup ++ call :: (results ++ after) := by
    rw [around.split, List.append_assoc, List.cons_append]
  have isCall := (calls.others split type).1
  have positions : callPositions b.insns 1 = [pos] := by
    rw [calls.positions split type, List.length_append, at_call, Nat.add_comm]
  rw [positions, doCallSaves, List.foldlM_cons,
    saveCall_eq (s := { b }) around isCall at_call built isReg]
  simp

end Calls

end Qbt.Regalloc
