import Qbt.Abi.Simulation
import Qbt.Regalloc.Setup

/-!
# What is handed over

In front of a call the argument registers hold the arguments, and in front of a return the values
that are returned, each in the register of its slot. Register allocation keeps them there, unless
a register was written too early.
-/

namespace Qbt.Regalloc

open Abi Interference

variable {W M : Type} {S : Semantics W M}

/-- What no instruction writes keeps its value. -/
theorem value_execAll {insns : List Insn} {v : Val} (unwritten : ∀ n ∈ insns, n.out ≠ v)
    (state : State W M) : S.value (execAll S insns state) v = S.value state v := by
  induction insns generalizing state with
  | nil => rfl
  | cons n rest ih =>
    rw [List.forall_mem_cons] at unwritten
    refine (ih unwritten.2 _).trans (S.value_exec_of_ne (fun written => ?_) state)
    exact unwritten.1 (Insn.line_write.mp written).1

private theorem execAll_append (first second : List Insn) (state : State W M) :
    execAll S (first ++ second) state = execAll S second (execAll S first state) :=
  List.foldl_append

/-- `abi0` gives only what is passed a new output. -/
theorem rewriteInsn_out {n n' : Insn} (others : ¬ (n.type = .arg ∨ n.type = .retarg))
    (rewritten : Abi.rewriteInsn n = .ok n') : n'.out = n.out := by
  rw [not_or] at others
  unfold Abi.rewriteInsn at rewritten
  split at rewritten
  · simp only [rewriteParam, Result.bind_eq_ok, Result.pure_eq, Except.ok.injEq] at rewritten
    obtain ⟨_, _, _, _, rfl⟩ := rewritten
    rfl
  · simp only [rewriteRetval, Result.bind_eq_ok, Result.pure_eq, Except.ok.injEq] at rewritten
    obtain ⟨_, _, _, _, rfl⟩ := rewritten
    rfl
  · exact absurd ‹_› others.1
  · exact absurd ‹_› others.2
  · cases rewritten
    rfl
  · cases rewritten
    rfl

/-- An instruction that moves or copies an operand. -/
structure Transfers (m : Insn) (target source : Val) : Prop where
  out : m.out = target
  in0 : m.in0 = source
  type : m.type ≠ .call
  exec : ∀ {W M : Type} {S : Semantics W M}, S.Lawful → ∀ state : State W M,
    S.exec m state = state.write target (S.value state source)

/-- What passes an item transfers it into its register. -/
theorem rewriteInsn_transfers {n m : Insn} {k : Nat} (passes : n.type = .arg ∨ n.type = .retarg)
    (passing : n.Passing) (in1 : n.in1 = .imm k .i27) (inside : k < 24)
    (rewritten : Abi.rewriteInsn n = .ok m) : Transfers m (.reg (ra k)) n.in0 := by
  obtain ⟨how, moves, passed⟩ := passIn_eq (passing.operand passes) in1 inside
  have transfers (flags : Flags) :
      Transfers { insnCreate how .i27 (.reg (ra k)) n.in0 .noclass 0 with flags }
        (.reg (ra k)) n.in0 :=
    ⟨rfl, rfl, by rcases moves with rfl | rfl <;> simp [insnCreate],
      fun lawful => exec_transfer lawful moves _ _ flags⟩
  rcases passes with type | type
  · simp only [Abi.rewriteInsn, type, rewriteArg, passed, Result.ok_bind, Result.pure_eq,
      Except.ok.injEq] at rewritten
    exact rewritten ▸ transfers _
  · simp only [Abi.rewriteInsn, type, rewriteRetarg, passed, Except.ok.injEq] at rewritten
    exact rewritten ▸ transfers {}

/-- A block with items, in front of `abi0` and behind it. -/
structure Hands (d b : Blk) : Prop where
  rewritten : Abi.rewriteBlk d = .ok b
  passing : ∀ n ∈ d.insns, n.Passing
  noRegs : ∀ n ∈ d.insns, n.NoRegs
  numbered : ∀ type : InsnType, type.isItem → ∃ count, slots type d.insns = numbered count
  order : ((∀ m ∈ d.insns, m.type ≠ .retarg) ∧ ∀ before call after,
    d.insns = before ++ call :: after → call.type = .call → ∀ m ∈ after, m.type ≠ .arg) ∨
      ∀ m ∈ d.insns, m.type ≠ .arg ∧ m.type ≠ .call
  increasing : b.defs.Pairwise (· < ·)
  uses : b.UsesDefined

/-- What a temporary holds when it is read does not change any more. -/
theorem unwritten_of_read {b : Blk} (increasing : b.defs.Pairwise (· < ·)) (uses : b.UsesDefined)
    {front behind : List Insn} {m : Insn} (split : b.insns = front ++ m :: behind) {t : Nat}
    (read : t ∈ m.reads) : ∀ p ∈ m :: behind, p.out ≠ .tmp t := by
  intro p member same
  have later : t ∈ (m :: behind).filterMap (·.out.number?) :=
    List.mem_filterMap.mpr ⟨p, member, by rw [same]; rfl⟩
  have nodup : b.defs.Nodup := increasing.imp Nat.ne_of_lt
  rw [Blk.defs, split, List.filterMap_append, ← List.append_assoc] at nodup
  refine (List.nodup_append.mp nodup).2.2 t ?_ t later rfl
  rw [List.mem_append]
  rcases uses.reads front m behind split read with param | ⟨q, earlier, written⟩
  · exact Or.inl (List.mem_filterMap.mpr ⟨_, param, rfl⟩)
  · have written : q.out = .tmp t := written
    exact Or.inr (List.mem_filterMap.mpr ⟨q, earlier, by rw [written]; rfl⟩)

section Hands

variable {d b : Blk} (hands : Hands d b)
include hands

/-- The items of a type are numbered by their positions. -/
theorem Hands.slot {before after : List Insn} {n : Insn} (item : n.type.isItem)
    (split : d.insns = before ++ n :: after) :
    n.in1 = .imm ((before.filter (·.type = n.type)).length : Nat) .i27 := by
  obtain ⟨count, numbered⟩ := hands.numbered n.type item
  obtain ⟨j, -, slot⟩ := slot_lt (split ▸ List.mem_append_right _ List.mem_cons_self) numbered
  rw [split, slots_append, slots_cons, slots_singleton, if_pos rfl, slot] at numbered
  have earlier := congrArg List.length (numbered_split numbered.symm)
  rw [slots_map, List.length_map] at earlier
  rw [slot, earlier, Abi.numbered, List.length_map, List.length_range]

/-- Behind the move of an argument nothing writes its register. -/
theorem Hands.kept {before after behind : List Insn} {n : Insn}
    (passes : n.type = .arg ∨ n.type = .retarg) (split : d.insns = before ++ n :: after)
    (rewritten : List.Forall₂ (fun n n' => Abi.rewriteInsn n = .ok n') after behind)
    (inside : (before.filter (·.type = n.type)).length < 24) :
    ∀ p ∈ behind, p.out ≠ .reg (ra (before.filter (·.type = n.type)).length) := by
  intro p' member same
  obtain ⟨p, later, head⟩ := Lists.mem_of_forall₂ rewritten member
  have listed : p ∈ d.insns := by simp [split, later]
  by_cases items : p.type = .arg ∨ p.type = .retarg
  · have item : p.type.isItem := InsnType.isItem_iff.mpr (by tauto)
    obtain ⟨middle, rest, rfl⟩ := List.append_of_mem later
    have whole : d.insns = (before ++ n :: middle) ++ p :: rest := by simp [split]
    obtain ⟨inside', register⟩ :=
      itemReg_eq item (hands.passing p listed) (hands.slot item whole) head
    have out : itemReg p p' = p'.out := by
      rcases items with type | type <;> simp [itemReg, type]
    rw [out, same] at register
    have number := ra_injective inside inside' (Val.reg.inj register)
    by_cases type : n.type = p.type
    · rw [type, List.filter_append, List.filter_cons, if_pos (by simp [type]),
        List.length_append, List.length_cons] at number
      omega
    · -- A block does not both pass arguments and return values.
      have first : n ∈ d.insns := by simp [split]
      rcases hands.order with ⟨noRetarg, -⟩ | others
      · exact type ((passes.resolve_right (noRetarg n first)).trans
          (items.resolve_right (noRetarg p listed)).symm)
      · exact type ((passes.resolve_left (others n first).1).trans
          (items.resolve_left (others p listed).1).symm)
  · have noReg := (hands.noRegs p listed).out
    rw [← rewriteInsn_out items head, same] at noReg
    cases noReg

/-- An argument is moved in front of the call. -/
theorem Hands.not_call {before after : List Insn} {n : Insn}
    (passes : n.type = .arg ∨ n.type = .retarg) (split : d.insns = before ++ n :: after) :
    ∀ m ∈ before, m.type ≠ .call := by
  intro m earlier type
  have listed : m ∈ d.insns := by simp [split, earlier]
  have member : n ∈ d.insns := by simp [split]
  rcases hands.order with ⟨noRetarg, order⟩ | others
  · obtain ⟨first, rest, rfl⟩ := List.append_of_mem earlier
    exact order first m (rest ++ n :: after) (by simp [split]) type n (by simp)
      (passes.resolve_right (noRetarg n member))
  · exact (others m listed).2 type

/-- The move of the `k`-th item of its type, and what is behind it. -/
structure ItemAt (b : Blk) (n : Insn) (k : Nat) (front : List Insn) (m : Insn)
    (behind : List Insn) : Prop where
  inside : k < 24
  split : b.insns = front ++ m :: behind
  transfers : Transfers m (.reg (ra k)) n.in0
  front : ∀ p ∈ front, p.type ≠ .call
  kept : ∀ p ∈ behind, p.out ≠ .reg (ra k)

private theorem Hands.itemAt {before after : List Insn} {n : Insn}
    (passes : n.type = .arg ∨ n.type = .retarg) (split : d.insns = before ++ n :: after) :
    ∃ front m behind,
      ItemAt b n (before.filter (·.type = n.type)).length front m behind := by
  have item : n.type.isItem := InsnType.isItem_iff.mpr (by tauto)
  have passing := hands.passing n (by simp [split])
  have in1 := hands.slot item split
  obtain ⟨insns, replaced, rfl⟩ := rewriteBlk_eq_ok.mp hands.rewritten
  rw [split] at replaced
  obtain ⟨front, m, behind, rfl, fronts, head, behinds⟩ := Lists.split_of_forall₂ replaced.flip
  have inside := (itemReg_eq item passing in1 head).1
  refine ⟨front, m, behind, inside, rfl, rewriteInsn_transfers passes passing in1 inside head, ?_,
    hands.kept passes split behinds.flip inside⟩
  intro p' member type
  obtain ⟨p, earlier, head⟩ := Lists.mem_of_forall₂ fronts.flip member
  have same := (rewriteInsn_rewrites (hands.passing p (by simp [split, earlier])) head).call
  exact hands.not_call passes split p earlier (same.mp type)

end Hands

section ItemAt

variable {b : Blk} {n m : Insn} {k : Nat} {front behind : List Insn}
  (itemAt : ItemAt b n k front m behind)
include itemAt

/-- The move of an item is in front of the call. -/
theorem ItemAt.untilCall : untilCall b.insns = front ++ [m] ++ untilCall behind := by
  rw [itemAt.split, ← List.singleton_append, ← List.append_assoc, untilCall_append]
  exact List.forall_mem_append.mpr ⟨itemAt.front, by simpa using itemAt.transfers.type⟩

/-- The register of the item is written in front of the call. -/
theorem ItemAt.writes : ∃ p ∈ Regalloc.untilCall b.insns, p.out = .reg (ra k) :=
  ⟨m, by simp [itemAt.untilCall], itemAt.transfers.out⟩

/-- When the call or the end of the block is reached, the register of an item holds its value. -/
theorem ItemAt.holds (lawful : S.Lawful) (increasing : b.defs.Pairwise (· < ·))
    (uses : b.UsesDefined) (noReg : n.in0.isReg = false) (state : State W M) :
    (execAll S (Regalloc.untilCall b.insns) state).reg (ra k) =
      S.value (execAll S (Regalloc.untilCall b.insns) state) n.in0 := by
  have later {v : Val} (unwritten : ∀ p ∈ behind, p.out ≠ v) (now : State W M) :
      S.value (execAll S (Regalloc.untilCall behind) now) v = S.value now v :=
    value_execAll (fun p member => unwritten p (mem_of_mem_untilCall member)) now
  rw [itemAt.untilCall, execAll_append, execAll_append]
  generalize execAll S front state = now
  have moved : execAll S [m] now = now.write (.reg (ra k)) (S.value now n.in0) :=
    itemAt.transfers.exec lawful now
  rw [moved]
  have register := later itemAt.kept (now.write (.reg (ra k)) (S.value now n.in0))
  rw [S.value_reg, S.value_reg, State.write_reg_reg, if_pos rfl] at register
  rw [register]
  have differs : n.in0 ≠ .reg (ra k) := by
    rintro same
    rw [same] at noReg
    cases noReg
  rw [← S.value_write_of_ne now differs (S.value now n.in0)]
  cases operand : n.in0 with
  | tmp t =>
    refine (later (fun p member => ?_) _).symm
    have read : t ∈ m.reads := Or.inl (itemAt.transfers.in0.trans operand)
    exact unwritten_of_read increasing uses itemAt.split read p (List.mem_cons_of_mem _ member)
  | reg r => simp [operand, Val.isReg] at noReg
  | _ => rfl

end ItemAt

/-- The registers and what else there is, with the slots of the frame that registers are saved
in across calls. -/
structure Framed (W M : Type) where
  state : State W M
  slots : Int → W

/-- SAVE and RESTORE copy between registers and slots. -/
def execFramed (S : Semantics W M) (framed : Framed W M) (n : Insn) : Framed W M :=
  match n.type, n.in1 with
  | .save, .imm slot _ =>
    { framed with slots := Function.update framed.slots slot (S.value framed.state n.in0) }
  | .restore, .imm slot _ => { framed with state := framed.state.write n.in0 (framed.slots slot) }
  | _, _ => { framed with state := S.exec n framed.state }

/-- The instructions of an allocated block, one behind the other. -/
def runFramed (S : Semantics W M) (insns : List Insn) (framed : Framed W M) : Framed W M :=
  insns.foldl (execFramed S) framed

/-- SAVEs change no register. -/
theorem state_runFramed {insns : List Insn}
    (saves : ∀ n ∈ insns, n.type.savesReg → ∃ r slot, n = saveInsn r slot)
    (framed : Framed W M) : (runFramed S insns framed).state =
      execAll S (insns.filter fun n => !n.type.savesReg) framed.state := by
  induction insns generalizing framed with
  | nil => rfl
  | cons n rest ih =>
    rw [List.forall_mem_cons] at saves
    have step : runFramed S (n :: rest) framed = runFramed S rest (execFramed S framed n) := rfl
    rw [step, ih saves.2, List.filter_cons]
    by_cases saving : n.type.savesReg
    · obtain ⟨r, slot, rfl⟩ := saves.1 saving
      rfl
    · have plain : n.type.savesReg = false := by simpa using saving
      have state : (execFramed S framed n).state = S.exec n framed.state := by
        unfold execFramed
        split
        · rename_i type _
          rw [type] at plain
          cases plain
        · rename_i type _
          rw [type] at plain
          cases plain
        · rfl
      rw [state, if_pos (by rw [plain]; rfl)]
      rfl

/-- In front of its call a block that saves registers has the SAVEs, and otherwise what it had. -/
theorem SavesLive.untilCall {lifetimes : List Lifetime} {rmap : List Val} {b : Blk}
    {saved : Saving} (live : SavesLive lifetimes rmap b saved) :
    (∀ n ∈ untilCall saved.b.insns, n.type.savesReg → ∃ r slot, n = saveInsn r slot) ∧
      (untilCall saved.b.insns).filter (fun n => !n.type.savesReg) = Regalloc.untilCall b.insns ∧
        callOf saved.b.insns = callOf b.insns := by
  have plain : ∀ n ∈ b.insns, n.type.savesReg = false := by
    intro n member
    rw [← live.erased] at member
    simpa using (List.mem_filter.mp member).2
  refine ⟨?_, ?_, ?_⟩
  · rcases (split_untilCall b.insns).2 with ⟨-, all⟩ | ⟨call, behind, -, type, split⟩
    · have none : ∀ n ∈ b.insns, n.type ≠ .call := all ▸ (split_untilCall b.insns).1
      rw [live.without none]
      intro n member saving
      rw [plain n (mem_of_mem_untilCall member)] at saving
      cases saving
    · obtain ⟨before, setup, results, after, front, rfl, around⟩ := exists_around split
      obtain ⟨saving, restoring, saves⟩ := live.call before setup call results after type around
      have noCall := (split_untilCall b.insns).1
      rw [front] at noCall
      have others : ∀ n ∈ before ++ saving ++ setup, n.type ≠ .call := by
        rw [List.forall_mem_append] at noCall
        refine List.forall_mem_append.mpr ⟨List.forall_mem_append.mpr ⟨noCall.1, ?_⟩, noCall.2⟩
        intro n member
        obtain ⟨r, slot, -, -, rfl⟩ := saves.saves n member
        simp [saveInsn, insnCreate]
      have until' : Regalloc.untilCall saved.b.insns = before ++ saving ++ setup := by
        rw [saves.insns, List.append_assoc, List.append_assoc, untilCall_append _ others,
          List.cons_append, untilCall_call type, List.append_nil]
      rw [until']
      intro n member kind
      by_cases inserted : n ∈ saving
      · obtain ⟨r, slot, -, -, rfl⟩ := saves.saves n inserted
        exact ⟨r, slot, rfl⟩
      · have old : n ∈ b.insns := by
          rw [around.split]
          simp only [List.mem_append] at member ⊢
          tauto
        rw [plain n old] at kind
        cases kind
  · rw [← live.erased, Regalloc.untilCall, Regalloc.untilCall, List.takeWhile_filter]
    congr 2
    funext n
    cases n.type <;> simp [InsnType.savesReg]
  · rw [← live.erased, callOf, callOf, List.find?_filter]
    congr 1
    funext n
    cases n.type <;> simp [InsnType.savesReg]

/-- What is handed over reaches its register: for whatever is passed in the registers of the
parameters, every argument register of a call or a return holds the value of its operand when
the call or the end of the block is reached, and the call is of the same address. `d` is the
block in front of `abi0`, `b` the block behind it and `allocated` the block that `regalloc`
leaves. -/
structure HandsOver (S : Semantics W M) (rmap : List Val) (d b allocated : Blk) : Prop where
  passed : ∀ (state : State W M) (framed : Framed W M), Enters S rmap b state framed.state →
    ∀ type, type = .arg ∨ type = .retarg → ∀ k n, (d.insns.filter (·.type = type))[k]? = some n →
      k < 24 ∧ (runFramed S (Regalloc.untilCall allocated.insns) framed).state.reg (ra k) =
        S.value (execAll S (Regalloc.untilCall b.insns) state) n.in0
  called : ∀ (state : State W M) (framed : Framed W M), Enters S rmap b state framed.state →
    ∀ call, callOf b.insns = some call → ∃ call', callOf allocated.insns = some call' ∧
      S.value (runFramed S (Regalloc.untilCall allocated.insns) framed).state call'.in0 =
        S.value (execAll S (Regalloc.untilCall b.insns) state) call.in0

/-- A block whose registers are kept apart, if there is something to hand over, hands over what it
should. -/
theorem Hands.handsOver {d b b' : Blk} {rmap : List Val} {lifetimes : List Lifetime}
    {saved : Saving} (hands : Hands d b) (lawful : S.Lawful) (rules : RulesIn rmap)
    (rewritten : List.Forall₂ (fun n n' => rewriteInsn rmap n = .ok n') b.insns b'.insns)
    (live : SavesLive lifetimes rmap b' saved)
    (apart : (handedOver b.insns).Nonempty →
      ∀ v w, Conflict b.insns v w → registerOf rmap v ≠ registerOf rmap w) :
    HandsOver S rmap d b saved.b := by
  obtain ⟨saves, erased, called⟩ := live.untilCall
  obtain ⟨front, calls⟩ := untilCall_forall₂
    (fun n n' head => by rw [(rewriteInsn_same head).1]) rewritten
  have holds (state : State W M) (framed : Framed W M)
      (enters : Enters S rmap b state framed.state) {v : Val} (member : v ∈ handedOver b.insns) :
      S.value (runFramed S (Regalloc.untilCall saved.b.insns) framed).state (registerOf rmap v) =
        S.value (execAll S (Regalloc.untilCall b.insns) state) v := by
    have coloured : Coloured (registerOf rmap) (setupLines b.insns) (handedOver b.insns) :=
      fun v w interferes => apart ⟨_, member⟩ v w ⟨interferes.differ, Or.inl interferes⟩
    rw [state_runFramed saves, erased]
    exact ((enters.holds hands.uses).run lawful rules coloured front).values v member
  constructor
  · intro state framed enters type kind k n found
    obtain ⟨before, after, split, count, same⟩ := Lists.split_of_filter found
    obtain rfl : n.type = type := by simpa using same
    obtain ⟨_, _, _, itemAt⟩ := hands.itemAt kind split
    rw [count] at itemAt
    have noReg := (hands.noRegs n (by simp [split])).in0
    have register : .reg (ra k) ∈ handedOver b.insns := Or.inr ⟨rfl, itemAt.writes⟩
    refine ⟨itemAt.inside, ?_⟩
    calc (runFramed S (Regalloc.untilCall saved.b.insns) framed).state.reg (ra k)
        = (execAll S (Regalloc.untilCall b.insns) state).reg (ra k) :=
          holds state framed enters register
      _ = S.value (execAll S (Regalloc.untilCall b.insns) state) n.in0 :=
          itemAt.holds lawful hands.increasing hands.uses noReg state
  · intro state framed enters call found
    rw [called]
    rw [found] at calls
    cases found' : callOf b'.insns with
    | none =>
      rw [found'] at calls
      cases calls
    | some call' =>
      rw [found'] at calls
      cases calls with
      | some head =>
        refine ⟨call', rfl, ?_⟩
        obtain ⟨in0, first, -, -, -, -, rfl⟩ : ∃ in0, rewriteUse rmap call.in0 = .ok in0 ∧ _ := by
          simpa only [rewriteInsn, Result.bind_eq_ok, Result.pure_eq, Except.ok.injEq] using head
        rw [rewriteUse_eq first]
        by_cases place : call.in0.IsPlace
        · exact holds state framed enters (Or.inl ⟨place, call, found, Or.inl rfl⟩)
        · rw [registerOf_of_not_isPlace place]
          exact S.value_of_not_isPlace place _ _

/-- What `abi0` is given and what it leaves behind. -/
theorem hands_of_rewritten {f g h k : Fn} {n : Nat} (built : Frontend.ParserBuilt f)
    (corrected : Corrected f g) (converted : ssa g = .ok (h, n)) (merged : abi0 h = .ok k)
    {b : Blk} (member : b ∈ k.blks) : ∃ d ∈ h.blks, d.id = b.id ∧ Hands d b := by
  obtain ⟨d, listed, rewritten⟩ := Lists.mem_of_forall₂ (abi0_rewritten merged) member
  have input := abi0_input built corrected converted merged
  have plain := (converted_plain built corrected converted listed).1
  have order := converted_order built corrected converted listed
  obtain ⟨_, _, parsed⟩ := built
  obtain ⟨chunks, built'⟩ := Frontend.buildFunction_built parsed
  obtain ⟨passing, numbered⟩ := converted_items built' corrected converted listed
  refine ⟨d, listed, ?_, rewritten, passing, plain.insns, numbered, order,
    input.increasing b member, input.uses b member⟩
  obtain ⟨_, _, rfl⟩ := rewriteBlk_eq_ok.mp rewritten
  rfl

section Visited

variable {f g h k : Fn} {n : Nat} (built : Frontend.ParserBuilt f) (corrected : Corrected f g)
  (converted : ssa g = .ok (h, n)) (merged : abi0 h = .ok k) {b b' : Blk} {c : Collected}
  {r : Assignment} (visits : Visits (.start k) k.blks b c r b')
include built corrected converted merged visits

/-- Operands in conflict are among those `build_rmap` gives registers to. -/
theorem Visits.relates_conflict : Relates c (Conflict b.insns) := by
  have input := abi0_input built corrected converted merged
  obtain ⟨member, now, allocates⟩ := visits.allocates
  obtain ⟨c', collected, recorded⟩ := collectLifetimes_recorded now.hints now.rmap
    (input.uses b member) (input.increasing b member) (input.before b member)
  obtain rfl : c' = c := Except.ok.inj (collected.symm.trans allocates.collected)
  exact Regalloc.relates_conflict recorded (input.uses b member)

/-- Operands in conflict are given different registers exactly if `build_rmap` keeps them apart. -/
theorem Visits.conflict_iff :
    (∀ v w, Conflict b.insns v w → registerOf r.rmap v ≠ registerOf r.rmap w) ↔
      KeepsApart c (Conflict b.insns) := by
  obtain ⟨_, _, allocates⟩ := visits.allocates
  exact keepsApart_iff (collectLifetimes_indexed allocates.collected) allocates.params
    (visits.relates_conflict built corrected converted merged) allocates.assigned

end Visited

/-- Arguments and returned values survive register allocation, as a simultaneous assignment, in
every block in which no operand is given the register of an operand it is in conflict with: none
has it reserved, and whenever `build_rmap` comes to a temporary, no operand in conflict with it
holds the register it prefers. A block with nothing to hand over is free to. -/
theorem handsOver_of_keepsApart {f g h k : Fn} {n : Nat} (built : Frontend.ParserBuilt f)
    (corrected : Corrected f g) (converted : ssa g = .ok (h, n)) (merged : abi0 h = .ok k)
    {b b' : Blk} {c : Collected} {r : Assignment} (visits : Visits (.start k) k.blks b c r b')
    (apart : (handedOver b.insns).Nonempty → KeepsApart c (Conflict b.insns)) :
    ∃ d ∈ h.blks, d.id = b.id ∧ Abi.rewriteBlk d = .ok b ∧
      ∃ saved, doCallSaves b' c.lifetimes r.rmap c.calls = .ok saved ∧
        ∀ {W M : Type} (S : Semantics W M), S.Lawful → HandsOver S r.rmap d b saved.b := by
  have input := abi0_input built corrected converted merged
  obtain ⟨now, rules, allocates⟩ := visits.rulesIn ⟨.nil, .nil⟩ input.before
  have member := visits.allocates.1
  obtain ⟨d, listed, id, hands⟩ := hands_of_rewritten built corrected converted merged member
  obtain ⟨saved, saves, live⟩ := allocates.savesLive input rules member
  obtain ⟨_, rulesIn⟩ := allocates.rulesIn rules (input.before b member)
  have differ := visits.conflict_iff built corrected converted merged
  exact ⟨d, listed, id, hands.rewritten, saved, saves, fun S lawful =>
    hands.handsOver lawful rulesIn (doRewrites_insns allocates.rewritten) live
      fun some => differ.mpr (apart some)⟩

/-- A function that passes its parameters on in their order. -/
def passedInOrder : Frontend.Function where
  name := "main"
  params := [(.i27, "x"), (.i27, "y")]
  body := {
    items := [
      { stmt := .call (.symbol "f") [.id "x", .id "y"] [] },
      { stmt := .leave [] }] }

/-- Each parameter stays in its register. -/
theorem handsOver_of_keepsApart_passedInOrder :
    ∃ f g h n k b c r b' d saved, Frontend.buildFunction 0 passedInOrder = .ok f ∧
      Corrected f g ∧ ssa g = .ok (h, n) ∧ abi0 h = .ok k ∧ Visits (.start k) k.blks b c r b' ∧
        KeepsApart c (Conflict b.insns) ∧ d ∈ h.blks ∧ Abi.rewriteBlk d = .ok b ∧
          doCallSaves b' c.lifetimes r.rmap c.calls = .ok saved ∧
            (handedOver b.insns).Nonempty ∧
              HandsOver Semantics.integers r.rmap d b saved.b := by
  have ran : ∃ f g ri h n k, Frontend.buildFunction 0 passedInOrder = .ok f ∧
      correct 20 f f.ntmp = .ok (g, ri) ∧ ssa { g with ntmp := ri } = .ok (h, n) ∧
        abi0 h = .ok k ∧
        ∃ b rest c r b', k.blks = b :: rest ∧ collectLifetimes b [] [] = .ok c ∧
          buildRmap c.hints c.lifetimes c.rmap = .ok r ∧ doRewrites b r.rmap = .ok b' ∧
            c.lifetimes = [⟨.tmp 0, 1, 3, 2⟩, ⟨.tmp 1, 2, 4, 2⟩] ∧
              r.rmap = [.reg (ra 0), .reg (ra 1)] ∧
                setupLines b.insns = [
                  (insnCreate .move .i27 (.tmp 0) (.reg (ra 0)) .noclass 0).line,
                  (insnCreate .move .i27 (.tmp 1) (.reg (ra 1)) .noclass 0).line,
                  (insnCreate .move .i27 (.reg (ra 0)) (.tmp 0) .noclass 0).line,
                  (insnCreate .move .i27 (.reg (ra 1)) (.tmp 1) .noclass 0).line] ∧
                  (∃ call, callOf b.insns = some call ∧ call.in0 = .ref "f" ∧ call.in1 = .noclass) ∧
                    ∃ n ∈ untilCall b.insns, n.out = .reg (ra 0) :=
    ⟨_, _, _, _, _, _, by rfl, by rfl, by rfl, by rfl,
      _, _, _, _, _, by rfl, by rfl, by rfl, by rfl, by rfl, by rfl, by rfl,
      ⟨_, by rfl, by rfl, by rfl⟩, _, .tail _ (.tail _ (.head _)), by rfl⟩
  obtain ⟨f, g, ri, h, n, k, parsed, corrected, converted, merged, b, rest, c, r, b', blks,
    collected, assigned, rewritten, lifetimes, rmap, lines, ⟨call, found, in0, in1⟩, written⟩ := ran
  have corrected : Corrected f { g with ntmp := ri } := ⟨20, g, ri, corrected, rfl⟩
  have visits : Visits (.start k) k.blks b c r b' := by
    rw [blks]
    exact .here ⟨collected, assigned, rewritten⟩
  -- A parameter is in the register it comes in and goes to.
  have first : ¬ Conflict b.insns (.tmp 0) (.reg (ra 0)) := by
    simp only [Conflict, liveIn, lines, interferes_cons, not_interferes_nil, mem_live_cons,
      live_nil]
    simp [Insn.line, insnCreate, Val.IsPlace, Val.isTmp, Val.isReg, handedOver, found, in0, in1, ra,
      arMap]
  have second : ¬ Conflict b.insns (.tmp 1) (.reg (ra 1)) := by
    simp only [Conflict, liveIn, lines, interferes_cons, not_interferes_nil, mem_live_cons,
      live_nil]
    simp [Insn.line, insnCreate, Val.IsPlace, Val.isTmp, Val.isReg, handedOver, found, in0, in1, ra,
      arMap]
  have relates := visits.relates_conflict ⟨0, _, parsed⟩ corrected converted merged
  have temps {v : Val} (place : v.isReg ∨ ∃ t, v = .tmp t ∧ (lifetimeOf c.lifetimes t).used ≠ 0) :
      (∃ a, v = .reg a) ∨ v = .tmp 0 ∨ v = .tmp 1 := by
    rcases place with isReg | ⟨t, rfl, used⟩
    · cases v with
      | reg a => exact Or.inl ⟨a, rfl⟩
      | _ => cases isReg
    · have inside := inside_of_used used
      rw [lifetimes, List.length_cons, List.length_singleton] at inside
      obtain rfl | rfl : t = 0 ∨ t = 1 := by omega
      · exact Or.inr (Or.inl rfl)
      · exact Or.inr (Or.inr rfl)
  have apart : ∀ v w, Conflict b.insns v w → registerOf r.rmap v ≠ registerOf r.rmap w := by
    intro v w conflict same
    have back := relates.symm v w conflict
    have differ := relates.differ v w conflict
    rw [rmap] at same
    rcases temps (relates.place v w conflict) with ⟨a, rfl⟩ | rfl | rfl
    · rcases temps (relates.place w _ back) with ⟨a', rfl⟩ | rfl | rfl
      · exact differ same
      · obtain rfl : a = ra 0 := Val.reg.inj same
        exact first back
      · obtain rfl : a = ra 1 := Val.reg.inj same
        exact second back
    · rcases temps (relates.place w _ back) with ⟨a', rfl⟩ | rfl | rfl
      · obtain rfl : ra 0 = a' := Val.reg.inj same
        exact first conflict
      · exact differ rfl
      · exact absurd (Val.reg.inj same) (by decide)
    · rcases temps (relates.place w _ back) with ⟨a', rfl⟩ | rfl | rfl
      · obtain rfl : ra 1 = a' := Val.reg.inj same
        exact second conflict
      · exact absurd (Val.reg.inj same) (by decide)
      · exact differ rfl
  have apart := (visits.conflict_iff ⟨0, _, parsed⟩ corrected converted merged).mp apart
  obtain ⟨d, listed, -, rewrites, saved, saves, hands⟩ :=
    handsOver_of_keepsApart ⟨0, _, parsed⟩ corrected converted merged visits fun _ => apart
  exact ⟨f, _, h, n, k, b, c, r, b', d, saved, parsed, corrected, converted, merged, visits, apart,
    listed, rewrites, saves, ⟨_, Or.inr ⟨rfl, written⟩⟩, hands _ Semantics.integers_lawful⟩

/-- A function that passes its parameters on in the other order. -/
def passedSwapped : Frontend.Function where
  name := "main"
  params := [(.i27, "x"), (.i27, "y")]
  body := {
    items := [
      { stmt := .call (.symbol "f") [.id "y", .id "x"] [] },
      { stmt := .leave [] }] }

/-- `y` is moved to `RA0`, where `x` still is, and then `RA0` is moved to `RA1`: both arguments are
`y`. -/
theorem passedSwapped_not_handsOver :
    ∃ f g h k m, Frontend.buildFunction 0 passedSwapped = .ok f ∧ Optimizes f g h k m ∧
      ∃ b c r b' d saved, Visits (.start k) k.blks b c r b' ∧ d ∈ h.blks ∧
        Abi.rewriteBlk d = .ok b ∧ doCallSaves b' c.lifetimes r.rmap c.calls = .ok saved ∧
          ¬ HandsOver Semantics.integers r.rmap d b saved.b := by
  have ran : ∃ f g ri h n k m, Frontend.buildFunction 0 passedSwapped = .ok f ∧
      correct 20 f f.ntmp = .ok (g, ri) ∧ ssa { g with ntmp := ri } = .ok (h, n) ∧
        abi0 h = .ok k ∧ regalloc k = .ok m ∧
        ∃ b rest c r b' d ds saved p, k.blks = b :: rest ∧ h.blks = d :: ds ∧
          Abi.rewriteBlk d = .ok b ∧ collectLifetimes b [] [] = .ok c ∧
            buildRmap c.hints c.lifetimes c.rmap = .ok r ∧ doRewrites b r.rmap = .ok b' ∧
              doCallSaves b' c.lifetimes r.rmap c.calls = .ok saved ∧ b.params = [] ∧
                (d.insns.filter (·.type = .arg))[1]? = some p ∧
                  (runFramed Semantics.integers (Regalloc.untilCall saved.b.insns)
                    ⟨⟨fun _ => 0, fun r => r, ()⟩, fun _ => 0⟩).state.reg (ra 1) = ra 1 ∧
                    Semantics.integers.value (execAll Semantics.integers
                      (Regalloc.untilCall b.insns) ⟨fun _ => 0, fun r => r, ()⟩) p.in0 = ra 0 :=
    ⟨_, _, _, _, _, _, _, by rfl, by rfl, by rfl, by rfl, by rfl,
      _, _, _, _, _, _, _, _, _, by rfl, by rfl, by rfl, by rfl, by rfl, by rfl, by rfl, by rfl,
      by rfl, by rfl, by rfl⟩
  obtain ⟨f, g, ri, h, n, k, m, parsed, corrected, converted, merged, allocated, b, rest, c, r, b',
    d, ds, saved, p, blks, blksH, rewrites, collected, assigned, rewritten, saves, params, found,
    passed, wanted⟩ := ran
  refine ⟨f, _, h, k, m, parsed, ⟨⟨20, g, ri, corrected, rfl⟩, ⟨n, converted⟩, merged, allocated⟩,
    b, c, r, b', d, saved, ?_, ?_, rewrites, saves, fun hands => ?_⟩
  · rw [blks]
    exact .here ⟨collected, assigned, rewritten⟩
  · rw [blksH]
    exact List.mem_cons_self
  · have enters : Enters Semantics.integers r.rmap b ⟨fun _ => 0, fun r => r, ()⟩
        ⟨fun _ => 0, fun r => r, ()⟩ := by
      refine ⟨rfl, fun q member => ?_, fun _ _ => rfl⟩
      rw [params] at member
      cases member
    obtain ⟨-, same⟩ := hands.passed _ ⟨_, fun _ => 0⟩ enters .arg (Or.inl rfl) 1 p found
    rw [passed, wanted] at same
    exact absurd same (by decide)

end Qbt.Regalloc
