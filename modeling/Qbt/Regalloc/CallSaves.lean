import Mathlib.Logic.Function.Basic
import Qbt.Regalloc.Around
import Qbt.Regalloc.Blocks
import Qbt.Regalloc.Collect
import Qbt.Std.IntervalScan

/-!
# Values that live across a call

The registers `do_call_saves` saves are those that `build_active_between` collects for the
position of the call. Behind the last RESTORE they hold what they held in front of the set-up.
-/

namespace Qbt.Regalloc

/-- A temporary whose lifetime starts in front of the position `pos` and ends behind it. -/
structure LivesAcross (lifetimes : List Lifetime) (pos t : Nat) : Prop where
  used : (lifetimeOf lifetimes t).used ≠ 0
  start : (lifetimeOf lifetimes t).start < pos
  finish : pos < (lifetimeOf lifetimes t).finish

/-- `build_active_between` scans for lifetimes that overlap a span of positions. -/
theorem activeAmong_eq_scan (start finish : Nat) (all : List Lifetime) :
    activeAmong start finish all =
      IntervalScan.scan Lifetime.start Lifetime.finish start finish all := by
  induction all with
  | nil => rfl
  | cons l rest ih => rw [activeAmong, IntervalScan.scan, ih]

/-- In a sorted list, `build_active_between` finds all that overlaps. -/
theorem mem_activeAmong {start finish : Nat} {all : List Lifetime} {l : Lifetime}
    (sorted : all.Pairwise (·.start ≤ ·.start)) :
    l ∈ activeAmong start finish all ↔ l ∈ all ∧ start < l.finish ∧ l.start < finish := by
  rw [activeAmong_eq_scan]
  exact IntervalScan.mem_scan_iff_of_sorted sorted

section Across

variable {lifetimes : List Lifetime} {defs : List Nat} {last pos : Nat}

/-- Inside the table the lifetime is its entry. -/
theorem lifetimeOf_eq_getElem {i : Nat} (inside : i < lifetimes.length) :
    lifetimeOf lifetimes i = lifetimes[i] := by
  simp [lifetimeOf, List.getD_eq_getElem?_getD, inside]

/-- The lifetimes in use, by their numbers. -/
theorem mem_inUse {l : Lifetime} : l ∈ lifetimes.filter (·.used ≠ 0) ↔
    ∃ t, (lifetimeOf lifetimes t).used ≠ 0 ∧ lifetimeOf lifetimes t = l := by
  rw [List.mem_filter, decide_eq_true_iff]
  constructor
  · rintro ⟨member, used⟩
    obtain ⟨t, inside, rfl⟩ := List.mem_iff_getElem.mp member
    have same := lifetimeOf_eq_getElem inside
    exact ⟨t, by rwa [same], same⟩
  · rintro ⟨t, used, rfl⟩
    have inside := inside_of_used used
    rw [lifetimeOf_eq_getElem inside] at used ⊢
    exact ⟨List.getElem_mem inside, used⟩

/-- The entries in use are sorted by where they start. -/
theorem Recorded.sorted (recorded : Recorded lifetimes defs last) :
    (lifetimes.filter (·.used ≠ 0)).Pairwise (·.start ≤ ·.start) := by
  rw [List.pairwise_filter, List.pairwise_iff_getElem]
  intro i j insideI insideJ less usedI usedJ
  rw [← lifetimeOf_eq_getElem insideI, decide_eq_true_iff] at usedI
  rw [← lifetimeOf_eq_getElem insideJ, decide_eq_true_iff] at usedJ
  rw [← lifetimeOf_eq_getElem insideI, ← lifetimeOf_eq_getElem insideJ]
  exact recorded.ascending i ((recorded.used i).mp usedI) j ((recorded.used j).mp usedJ) less

/-- What `build_active_between` collects for a call is what lives across it. -/
theorem Recorded.mem_active (recorded : Recorded lifetimes defs last) {l : Lifetime} :
    l ∈ buildActiveBetween [] lifetimes 0 pos pos ↔
      ∃ t, LivesAcross lifetimes pos t ∧ lifetimeOf lifetimes t = l := by
  rw [buildActiveBetween, activeAmong, List.nil_append, List.drop_zero,
    mem_activeAmong recorded.sorted, mem_inUse]
  constructor
  · rintro ⟨⟨t, used, rfl⟩, finish, start⟩
    exact ⟨t, ⟨used, start, finish⟩, rfl⟩
  · rintro ⟨t, lives, rfl⟩
    exact ⟨⟨t, lives.used, rfl⟩, lives.finish, lives.start⟩

/-- A lookup of registers for temporaries does not stop. -/
theorem buildReserved_total {active : List Lifetime} (rmap : List Val)
    (temps : ∀ l ∈ active, l.used ≠ 0 → l.v.isTmp) :
    ∃ reserved, buildReserved active rmap = .ok reserved := by
  refine Result.exists_mapM_eq_ok fun l listed => ?_
  obtain ⟨member, kept⟩ := List.mem_filter.mp listed
  simp only [ne_eq, decide_not, Bool.decide_and, Bool.and_eq_true, Bool.not_eq_true',
    decide_eq_false_iff_not, decide_eq_true_eq] at kept
  obtain ⟨t, same⟩ := Val.isTmp_iff.mp (temps l member kept.1)
  have rule := hasRewriteRule_iff.mp kept.2
  rw [same] at rule ⊢
  exact ⟨_, rewriteTmp_of_rule rule⟩

/-- The registers reserved for a call are those of the temporaries that live across it. -/
theorem Recorded.reserved (recorded : Recorded lifetimes defs last) (rmap : List Val) (pos : Nat) :
    ∃ reserved, buildReserved (buildActiveBetween [] lifetimes 0 pos pos) rmap = .ok reserved ∧
      ∀ r, r ∈ reserved ↔ ∃ t, LivesAcross lifetimes pos t ∧ rewriteTmp rmap (.tmp t) = .ok r := by
  have v {t : Nat} (lives : LivesAcross lifetimes pos t) : (lifetimeOf lifetimes t).v = .tmp t :=
    recorded.v t ((recorded.used t).mp lives.used)
  have temps : ∀ l ∈ buildActiveBetween [] lifetimes 0 pos pos, l.used ≠ 0 → l.v.isTmp := by
    intro l member _
    obtain ⟨t, lives, rfl⟩ := recorded.mem_active.mp member
    rw [v lives]
    rfl
  obtain ⟨reserved, built⟩ := buildReserved_total rmap temps
  refine ⟨reserved, built, fun r => ⟨fun member => ?_, ?_⟩⟩
  · obtain ⟨l, active, _, rewritten⟩ := rule_of_mem_buildReserved built member
    obtain ⟨t, lives, rfl⟩ := recorded.mem_active.mp active
    rw [v lives] at rewritten
    exact ⟨t, lives, rewritten⟩
  · rintro ⟨t, lives, rewritten⟩
    obtain ⟨_, same, rule, real⟩ := rewriteTmp_eq_ok.mp rewritten
    cases same
    have held : hasRewriteRule rmap (lifetimeOf lifetimes t).v := by
      rw [hasRewriteRule_iff, v lives]
      exact rule ▸ real
    obtain ⟨q, member, rewritten'⟩ :=
      mem_buildReserved built (recorded.mem_active.mpr ⟨t, lives, rfl⟩) lives.used held
    rw [v lives, rewritten, Except.ok.injEq] at rewritten'
    exact rewritten' ▸ member

end Across

/-- The registers, and the slots of the frame for registers saved across calls. -/
structure Frame (V : Type) where
  regs : Val → V
  slots : Int → V

section Frame

variable {V : Type} (other : Insn → Frame V → Frame V)

/-- SAVE and RESTORE copy between registers and slots. What the other instructions do, calls
included, is a parameter. -/
def execInsn (s : Frame V) (n : Insn) : Frame V :=
  match n.type, n.in1 with
  | .save, .imm slot _ => { s with slots := Function.update s.slots slot (s.regs n.in0) }
  | .restore, .imm slot _ => { s with regs := Function.update s.regs n.in0 (s.slots slot) }
  | _, _ => other n s

/-- The instructions of a block, one behind the other. -/
def execInsns (s : Frame V) (insns : List Insn) : Frame V := insns.foldl (execInsn other) s

private theorem execInsns_append (s : Frame V) (first second : List Insn) :
    execInsns other s (first ++ second) = execInsns other (execInsns other s first) second :=
  List.foldl_append

variable {other}

/-- Other instructions leave the slots alone, if nothing else writes to the frame. -/
theorem slots_execInsns (leaves : ∀ n s, (other n s).slots = s.slots) {insns : List Insn}
    (plain : ∀ n ∈ insns, n.type.savesReg = false) (s : Frame V) :
    (execInsns other s insns).slots = s.slots := by
  induction insns generalizing s with
  | nil => rfl
  | cons n rest ih =>
    rw [List.forall_mem_cons] at plain
    have kept : (execInsn other s n).slots = s.slots := by
      unfold execInsn
      split
      · rename_i type _
        rw [type] at plain
        cases plain.1
      · rfl
      · exact leaves n s
    exact (ih plain.2 _).trans kept

/-- The SAVEs copy each register into its slot and change nothing else. -/
theorem execInsns_saves (s : Frame V) (counter : Nat) (regs : List Val) :
    (execInsns other s (saves counter regs)).regs = s.regs ∧
      (∀ slot : Nat, slot < counter →
        (execInsns other s (saves counter regs)).slots slot = s.slots slot) ∧
      ∀ r slot, (r, slot) ∈ regs.zipIdx counter →
        (execInsns other s (saves counter regs)).slots slot = s.regs r := by
  induction regs generalizing s counter with
  | nil => exact ⟨rfl, fun _ _ => rfl, by simp⟩
  | cons r rest ih =>
    obtain ⟨kept, below, copied⟩ := ih (execInsn other s (saveInsn r counter)) (counter + 1)
    rw [saves_cons]
    refine ⟨kept, fun slot less => (below slot (by omega)).trans ?_, fun q slot member => ?_⟩
    · exact Function.update_of_ne (by simp; omega) _ _
    · rw [List.zipIdx_cons] at member
      rcases List.mem_cons.mp member with same | later
      · obtain ⟨rfl, rfl⟩ := Prod.mk.inj same
        exact (below slot (by omega)).trans (Function.update_self _ _ _)
      · exact copied q slot later

/-- The RESTOREs give each register a value that all its slots hold. -/
theorem execInsns_restores {value : Val → V} {entries : List (Val × Nat)} {s : Frame V}
    (held : ∀ r slot, (r, slot) ∈ entries → s.slots slot = value r) {r : Val}
    (listed : s.regs r = value r ∨ ∃ slot, (r, slot) ∈ entries) :
    (execInsns other s (entries.map fun p => restoreInsn p.1 p.2)).regs r = value r := by
  induction entries generalizing s with
  | nil =>
    rcases listed with done | ⟨_, none⟩
    · exact done
    · cases none
  | cons p rest ih =>
    obtain ⟨q, slot⟩ := p
    have first : s.slots slot = value q := held q slot List.mem_cons_self
    refine ih (s := execInsn other s (restoreInsn q slot))
      (fun r' slot' member => held r' slot' (List.mem_cons_of_mem _ member)) ?_
    have written : (execInsn other s (restoreInsn q slot)).regs =
      Function.update s.regs q (s.slots slot) := rfl
    rw [written]
    by_cases same : r = q
    · subst r
      rw [Function.update_self]
      exact Or.inl first
    · rw [Function.update_of_ne same]
      rcases listed with done | ⟨slot', member⟩
      · exact Or.inl done
      · rcases List.mem_cons.mp member with here | later
        · exact absurd (Prod.mk.inj here).1 same
        · exact Or.inr ⟨slot', later⟩

end Frame

/-- `do_rewrites` rewrites the instructions one by one. -/
theorem doRewrites_insns {b b' : Blk} {rmap : List Val} (rewritten : doRewrites b rmap = .ok b') :
    List.Forall₂ (fun n n' => rewriteInsn rmap n = .ok n') b.insns b'.insns := by
  simp only [doRewrites, Result.bind_eq_ok, Result.pure_eq, Except.ok.injEq] at rewritten
  obtain ⟨_, _, insns, mapped, _, _, _, _, _, _, _, _, rfl⟩ := rewritten
  exact Result.mapM_eq_ok.mp mapped

/-- Whenever the loop of `regalloc` visits a block, the rules are within `tr_map`. -/
theorem Visits.rulesIn {a : Allocation} {blks : List Blk} {b b' : Blk} {c : Collected}
    {r : Assignment} (visits : Visits a blks b c r b') (rules : a.RulesIn)
    (before : ∀ b ∈ blks, BeforeAlloc b) :
    ∃ now, now.RulesIn ∧ Allocates now b c r b' := by
  induction visits with
  | here allocates => exact ⟨_, rules, allocates⟩
  | later first _ ih =>
    rw [List.forall_mem_cons] at before
    exact ih (allocBlk_rulesIn before.1 rules first) before.2

/-- A register that is saved across the call at `pos`: it holds a temporary that lives across
the call, and no callee saves it. -/
structure SavedAcross (lifetimes : List Lifetime) (rmap : List Val) (pos : Nat) (r : Val) :
    Prop where
  caller : calleeSave r = false
  holds : ∃ t, LivesAcross lifetimes pos t ∧ rewriteTmp rmap (.tmp t) = .ok r

/-- The SAVEs and RESTOREs of a call for the registers `across`, in slots below `bound`. -/
structure PairedSaves (across : Val → Prop) (bound : Nat) (saving restoring : List Insn) :
    Prop where
  saves : ∀ n ∈ saving, ∃ r slot, across r ∧ slot < bound ∧ n = saveInsn r slot
  restores : ∀ n ∈ restoring, ∃ r slot, saveInsn r slot ∈ saving ∧ n = restoreInsn r slot
  each : ∀ r, across r → ∃ slot, saveInsn r slot ∈ saving ∧ restoreInsn r slot ∈ restoring
  distinct : saving.Pairwise fun n m => n.in1 ≠ m.in1

private theorem exists_slot {regs : List Val} {r : Val} (member : r ∈ regs) :
    ∃ slot, (r, slot) ∈ regs.zipIdx 0 := by
  obtain ⟨slot, inside, rfl⟩ := List.mem_iff_getElem.mp member
  exact ⟨slot, List.mk_mem_zipIdx_iff_getElem?.mpr (List.getElem?_eq_getElem inside)⟩

/-- Pairs for a list of registers. -/
theorem pairedSaves {across : Val → Prop} {regs : List Val} (all : ∀ r, across r ↔ r ∈ regs) :
    PairedSaves across regs.length (saves 0 regs) (restores 0 regs) := by
  exact {
    saves := by
      intro n member
      obtain ⟨r, slot, entry, rfl⟩ := mem_saves.mp member
      have found := List.mk_mem_zipIdx_iff_getElem?.mp entry
      exact ⟨r, slot, (all r).mpr (List.mem_of_getElem? found),
        (List.getElem?_eq_some_iff.mp found).1, rfl⟩
    restores := by
      intro n member
      obtain ⟨r, slot, entry, rfl⟩ := mem_restores.mp member
      exact ⟨r, slot, mem_saves.mpr ⟨r, slot, entry, rfl⟩, rfl⟩
    each := by
      intro r listed
      obtain ⟨slot, entry⟩ := exists_slot ((all r).mp listed)
      exact ⟨slot, mem_saves.mpr ⟨r, slot, entry, rfl⟩, mem_restores.mpr ⟨r, slot, entry, rfl⟩⟩
    distinct := saves_distinct 0 regs }

/-- The registers are kept, whatever the instructions in between do to them. -/
theorem restores_keeps {V : Type} {other : Insn → Frame V → Frame V} {regs : List Val}
    {between : List Insn} (leaves : ∀ n s, (other n s).slots = s.slots)
    (plain : ∀ n ∈ between, n.type.savesReg = false) (s : Frame V) {r : Val} (listed : r ∈ regs) :
    (execInsns other s (saves 0 regs ++ between ++ restores 0 regs)).regs r =
      (execInsns other s (saves 0 regs)).regs r := by
  obtain ⟨kept, _, copied⟩ : (execInsns other s (saves 0 regs)).regs = s.regs ∧ _ :=
    execInsns_saves s 0 regs
  obtain ⟨slot, entry⟩ := exists_slot listed
  rw [execInsns_append, execInsns_append, kept, restores, ← List.map_reverse]
  have held : ∀ q slot', (q, slot') ∈ (regs.zipIdx 0).reverse →
      (execInsns other (execInsns other s (saves 0 regs)) between).slots slot' = s.regs q := by
    intro q slot' member
    rw [slots_execInsns leaves plain]
    exact copied q slot' (List.mem_reverse.mp member)
  exact execInsns_restores held (Or.inr ⟨slot, List.mem_reverse.mpr entry⟩)

/-- What `do_call_saves` makes of a block with a call, where the registers `across` live across
the call. Behind the last RESTORE each of them holds what it held in front of the set-up, whatever
the other instructions do to the registers. -/
structure SavesCall (across : Val → Prop) (before setup : List Insn) (call : Insn)
    (results after : List Insn) (saved : Saving) (saving restoring : List Insn) : Prop
    extends PairedSaves across saved.maxCounter saving restoring where
  insns : saved.b.insns = before ++ saving ++ setup ++ call :: results ++ restoring ++ after
  keeps : ∀ (V : Type) (other : Insn → Frame V → Frame V) (s : Frame V),
    (∀ n s, (other n s).slots = s.slots) → ∀ r, across r →
      (execInsns other s (before ++ saving ++ setup ++ call :: results ++ restoring)).regs r =
        (execInsns other s (before ++ saving)).regs r

/-- Without the SAVEs and RESTOREs a block is what it was. -/
theorem erase_saves {before setup results after : List Insn} {call : Insn} (regs : List Val)
    (plain : ∀ n ∈ before ++ setup ++ call :: results ++ after, n.type.savesReg = false) :
    (before ++ saves 0 regs ++ setup ++ call :: results ++ restores 0 regs ++ after).filter
      (fun n => !n.type.savesReg) = before ++ setup ++ call :: results ++ after := by
  have saving : (saves 0 regs).filter (fun n => !n.type.savesReg) = [] := by
    rw [List.filter_eq_nil_iff]
    intro n member
    obtain ⟨r, slot, _, rfl⟩ := mem_saves.mp member
    simp [saveInsn, insnCreate, InsnType.savesReg]
  have restoring : (restores 0 regs).filter (fun n => !n.type.savesReg) = [] := by
    rw [List.filter_eq_nil_iff]
    intro n member
    obtain ⟨r, slot, _, rfl⟩ := mem_restores.mp member
    simp [restoreInsn, insnCreate, InsnType.savesReg]
  have others : (before ++ setup ++ call :: results ++ after).filter
      (fun n => !n.type.savesReg) = before ++ setup ++ call :: results ++ after := by
    rw [List.filter_eq_self]
    exact fun n member => by rw [plain n member]; rfl
  rw [← others]
  simp only [List.filter_append, saving, restoring, List.append_nil]

/-- What `do_call_saves` makes of the block `b`, which calls at most once: it inserts SAVEs and
RESTOREs for what lives across the call, and nothing else. -/
structure SavesLive (lifetimes : List Lifetime) (rmap : List Val) (b : Blk) (saved : Saving) :
    Prop where
  insns : saved.b = { b with insns := saved.b.insns }
  erased : saved.b.insns.filter (fun n => !n.type.savesReg) = b.insns
  once : (b.insns.filter (·.type = .call)).length ≤ 1
  without : (∀ n ∈ b.insns, n.type ≠ .call) → saved = { b }
  call : ∀ before setup call results after, call.type = .call →
    Around b.insns before setup call results after → ∃ saving restoring,
      SavesCall (SavedAcross lifetimes rmap (before.length + setup.length + 1))
        before setup call results after saved saving restoring

/-- A block with a call. -/
theorem doCallSaves_around {lifetimes : List Lifetime} {defs : List Nat} {last : Nat}
    {rmap : List Val} {b : Blk} {before setup results after : List Insn} {call : Insn}
    (recorded : Recorded lifetimes defs last) (rules : RulesIn rmap) (calls : OneCall b.insns)
    (plain : ∀ n ∈ b.insns, n.type.savesReg = false) (type : call.type = .call)
    (around : Around b.insns before setup call results after) :
    ∃ saved, doCallSaves b lifetimes rmap (callPositions b.insns 1) = .ok saved ∧
      saved.b = { b with insns := saved.b.insns } ∧
      saved.b.insns.filter (fun n => !n.type.savesReg) = b.insns ∧ ∃ saving restoring,
        SavesCall (SavedAcross lifetimes rmap (before.length + setup.length + 1))
          before setup call results after saved saving restoring := by
  obtain ⟨reserved, built, lives⟩ := recorded.reserved rmap (before.length + setup.length + 1)
  have isReg : ∀ q ∈ reserved, q.isReg := by
    intro q listed
    obtain ⟨_, _, rewritten⟩ := (lives q).mp listed
    obtain ⟨_, _, rfl⟩ := rules.rewriteTmp rewritten
    rfl
  have across (q : Val) : SavedAcross lifetimes rmap (before.length + setup.length + 1) q ↔
      q ∈ callerSaved reserved := by
    rw [mem_callerSaved, lives]
    exact ⟨fun saved => ⟨saved.holds, saved.caller⟩, fun both => ⟨both.2, both.1⟩⟩
  have parts := around.split ▸ plain
  refine ⟨_, doCallSaves_eq calls around type rfl built isReg, rfl, ?_,
    saves 0 (callerSaved reserved), restores 0 (callerSaved reserved),
    pairedSaves across, rfl, fun V other s leaves q listed => ?_⟩
  · rw [around.split]
    exact erase_saves _ parts
  · have same : before ++ saves 0 (callerSaved reserved) ++ setup ++ call :: results ++
        restores 0 (callerSaved reserved) = before ++ (saves 0 (callerSaved reserved) ++
          (setup ++ call :: results) ++ restores 0 (callerSaved reserved)) := by simp
    rw [same, execInsns_append other s before, execInsns_append other s before]
    refine restores_keeps leaves (fun n inside => parts n ?_) _ ((across q).mp listed)
    rw [List.append_assoc before, List.mem_append, List.mem_append]
    exact Or.inl (Or.inr inside)

/-- In a block that is rewritten by the rules in force, `do_call_saves` does not stop. -/
theorem Allocates.savesLive {k : Fn} {n : Nat} {now : Allocation} {b b' : Blk} {c : Collected}
    {r : Assignment} (allocates : Allocates now b c r b') (input : AllocInput k n)
    (rules : now.RulesIn) (member : b ∈ k.blks) :
    ∃ saved, doCallSaves b' c.lifetimes r.rmap c.calls = .ok saved ∧
      SavesLive c.lifetimes r.rmap b' saved := by
  obtain ⟨_, rulesIn⟩ := allocates.rulesIn rules (input.before b member)
  obtain ⟨c', collected, recorded⟩ := collectLifetimes_recorded now.hints now.rmap
    (input.uses b member) (input.increasing b member) (input.before b member)
  obtain rfl : c' = c := Except.ok.inj (collected.symm.trans allocates.collected)
  have insns := doRewrites_insns allocates.rewritten
  have calls := (input.calls b member).rewritten insns
  have plain : ∀ n ∈ b'.insns, n.type.savesReg = false := by
    intro n' inside
    obtain ⟨n₀, listed, head⟩ := Lists.mem_of_forall₂ insns inside
    rw [(rewriteInsn_same head).1]
    exact ((input.before b member).insns n₀ listed).type
  rw [collectLifetimes_calls collected, ← callPositions_rewritten insns]
  by_cases none : ∀ n ∈ b'.insns, n.type ≠ .call
  · rw [callPositions_eq_nil none]
    refine ⟨{ b := b' }, rfl, rfl, ?_, calls.once, fun _ => rfl, ?_⟩
    · rw [List.filter_eq_self]
      exact fun n inside => by rw [plain n inside]; rfl
    · intro before setup call results after type around
      exact absurd type (none call (by simp [around.split]))
  · obtain ⟨call, inside, type⟩ : ∃ n ∈ b'.insns, n.type = .call := by
      simpa using none
    obtain ⟨front, behind, split⟩ := List.mem_iff_append.mp inside
    obtain ⟨before, setup, results, after, rfl, rfl, around⟩ := exists_around split
    obtain ⟨saved, saves, keeps, erased, _⟩ :=
      doCallSaves_around recorded rulesIn calls plain type around
    refine ⟨saved, saves, keeps, erased, calls.once, fun absent => absurd absent none, ?_⟩
    intro before setup call results after type around
    obtain ⟨saved', saves', _, _, paired⟩ :=
      doCallSaves_around recorded rulesIn calls plain type around
    obtain rfl : saved' = saved := Except.ok.inj (saves'.symm.trans saves)
    exact paired

/-- Values that live across a call survive it. In every block that `regalloc` visits, it can
save what lives across the call, and what it inserts is all that changes: a SAVE in front of the
set-up of the call and a RESTORE from the same slot behind its results, for exactly the registers
that live across the call and that no callee saves. -/
theorem doCallSaves_keeps {f g h k : Fn} {n : Nat} (built : Frontend.ParserBuilt f)
    (corrected : Corrected f g) (converted : ssa g = .ok (h, n)) (merged : abi0 h = .ok k)
    {b b' : Blk} {c : Collected} {r : Assignment}
    (visits : Visits (.start k) k.blks b c r b') :
    ∃ saved, doCallSaves b' c.lifetimes r.rmap c.calls = .ok saved ∧
      SavesLive c.lifetimes r.rmap b' saved := by
  have input := Abi.abi0_input built corrected converted merged
  obtain ⟨_, rules, allocates⟩ := visits.rulesIn ⟨.nil, .nil⟩ input.before
  exact allocates.savesLive input rules visits.allocates.1

/-- In `passedSecond` the register of `x` is saved. -/
theorem doCallSaves_keeps_passedSecond :
    ∃ f g h n k b c r b', Frontend.buildFunction 0 passedSecond = .ok f ∧ Corrected f g ∧
      ssa g = .ok (h, n) ∧ abi0 h = .ok k ∧ Visits (.start k) k.blks b c r b' ∧
        ∃ saved, doCallSaves b' c.lifetimes r.rmap c.calls = .ok saved ∧ saved.maxCounter = 1 ∧
          SavesLive c.lifetimes r.rmap b' saved := by
  have ran : ∃ f g ri h n k, Frontend.buildFunction 0 passedSecond = .ok f ∧
      correct 20 f f.ntmp = .ok (g, ri) ∧ ssa { g with ntmp := ri } = .ok (h, n) ∧
        abi0 h = .ok k ∧
        ∃ b rest c r b', k.blks = b :: rest ∧ collectLifetimes b [] [] = .ok c ∧
          buildRmap c.hints c.lifetimes c.rmap = .ok r ∧ doRewrites b r.rmap = .ok b' ∧
            ∃ saved, doCallSaves b' c.lifetimes r.rmap c.calls = .ok saved ∧
              saved.maxCounter = 1 :=
    ⟨_, _, _, _, _, _, by rfl, by rfl, by rfl, by rfl,
      _, _, _, _, _, by rfl, by rfl, by rfl, by rfl, _, by rfl, by rfl⟩
  obtain ⟨f, g, ri, h, n, k, parsed, corrected, converted, merged, b, rest, c, r, b', blks,
    collected, assigned, rewritten, saved, saves, counter⟩ := ran
  have corrected : Corrected f { g with ntmp := ri } := ⟨20, g, ri, corrected, rfl⟩
  have visits : Visits (.start k) k.blks b c r b' := by
    rw [blks]
    exact .here ⟨collected, assigned, rewritten⟩
  obtain ⟨saved', saves', live⟩ :=
    doCallSaves_keeps ⟨0, _, parsed⟩ corrected converted merged visits
  obtain rfl : saved' = saved := Except.ok.inj (saves'.symm.trans saves)
  exact ⟨f, _, h, n, k, b, c, r, b', parsed, corrected, converted, merged, visits, saved', saves,
    counter, live⟩

end Qbt.Regalloc
