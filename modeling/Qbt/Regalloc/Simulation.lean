import Qbt.Regalloc.Execution
import Qbt.Regalloc.LiveRanges
import Qbt.Regalloc.Separation
import Qbt.Regalloc.Total

/-!
# Allocation keeps the meaning

Where the operands of every block are separated, a function with its temporaries in registers
computes what it computed before, whatever callees leave in the registers they do not keep.
-/

namespace Qbt.Regalloc

open Abi Interference

/-- What `regalloc` makes of a block, by the rules it has in the end: temporaries are replaced, and
what lives across the call is saved. -/
structure AllocatedTo (rmap : List Val) (b : Blk) (lifetimes : List Lifetime) (b' : Blk)
    (saved : Saving) : Prop where
  ranges : ExactLifetimes b lifetimes
  rewritten : doRewrites b rmap = .ok b'
  saves : SavesLive lifetimes rmap b' saved
  ruled : ∀ t ∈ b.defs, ruleOf rmap t ≠ .noclass

private theorem savedAcross_congr {lifetimes : List Lifetime} {rmap rmap' : List Val}
    (same : ∀ t, (lifetimeOf lifetimes t).used ≠ 0 → ruleOf rmap' t = ruleOf rmap t) (pos : Nat) :
    SavedAcross lifetimes rmap' pos = SavedAcross lifetimes rmap pos := by
  have rewritten {t : Nat} {r : Val} (lives : LivesAcross lifetimes pos t) :
      rewriteTmp rmap' (.tmp t) = .ok r ↔ rewriteTmp rmap (.tmp t) = .ok r := by
    simp only [rewriteTmp_eq_ok, Val.tmp.injEq, exists_eq_left', same t lives.used]
  funext r
  refine propext ⟨fun ⟨caller, t, lives, held⟩ => ⟨caller, t, lives, (rewritten lives).mp held⟩,
    fun ⟨caller, t, lives, held⟩ => ⟨caller, t, lives, (rewritten lives).mpr held⟩⟩

/-- Later rules do not change what has been done. -/
theorem AllocatedTo.congr {rmap rmap' : List Val} {b b' : Blk} {lifetimes : List Lifetime}
    {saved : Saving} (allocated : AllocatedTo rmap b lifetimes b' saved) (rules : RulesIn rmap)
    (uses : b.UsesDefined) (before : BeforeAlloc b)
    (same : ∀ t ∈ b.defs, ruleOf rmap' t = ruleOf rmap t) :
    AllocatedTo rmap' b lifetimes b' saved := by
  obtain ⟨ρ, image⟩ := rules.exists_image
  have old : doRewrites b rmap = .ok (b.image ρ) :=
    doRewrites_image uses before fun t defined => (image t).2 (allocated.ruled t defined)
  have new : doRewrites b rmap' = .ok (b.image ρ) :=
    doRewrites_image uses before fun t defined => by
      rw [same t defined]
      exact (image t).2 (allocated.ruled t defined)
  have across := savedAcross_congr fun t used => same t ((allocated.ranges.used t).mp used)
  refine ⟨allocated.ranges, by rw [new, ← old, allocated.rewritten], ?_, fun t defined => by
    rw [same t defined]
    exact allocated.ruled t defined⟩
  have saves := allocated.saves
  exact {
    insns := saves.insns
    erased := saves.erased
    once := saves.once
    without := saves.without
    call := by
      simp only [across]
      exact saves.call }

section Functions

variable {k : Fn} {n : Nat} {a a' : Allocation} {blks blks' : List Blk}

/-- What the loop of `regalloc` leaves behind. -/
theorem allocBlks_allocatedTo (input : AllocInput k n) (rules : a.RulesIn)
    (members : ∀ b ∈ blks, b ∈ k.blks) (distinct : (blks.flatMap Blk.defs).Nodup)
    (returned : allocBlks a blks = .ok (a', blks')) :
    List.Forall₂ (fun b b'' => ∃ lifetimes b' saved, AllocatedTo a'.rmap b lifetimes b' saved ∧
      b'' = saved.b) blks blks' := by
  induction blks generalizing a blks' with
  | nil =>
    simp only [allocBlks, Result.pure_eq, Except.ok.injEq, Prod.mk.injEq] at returned
    obtain ⟨rfl, rfl⟩ := returned
    exact .nil
  | cons b rest ih =>
    rw [List.forall_mem_cons] at members
    rw [List.flatMap_cons, List.nodup_append] at distinct
    simp only [allocBlks, Result.bind_eq_ok, Result.pure_eq, Except.ok.injEq, Prod.mk.injEq,
      Prod.exists] at returned
    obtain ⟨next, b'', first, last, rest', others, rfl, rfl⟩ := returned
    have before := input.before b members.1
    have rulesNext := allocBlk_rulesIn before rules first
    obtain ⟨kept, -⟩ := allocBlks_image input rulesNext members.2 distinct.2.1 others
    obtain ⟨ruled, -, -⟩ := allocBlk_image input rules members.1 first
    obtain ⟨c, r, b', saved, allocates, saves, rfl, rfl⟩ := allocBlk_eq_ok.mp first
    obtain ⟨saved', saves', live⟩ := allocates.savesLive input rules members.1
    obtain rfl : saved' = saved := Except.ok.inj (saves'.symm.trans saves)
    have here : AllocatedTo r.rmap b c.lifetimes b' saved' :=
      ⟨allocates.exactLifetimes input members.1, allocates.rewritten, live, ruled⟩
    refine .cons ⟨c.lifetimes, b', saved', here.congr rulesNext.rmap (input.uses b members.1) before
      fun t own => ?_, rfl⟩ (ih rulesNext members.2 distinct.2.1 others)
    exact kept t fun later => distinct.2.2 t own t later rfl

end Functions

section Sections

variable {n : Insn} {insns : List Insn} {flags : Flags} {k : Nat}

private theorem straight_of_leads (leads : Leads n) (saves : n.type.savesReg = false) :
    Straight n := by
  cases leads with
  | fetch inside same =>
    subst same
    exact ⟨by simp [fetchInsn, insnCreate], rfl, fun _ => Or.inl rfl, fun set => by cases set⟩
  | plain other out in0 in1 none =>
    refine ⟨?_, saves, fun touches => ?_, fun set => ?_⟩
    · intro type
      rw [type] at other
      cases other
    · rw [out, in0] at touches
      simp at touches
    · rw [none] at set
      cases set

private theorem straight_of_passes (passes : PassesAt flags k n) : Straight n := by
  obtain ⟨how, in0, moves, noReg, rfl⟩ := passes.same
  refine ⟨?_, ?_, fun _ => moves, fun _ => rfl⟩ <;>
    rcases moves with rfl | rfl <;> simp [passInsn, insnCreate, InsnType.savesReg]

private theorem straight_of_fetches (fetches : FetchesResult n) : Straight n := by
  obtain ⟨t, k, -, rfl⟩ := fetches
  exact ⟨by simp [fetchInsn, insnCreate], rfl, fun _ => Or.inl rfl, fun set => by cases set⟩

/-- Every instruction that passes values passes one. -/
theorem passesAt_of_mem (passes : PassAll flags insns) : ∀ n ∈ insns, ∃ k, PassesAt flags k n := by
  intro n member
  obtain ⟨k, found⟩ := List.mem_iff_getElem?.mp member
  exact ⟨k, passes k n found⟩

/-- What leads sets nothing up. -/
theorem counts_of_leads (leads : ∀ n ∈ insns, Leads n) :
    setups insns = 0 ∧ returnMoves insns = 0 := by
  refine ⟨List.countP_eq_zero.mpr fun n member => ?_,
    List.countP_eq_zero.mpr fun n member => ?_⟩ <;>
    cases leads n member with
    | fetch inside same => subst same; simp [fetchInsn, insnCreate, Val.isReg]
    | plain other out in0 in1 none => simp [none, out]

private theorem counts_of_fetches (fetches : ∀ n ∈ insns, FetchesResult n) :
    setups insns = 0 ∧ returnMoves insns = 0 := by
  refine ⟨List.countP_eq_zero.mpr fun n member => ?_,
    List.countP_eq_zero.mpr fun n member => ?_⟩ <;>
    (obtain ⟨t, k, -, rfl⟩ := fetches n member; simp [fetchInsn, insnCreate, Val.isReg])

private theorem counts_of_args (passes : PassAll { callSetup := true } insns) :
    setups insns = insns.length ∧ returnMoves insns = 0 := by
  refine ⟨List.countP_eq_length.mpr fun n member => ?_,
    List.countP_eq_zero.mpr fun n member => ?_⟩ <;>
    (obtain ⟨k, at'⟩ := passesAt_of_mem passes n member
     obtain ⟨how, in0, -, -, rfl⟩ := at'.same
     simp [passInsn])

private theorem counts_of_values (passes : PassAll {} insns) :
    setups insns = 0 ∧ returnMoves insns = insns.length := by
  refine ⟨List.countP_eq_zero.mpr fun n member => ?_,
    List.countP_eq_length.mpr fun n member => ?_⟩ <;>
    (obtain ⟨k, at'⟩ := passesAt_of_mem passes n member
     obtain ⟨how, in0, -, -, rfl⟩ := at'.same
     simp [passInsn, insnCreate, Val.isReg])

/-- The register of an item is written. -/
theorem written_of_passAll (passes : PassAll flags insns) {k : Nat} (inside : k < insns.length) :
    k < 24 ∧ ∃ n ∈ insns, n.out = .reg (ra k) := by
  have at' := passes k _ (List.getElem?_eq_getElem inside)
  obtain ⟨how, in0, -, -, same⟩ := at'.same
  exact ⟨at'.inside, _, List.getElem_mem inside, by rw [same]; rfl⟩

end Sections

section Block

variable {W M : Type} {S : Semantics W M} {call : Callee W M} {clobber : Clobber W M}
  {rmap : List Val} {b b' : Blk} {lifetimes : List Lifetime} {saved : Saving}

/-- What is used at the end of a block are temporaries. -/
theorem isTmp_of_usedAtEnd (before : BeforeAlloc b)
    (cmps : b.cmp0.isReg = false ∧ b.cmp1.isReg = false) {v : Val} (used : v ∈ b.usedAtEnd) :
    v.isTmp := by
  obtain ⟨place, rfl | rfl | arg | arg⟩ := used
  · exact place.resolve_right (by simp [cmps.1])
  · exact place.resolve_right (by simp [cmps.2])
  · exact before.args1 v arg
  · exact before.args2 v arg

/-- Both readings at the end of a block: what is used there is in the registers, and so are the
values of a return. -/
structure AtEnd (S : Semantics W M) (rmap : List Val) (b : Blk) (s : RegState W M)
    (s' : FrameState W M) : Prop where
  holds : Holds S rmap b.usedAtEnd s.core s'.state
  passed : s.passed = 0
  passed' : s'.passed = 0
  stays : b.btype ≠ .ret → s.returned = 0
  returns : ∀ k < s.returned, s'.state.reg (ra k) = s.core.reg (ra k)

theorem Holds.mono {live live' : Set Val} {state state' : State W M}
    (holds : Holds S rmap live state state') (subset : live' ⊆ live) :
    Holds S rmap live' state state' :=
  ⟨holds.world, fun v member => holds.values v (subset member)⟩

/-- The instructions of a block, with its reading in front of allocation and behind it. -/
structure Performed (S : Semantics W M) (call : Callee W M) (clobber : Clobber W M)
    (rmap : List Val) (b b'' : Blk) (s : RegState W M) (s' : FrameState W M) : Prop where
  events : ((frameInterp S call clobber).perform b''.insns s').1 =
    ((registerInterp S call).perform b.insns s).1.filter CallEvent.seen
  ends : AtEnd S rmap b ((registerInterp S call).perform b.insns s).2
    ((frameInterp S call clobber).perform b''.insns s').2

/-- A block without a call and its sections. -/
structure PlainParts (b : Blk) (front values : List Insn) : Prop where
  split : b.insns = front ++ values
  leads : ∀ n ∈ front, Leads n
  passes : PassAll {} values
  returns : values ≠ [] → b.btype = .ret

section PlainParts

variable {front values : List Insn} (parts : PlainParts b front values)
include parts

/-- A block without a call runs straight through. -/
theorem PlainParts.straight (before : BeforeAlloc b) : ∀ n ∈ b.insns, Straight n := by
  intro n member
  have saves := (before.insns n member).type
  rw [parts.split] at member
  rcases List.mem_append.mp member with lead | value
  · exact straight_of_leads (parts.leads n lead) saves
  · obtain ⟨k, at'⟩ := passesAt_of_mem parts.passes n value
    exact straight_of_passes at'

/-- A block without a call sets nothing up and moves its return values. -/
theorem PlainParts.counts : setups b.insns = 0 ∧ returnMoves b.insns = values.length := by
  have first := counts_of_leads parts.leads
  have last := counts_of_values parts.passes
  rw [setups, returnMoves] at first last
  rw [setups, returnMoves, parts.split, List.countP_append, List.countP_append]
  exact ⟨by omega, by omega⟩

private theorem PlainParts.unset : ∀ n ∈ b.insns, n.flags.callSetup = false := by
  have none := List.countP_eq_zero.mp parts.counts.1
  exact fun n member => by simpa using none n member

/-- A block without a call is all in front of the set-up. -/
theorem PlainParts.eq (before : BeforeAlloc b) :
    beforeSetup b.insns = b.insns ∧ setupOf b.insns = [] ∧ behindCall b.insns = [] :=
  parts_plain (fun n member => (parts.straight before n member).call) parts.unset

end PlainParts

variable (call clobber) in
/-- A block without a call. -/
theorem performed_plain (lawful : S.Lawful) (rules : RulesIn rmap) (before : BeforeAlloc b)
    (cmps : b.cmp0.isReg = false ∧ b.cmp1.isReg = false)
    (separated : Separated (registerOf rmap) b)
    (allocated : AllocatedTo rmap b lifetimes b' saved) {front values : List Insn}
    (parts : PlainParts b front values) {s : RegState W M} {s' : FrameState W M}
    (passed : s.passed = 0) (returned : s.returned = 0) (passed' : s'.passed = 0)
    (holds : Holds S rmap (atEntry b) s.core s'.state) :
    Performed S call clobber rmap b saved.b s s' := by
  have straight := parts.straight before
  have counts := parts.counts
  have noCall : ∀ n ∈ b.insns, n.type ≠ .call := fun n member => (straight n member).call
  have unset := parts.unset
  obtain ⟨whole, noSetup, nothing⟩ := parts.eq before
  have insns := doRewrites_insns allocated.rewritten
  have noCall' : ∀ n ∈ b'.insns, n.type ≠ .call := by
    intro n' member
    obtain ⟨n, listed, head⟩ := Lists.mem_of_forall₂ insns member
    rw [(rewriteInsn_same head).1]
    exact noCall n listed
  have noSaves : ∀ n ∈ b'.insns, n.type.savesReg = false := by
    intro n' member
    obtain ⟨n, listed, head⟩ := Lists.mem_of_forall₂ insns member
    rw [(rewriteInsn_same head).1]
    exact (straight n listed).saves
  obtain rfl : saved = { b := b' } := allocated.saves.without noCall'
  have start : Holds S rmap (live (b.insns.map Insn.line) (atSetup b)) s.core s'.state := by
    have same := holds
    rwa [atEntry, whole] at same
  have coloured : Coloured (registerOf rmap) (b.insns.map Insn.line) (atSetup b) := by
    have same := separated.front
    rwa [whole] at same
  have done := start.run lawful rules coloured insns
  have performed := perform_reg (S := S) call straight s
  have performed' := perform_frame (S := S) call clobber noCall' noSaves s'
  have setups' : setups b'.insns = 0 := by
    rw [setups, List.countP_eq_zero]
    intro n' member
    obtain ⟨n, listed, head⟩ := Lists.mem_of_forall₂ insns member
    rw [(rewriteInsn_same head).2, unset n listed]
    simp
  have used : b.usedAtEnd ⊆ atSetup b := fun v member => Or.inr
    ⟨isTmp_of_usedAtEnd before cmps member, by rw [nothing]; exact member⟩
  have shown := start.events call clobber lawful rules coloured straight
    insns s.passed s.returned s'.passed s'.slots
  refine ⟨shown, ?_⟩
  rw [performed, performed']
  exact {
    holds := done.mono used
    passed := by rw [passed, counts.1]
    passed' := by rw [passed', setups']
    stays := fun stays => by
      have none : values = [] := by
        by_contra nonempty
        exact stays (parts.returns nonempty)
      rw [returned, counts.2, none]
      rfl
    returns := by
      intro k inside
      rw [returned, counts.2, Nat.zero_add] at inside
      obtain ⟨_, n, member, out⟩ := written_of_passAll parts.passes inside
      refine done.values (.reg (ra k)) (Or.inl ?_)
      rw [noSetup]
      refine Or.inr ⟨rfl, n, ?_, out⟩
      rw [untilCall, List.takeWhile_eq_self_iff.mpr fun n member => by simpa using noCall n member,
        parts.split]
      exact List.mem_append_right _ member }

/-- A block with a call and its sections. -/
structure CallParts (b : Blk) (front args : List Insn) (called : Insn) (results : List Insn) :
    Prop where
  split : b.insns = front ++ args ++ called :: results
  leads : ∀ n ∈ front, Leads n
  passes : PassAll { callSetup := true } args
  calls : Calls called
  fetches : ∀ n ∈ results, FetchesResult n

section CallParts

variable {front args results : List Insn} {called : Insn}
  (parts : CallParts b front args called results)
include parts

/-- What is around a call runs straight through. -/
theorem CallParts.straight (before : BeforeAlloc b) :
    (∀ n ∈ front, Straight n) ∧ (∀ n ∈ args, Straight n) ∧ ∀ n ∈ results, Straight n := by
  refine ⟨fun n member => straight_of_leads (parts.leads n member) ?_, fun n member => ?_,
    fun n member => straight_of_fetches (parts.fetches n member)⟩
  · exact (before.insns n (by simp [parts.split, member])).type
  · obtain ⟨k, at'⟩ := passesAt_of_mem parts.passes n member
    exact straight_of_passes at'

/-- The sections of a block with a call. -/
theorem CallParts.eq (before : BeforeAlloc b) :
    beforeSetup b.insns = front ∧ setupOf b.insns = args ∧ behindCall b.insns = results ∧
      untilCall b.insns = front ++ args ∧ callOf b.insns = some called := by
  obtain ⟨fronts, sets, -⟩ := parts.straight before
  rw [parts.split]
  refine parts_call ?_ parts.calls.type ?_ ?_
  · exact List.forall_mem_append.mpr
      ⟨fun n member => (fronts n member).call, fun n member => (sets n member).call⟩
  · have all := List.countP_eq_length.mp (counts_of_args parts.passes).1
    exact all
  · have none := List.countP_eq_zero.mp (counts_of_leads parts.leads).1
    exact fun n member => by simpa using none n member

/-- What fetches a result reads an argument register. -/
theorem CallParts.read {v : Val} {n : Insn} (member : n ∈ results) (read : v ∈ n.line.reads) :
    ∃ k < 24, v = .reg (ra k) := by
  obtain ⟨t, k, inside, rfl⟩ := parts.fetches n member
  obtain ⟨place, rfl | rfl⟩ := read
  · exact ⟨k, inside, rfl⟩
  · rcases place with isTmp | isReg
    · cases isTmp
    · cases isReg

/-- What is needed across the call is used at the end and is no result. -/
theorem CallParts.across (before : BeforeAlloc b) {v : Val} (across : v ∈ acrossCall b) :
    v ∈ b.usedAtEnd ∧ ∀ n ∈ results, n.out ≠ v := by
  obtain ⟨isTmp, needed⟩ := across
  rw [(parts.eq before).2.2.1] at needed
  have place : v.IsPlace := Or.inl isTmp
  rcases not_written_of_live needed with ⟨first, l, rest, same, read, -⟩ | ⟨used, unwritten⟩
  · have listed : l ∈ results.map Insn.line := by rw [same]; simp
    obtain ⟨n, member, rfl⟩ := List.mem_map.mp listed
    obtain ⟨k, -, rfl⟩ := parts.read member read
    cases isTmp
  · exact ⟨used, fun n member same => unwritten _ (List.mem_map_of_mem member)
      (Insn.line_write.mpr ⟨same, place⟩)⟩

/-- What is needed across the call lives across it. -/
theorem CallParts.across_iff (before : BeforeAlloc b) (uses : b.UsesDefined)
    (distinct : b.defs.Nodup) (ranges : ExactLifetimes b lifetimes) {t : Nat} :
    LivesAcross lifetimes (front.length + args.length + 1) t ↔ .tmp t ∈ acrossCall b := by
  rw [← List.length_append, ranges.across _ _ _ parts.split]
  constructor
  · rintro ⟨defined, behind⟩
    have used : .tmp t ∈ b.usedAtEnd := by
      rcases behind with ((⟨n, member, read⟩ | compared) | arg) | arg
      · obtain ⟨u, k, -, rfl⟩ := parts.fetches n member
        rcases read with here | here <;> cases here
      · exact ⟨Or.inl rfl, compared.imp Eq.symm fun second => Or.inl second.symm⟩
      · exact ⟨Or.inl rfl, Or.inr (Or.inr (Or.inl arg))⟩
      · exact ⟨Or.inl rfl, Or.inr (Or.inr (Or.inr arg))⟩
    refine ⟨rfl, ?_⟩
    rw [(parts.eq before).2.2.1]
    refine live_of_unwritten used fun l listed written => ?_
    obtain ⟨n, member, rfl⟩ := List.mem_map.mp listed
    obtain ⟨out, -⟩ := Insn.line_write.mp written
    -- Nothing is defined twice.
    rw [Blk.defs, parts.split, List.filterMap_append, ← List.append_assoc] at distinct
    refine (List.nodup_append.mp distinct).2.2 t ?_ t
      (List.mem_filterMap.mpr ⟨n, List.mem_cons_of_mem _ member, by rw [out]; rfl⟩) rfl
    rw [List.mem_append]
    exact defined.imp mem_numbers.mpr mem_outNumbers.mpr
  · intro across
    obtain ⟨used, unwritten⟩ := parts.across before across
    obtain ⟨place, used⟩ := used
    have compared : t ∈ b.usedBehind results := by
      rcases used with first | second | arg | arg
      · exact Or.inl (Or.inl (Or.inr (Or.inl first.symm)))
      · exact Or.inl (Or.inl (Or.inr (Or.inr second.symm)))
      · exact Or.inl (Or.inr arg)
      · exact Or.inr arg
    have defined : t ∈ tempsOf b.params ∪ b.defined := by
      rcases used with first | second | arg | arg
      · exact uses.compared (Or.inl first.symm)
      · exact uses.compared (Or.inr second.symm)
      · exact uses.args1 arg
      · exact uses.args2 arg
    refine ⟨defined.imp_right fun earlier => ?_, compared⟩
    obtain ⟨n, member, written⟩ := earlier
    rw [parts.split, List.mem_append] at member
    rcases member with front | behind
    · exact ⟨n, front, written⟩
    · have written : n.out = .tmp t := written
      rcases List.mem_cons.mp behind with rfl | result
      · rw [parts.calls.out] at written
        cases written
      · exact absurd written (unwritten n result)

/-- What is used at the end of a block and is in its register right behind the call. -/
def inRegisters (rmap : List Val) (b : Blk) : Set Val :=
  { v ∈ b.usedAtEnd | v ∈ acrossCall b → calleeSave (registerOf rmap v) }

/-- Right behind the call the results and what the callee keeps are in their registers. -/
theorem CallParts.behind (before : BeforeAlloc b)
    (cmps : b.cmp0.isReg = false ∧ b.cmp1.isReg = false) {core₁ core₁' core₂ core₂' : State W M}
    (holds : ∀ v ∈ acrossCall b, S.value core₁' (registerOf rmap v) = S.value core₁ v)
    (temps : core₂.tmp = core₁.tmp) (kept : ∀ r ∈ rsMap, core₂'.reg r = core₁'.reg r)
    (values clobbered : Nat → W) (world : M) :
    Holds S rmap (live (results.map Insn.line) (inRegisters rmap b))
      { core₂ with world, reg := afterCall values core₂.reg }
      { core₂' with world, reg := behindCallee values clobbered core₂'.reg } := by
  refine ⟨rfl, fun v needed => ?_⟩
  rcases not_written_of_live needed with ⟨first, l, rest, same, read, -⟩ | ⟨used, unwritten⟩
  · have listed : l ∈ results.map Insn.line := by rw [same]; simp
    obtain ⟨n, member, rfl⟩ := List.mem_map.mp listed
    obtain ⟨k, inside, rfl⟩ := parts.read member read
    exact (behindCallee_ra values clobbered core₂'.reg inside).trans
      (afterCall_ra values core₂.reg inside).symm
  · obtain ⟨used, callee⟩ := used
    have isTmp := isTmp_of_usedAtEnd before cmps used
    have across : v ∈ acrossCall b := by
      refine ⟨isTmp, ?_⟩
      rw [(parts.eq before).2.2.1]
      exact live_of_unwritten used unwritten
    have callee := callee across
    have same := holds v across
    cases register : registerOf rmap v with
    | reg r =>
      rw [register] at same callee
      have inside : r ∈ rsMap := of_decide_eq_true callee
      obtain ⟨t, rfl⟩ := Val.isTmp_iff.mp isTmp
      rw [S.value_reg, S.value_tmp] at same ⊢
      dsimp only
      rw [behindCallee_kept values clobbered core₂'.reg inside, kept r inside, same, temps]
    | _ => rw [register] at callee; cases callee

/-- The RESTOREs bring back what no callee keeps. -/
theorem CallParts.restored (call : Callee W M) (clobber : Clobber W M) (rules : RulesIn rmap)
    (before : BeforeAlloc b)
    (cmps : b.cmp0.isReg = false ∧ b.cmp1.isReg = false)
    (coloured : Coloured (registerOf rmap) (results.map Insn.line) b.usedAtEnd)
    (lives : ∀ t, LivesAcross lifetimes (front.length + args.length + 1) t ↔
      .tmp t ∈ acrossCall b)
    (ruled : ∀ t, .tmp t ∈ acrossCall b → ruleOf rmap t ≠ .noclass) {bound : Nat}
    {saving restoring : List Insn}
    (paired : PairedSaves (SavedAcross lifetimes rmap (front.length + args.length + 1)) bound
      saving restoring) {core₁ core₁' core₄ : State W M} {s : FrameState W M}
    (holds₁ : ∀ v ∈ acrossCall b, S.value core₁' (registerOf rmap v) = S.value core₁ v)
    (temps : ∀ v ∈ acrossCall b, S.value core₄ v = S.value core₁ v)
    (slots : ∀ r, ∀ slot : Nat, saveInsn r slot ∈ saving → s.slots slot = S.value core₁' r)
    (holds : Holds S rmap (inRegisters rmap b) core₄ s.state) :
    ∃ state, (frameInterp S call clobber).perform restoring s = ([], { s with state }) ∧
      Holds S rmap b.usedAtEnd core₄ state := by
  have across {r : Val} {slot : Nat} (restores : restoreInsn r slot ∈ restoring) :
      saveInsn r slot ∈ saving ∧ calleeSave r = false ∧ r.isReg ∧
        ∃ u, .tmp u ∈ acrossCall b ∧ registerOf rmap (.tmp u) = r := by
    obtain ⟨q, slot', saved, same⟩ := paired.restores _ restores
    have in0 : r = q := congrArg Insn.in0 same
    have in1 := congrArg Insn.in1 same
    simp only [restoreInsn, insnCreate, Val.imm.injEq, Int.natCast_inj, and_true] at in1
    subst in0 in1
    obtain ⟨q, slot', saves, -, same⟩ := paired.saves _ saved
    obtain rfl : r = q := congrArg Insn.in0 same
    obtain ⟨u, livesU, rewritten⟩ := saves.holds
    obtain ⟨k, -, rfl⟩ := rules.rewriteTmp rewritten
    obtain ⟨_, same, rule, -⟩ := rewriteTmp_eq_ok.mp rewritten
    obtain rfl := Val.tmp.inj same
    exact ⟨saved, saves.caller, rfl, u, (lives u).mp livesU, rule⟩
  have each : ∀ n ∈ restoring, ∃ r, ∃ slot : Nat, r.isReg ∧
      s.slots slot = S.value core₁' r ∧ n = restoreInsn r slot := by
    intro n member
    obtain ⟨r, slot, -, rfl⟩ := paired.restores n member
    obtain ⟨saved, -, isReg, -⟩ := across member
    exact ⟨r, slot, isReg, slots r slot saved, rfl⟩
  obtain ⟨state, performed, world, kept, restored⟩ := perform_restores (S := S) call clobber each
  refine ⟨state, performed, world.trans holds.world, fun v used => ?_⟩
  obtain ⟨t, rfl⟩ := Val.isTmp_iff.mp (isTmp_of_usedAtEnd before cmps used)
  by_cases some' : ∃ slot : Nat, restoreInsn (registerOf rmap (.tmp t)) slot ∈ restoring
  · rw [restored _ (Or.inr some')]
    obtain ⟨slot, member⟩ := some'
    obtain ⟨-, -, -, u, acrossU, register⟩ := across member
    by_cases acrossT : .tmp t ∈ acrossCall b
    · rw [holds₁ _ acrossT, temps _ acrossT]
    · -- A result would have been written while the value across the call was needed.
      exfalso
      have needed : ¬ ∀ l ∈ results.map Insn.line, l.write ≠ some (.tmp t) := by
        intro unwritten
        refine acrossT ⟨rfl, ?_⟩
        rw [(parts.eq before).2.2.1]
        exact live_of_unwritten used unwritten
      push Not at needed
      obtain ⟨l, listed, write⟩ := needed
      obtain ⟨first, rest, split⟩ := List.mem_iff_append.mp listed
      obtain ⟨usedU, unwrittenU⟩ := parts.across before acrossU
      have differ : Val.tmp u ≠ .tmp t := fun same => acrossT (same ▸ acrossU)
      refine coloured (.tmp u) (.tmp t) ⟨first, l, rest, split, write, ?_, differ, ?_⟩ register
      · refine live_of_unwritten usedU fun m later written => ?_
        have member : m ∈ results.map Insn.line := by rw [split]; simp [later]
        obtain ⟨n, inside, rfl⟩ := List.mem_map.mp member
        exact unwrittenU n inside (Insn.line_write.mp written).1
      · obtain ⟨n, inside, rfl⟩ := List.mem_map.mp listed
        obtain ⟨_, k, -, rfl⟩ := parts.fetches n inside
        simp [Insn.line, fetchInsn, insnCreate]
  · rw [kept _ fun slot member => some' ⟨slot, member⟩]
    refine holds.values _ ⟨used, fun acrossT => ?_⟩
    by_contra caller
    have saves : SavedAcross lifetimes rmap (front.length + args.length + 1)
        (registerOf rmap (.tmp t)) :=
      ⟨by simpa using caller, t, (lives t).mpr acrossT, rewriteTmp_of_rule (ruled t acrossT)⟩
    obtain ⟨slot, -, member⟩ := paired.each _ saves
    exact some' ⟨slot, member⟩

end CallParts

/-- Replaced straight instructions are straight, too. -/
theorem straight_rewritten {insns insns' : List Insn} (straight : ∀ n ∈ insns, Straight n)
    (rewritten : List.Forall₂ (fun n n' => rewriteInsn rmap n = .ok n') insns insns') :
    (∀ n ∈ insns', n.type ≠ .call) ∧ (∀ n ∈ insns', n.type.savesReg = false) ∧
      setups insns' = setups insns := by
  have same {n n' : Insn} (head : rewriteInsn rmap n = .ok n') := rewriteInsn_same head
  refine ⟨fun n' member => ?_, fun n' member => ?_, ?_⟩
  · obtain ⟨n, listed, head⟩ := Lists.mem_of_forall₂ rewritten member
    rw [(same head).1]
    exact (straight n listed).call
  · obtain ⟨n, listed, head⟩ := Lists.mem_of_forall₂ rewritten member
    rw [(same head).1]
    exact (straight n listed).saves
  · clear straight
    induction rewritten with
    | nil => rfl
    | cons head _ ih =>
      rw [setups, setups] at ih ⊢
      rw [List.countP_cons, List.countP_cons, ih, (same head).2]

variable (call clobber) in
/-- Straight-line code in both readings. -/
theorem performed_straight (lawful : S.Lawful) (rules : RulesIn rmap) {insns insns' : List Insn}
    {out : Set Val} {core core' : State W M}
    (holds : Holds S rmap (live (insns.map Insn.line) out) core core')
    (coloured : Coloured (registerOf rmap) (insns.map Insn.line) out)
    (straight : ∀ n ∈ insns, Straight n)
    (rewritten : List.Forall₂ (fun n n' => rewriteInsn rmap n = .ok n') insns insns') {count : Nat}
    (counts : setups insns = count ∧ returnMoves insns = 0) (slots : Int → W) :
    ∃ events, (registerInterp S call).perform insns ⟨core, 0, 0⟩ =
        (events, ⟨execAll S insns core, count, 0⟩) ∧
      (frameInterp S call clobber).perform insns' ⟨⟨core', slots⟩, 0⟩ =
        (events.filter CallEvent.seen, ⟨⟨execAll S insns' core', slots⟩, count⟩) := by
  obtain ⟨noCall, noSaves, same⟩ := straight_rewritten straight rewritten
  refine ⟨_, Prod.ext rfl ?_, Prod.ext ?_ ?_⟩
  · rw [perform_reg call straight, counts.1, counts.2]
    simp only [Nat.zero_add]
  · exact holds.events call clobber lawful rules coloured straight rewritten 0 0 0 slots
  · rw [perform_frame call clobber noCall noSaves, same, counts.1]
    simp only [Nat.zero_add]

private theorem around_of_forall₂ {front args results front' args' results' : List Insn}
    {called called' : Insn} (parts : CallParts b front args called results) {insns' : List Insn}
    (split' : insns' = front' ++ args' ++ called' :: results')
    (fronts : List.Forall₂ (fun n n' => rewriteInsn rmap n = .ok n') front front')
    (sets : List.Forall₂ (fun n n' => rewriteInsn rmap n = .ok n') args args')
    (fetched : List.Forall₂ (fun n n' => rewriteInsn rmap n = .ok n') results results') :
    Around insns' front' args' called' results' [] := by
  refine ⟨by simp [split'], fun n' member => ?_, fun n' member => ?_, fun n' member => ?_,
    by simp⟩
  · obtain ⟨n, listed, head⟩ := Lists.mem_of_forall₂ sets member
    rw [(rewriteInsn_same head).2]
    exact List.countP_eq_length.mp (counts_of_args parts.passes).1 n listed
  · obtain ⟨n, listed, head⟩ := Lists.mem_of_forall₂ fetched member
    rw [(rewriteInsn_same head).2]
    obtain ⟨_, _, -, rfl⟩ := parts.fetches n listed
    rfl
  · obtain ⟨n, listed, head⟩ := Lists.mem_of_forall₂ fronts (List.mem_of_getLast? member)
    rw [(rewriteInsn_same head).2]
    simpa using List.countP_eq_zero.mp (counts_of_leads parts.leads).1 n listed

private theorem perform_append_of {σ ε : Type} {I : Interp σ ε} {first second : List Insn}
    {events₁ events₂ : List ε} {s s₁ s₂ : σ} (run : I.perform first s = (events₁, s₁))
    (next : I.perform second s₁ = (events₂, s₂)) :
    I.perform (first ++ second) s = (events₁ ++ events₂, s₂) := by
  rw [I.perform_append, run, next]

section Call

variable {front args results : List Insn} {called called' : Insn}

variable (call clobber) in
/-- A call gets what is handed over. -/
theorem CallParts.performed (parts : CallParts b front args called results)
    (before : BeforeAlloc b) (head : rewriteInsn rmap called = .ok called')
    {core core' : State W M} (holds : Holds S rmap (handedOver b.insns) core core')
    (slots : Int → W) :
    ∃ event values world clobbered, CallEvent.seen event ∧
      (registerInterp S call).perform [called] ⟨core, args.length, 0⟩ =
        ([event], ⟨{ core with world, reg := afterCall values core.reg }, 0, 0⟩) ∧
      (frameInterp S call clobber).perform [called'] ⟨⟨core', slots⟩, args.length⟩ =
        ([event],
          ⟨⟨{ core' with world, reg := behindCallee values clobbered core'.reg }, slots⟩, 0⟩) := by
  obtain ⟨-, -, -, until', calledOf⟩ := parts.eq before
  have type' : called'.type = .call := (rewriteInsn_same head).1.trans parts.calls.type
  have target : S.value core' called'.in0 = S.value core called.in0 := by
    simp only [rewriteInsn, Result.bind_eq_ok, Result.pure_eq, Except.ok.injEq] at head
    obtain ⟨in0, first, _, _, _, _, rfl⟩ := head
    dsimp only
    rw [rewriteUse_eq first]
    by_cases place : called.in0.IsPlace
    · exact holds.values _ (Or.inl ⟨place, called, calledOf, Or.inl rfl⟩)
    · rw [registerOf_of_not_isPlace place]
      exact S.value_of_not_isPlace place _ _
  have given : argRegs ⟨core', args.length, 0⟩ args.length =
      argRegs ⟨core, args.length, 0⟩ args.length := by
    funext k
    unfold argRegs
    by_cases inside : k < args.length
    · rw [if_pos inside, if_pos inside]
      obtain ⟨-, n, member, out⟩ := written_of_passAll parts.passes inside
      have written : Val.reg (ra k) ∈ handedOver b.insns :=
        Or.inr ⟨rfl, n, by rw [until']; exact List.mem_append_right _ member, out⟩
      exact congrArg some (holds.values _ written)
    · rw [if_neg inside, if_neg inside]
  refine ⟨.call (S.value core called.in0) (argRegs ⟨core, args.length, 0⟩ args.length),
    (call (S.value core called.in0) (argRegs ⟨core, args.length, 0⟩ args.length) core.world).1,
    (call (S.value core called.in0) (argRegs ⟨core, args.length, 0⟩ args.length) core.world).2,
    clobber ⟨core', slots⟩, rfl, ?_, ?_⟩
  · simp only [Interp.perform_cons, Interp.perform_nil, registerInterp, RegState.exec,
      parts.calls.type, List.append_nil]
  · simp only [Interp.perform_cons, Interp.perform_nil, frameInterp, FrameState.exec, type',
      target, given, holds.world, List.append_nil]

/-- The parts of a block with a call are coloured where the block is. -/
theorem CallParts.coloured (parts : CallParts b front args called results)
    (before : BeforeAlloc b) (separated : Separated (registerOf rmap) b) :
    Coloured (registerOf rmap) (front.map Insn.line) (atSetup b) ∧
      Coloured (registerOf rmap) (args.map Insn.line) (handedOver b.insns) ∧
      Coloured (registerOf rmap) (results.map Insn.line) b.usedAtEnd := by
  obtain ⟨whole, set, behind, -, -⟩ := parts.eq before
  refine ⟨?_, ?_, ?_⟩
  · have same := separated.front
    rwa [whole] at same
  · have same := separated.setup
    rwa [set] at same
  · have same := separated.results
    rwa [behind] at same

/-- The image of a block with a call: the parts are replaced one by one, SAVEs stand in front of
the set-up and RESTOREs behind the results. -/
structure CallImage (rmap : List Val) (lifetimes : List Lifetime) (front args : List Insn)
    (called : Insn) (results front' args' : List Insn) (called' : Insn) (results' : List Insn)
    (saved : Saving) (saving restoring : List Insn) : Prop where
  fronts : List.Forall₂ (fun n n' => rewriteInsn rmap n = .ok n') front front'
  sets : List.Forall₂ (fun n n' => rewriteInsn rmap n = .ok n') args args'
  head : rewriteInsn rmap called = .ok called'
  fetched : List.Forall₂ (fun n n' => rewriteInsn rmap n = .ok n') results results'
  saves : SavesCall (SavedAcross lifetimes rmap (front.length + args.length + 1)) front' args'
    called' results' [] saved saving restoring

/-- The sections of a block with a call, as they are allocated. -/
theorem CallParts.exists_image (parts : CallParts b front args called results)
    (allocated : AllocatedTo rmap b lifetimes b' saved) :
    ∃ front' args' called' results' saving restoring, CallImage rmap lifetimes front args called
      results front' args' called' results' saved saving restoring := by
  have insns := doRewrites_insns allocated.rewritten
  rw [parts.split, List.append_assoc] at insns
  obtain ⟨front', _, split', fronts, others⟩ := Lists.append_of_forall₂ insns
  obtain ⟨args', _, rfl, sets, others⟩ := Lists.append_of_forall₂ others
  obtain ⟨called', results', head, fetched, rfl⟩ := List.forall₂_cons_left_iff.mp others
  rw [← List.append_assoc] at split'
  have type' : called'.type = .call := (rewriteInsn_same head).1.trans parts.calls.type
  obtain ⟨saving, restoring, saves⟩ := allocated.saves.call front' args' called' results' [] type'
    (around_of_forall₂ parts split' fronts sets fetched)
  have lengths : front'.length + args'.length + 1 = front.length + args.length + 1 := by
    rw [fronts.length_eq, sets.length_eq]
  rw [lengths] at saves
  exact ⟨front', args', called', results', saving, restoring, fronts, sets, head, fetched, saves⟩

/-- The set-up changes no temporary. -/
theorem CallParts.tmp_args (parts : CallParts b front args called results) (core : State W M) :
    (execAll S args core).tmp = core.tmp := by
  funext t
  refine value_execAll (S := S) (v := .tmp t) (fun n member same => ?_) _
  obtain ⟨k, at'⟩ := passesAt_of_mem parts.passes n member
  obtain ⟨how, in0, -, -, rfl⟩ := at'.same
  cases same

/-- The set-up changes no register that callees keep. -/
theorem CallParts.reg_args (parts : CallParts b front args called results) {args' : List Insn}
    (sets : List.Forall₂ (fun n n' => rewriteInsn rmap n = .ok n') args args') {r : Nat}
    (callee : r ∈ rsMap) (core : State W M) : (execAll S args' core).reg r = core.reg r := by
  refine value_execAll (S := S) (v := .reg r) (fun n' member same => ?_) _
  obtain ⟨n, listed, head⟩ := Lists.mem_of_forall₂ sets member
  obtain ⟨k, at'⟩ := passesAt_of_mem parts.passes n listed
  obtain ⟨how, in0, -, -, rfl⟩ := at'.same
  simp only [rewriteInsn, Result.bind_eq_ok, Result.pure_eq, Except.ok.injEq] at head
  obtain ⟨_, _, _, _, out, target, rfl⟩ := head
  obtain rfl : out = .reg (ra k) := rewriteUse_eq target
  obtain rfl : ra k = r := by simpa using same
  exact rsMap_disjoint_arMap callee (List.mem_of_getElem? (getElem?_arMap at'.inside))

/-- What is needed across the call is not changed from the set-up on. -/
theorem CallParts.value_across (parts : CallParts b front args called results)
    (before : BeforeAlloc b) {v : Val} (needed : v ∈ acrossCall b) (core : State W M)
    (values : Nat → W) (world : M) :
    S.value (execAll S results { execAll S args core with
      world, reg := afterCall values (execAll S args core).reg }) v = S.value core v := by
  rw [value_execAll (parts.across before needed).2]
  obtain ⟨t, rfl⟩ := Val.isTmp_iff.mp needed.1
  exact congrFun (parts.tmp_args core) t

end Call

variable (call clobber) in
/-- A block with a call. -/
theorem performed_call (lawful : S.Lawful) (rules : RulesIn rmap) (before : BeforeAlloc b)
    (uses : b.UsesDefined) (distinct : b.defs.Nodup)
    (cmps : b.cmp0.isReg = false ∧ b.cmp1.isReg = false)
    (separated : Separated (registerOf rmap) b)
    (allocated : AllocatedTo rmap b lifetimes b' saved) {front args results : List Insn}
    {called : Insn} (parts : CallParts b front args called results) {s : RegState W M}
    {s' : FrameState W M} (passed : s.passed = 0) (returned : s.returned = 0)
    (passed' : s'.passed = 0) (holds : Holds S rmap (atEntry b) s.core s'.state) :
    Performed S call clobber rmap b saved.b s s' := by
  obtain ⟨whole, set, -, -, -⟩ := parts.eq before
  obtain ⟨frontS, argsS, resultsS⟩ := parts.straight before
  obtain ⟨colouredFront, colouredArgs, colouredEnd⟩ := parts.coloured before separated
  obtain ⟨front', args', called', results', saving, restoring, image⟩ :=
    parts.exists_image allocated
  obtain ⟨fronts, sets, head, fetched, saves⟩ := image
  obtain ⟨core, _, _⟩ := s
  obtain ⟨⟨core', slots⟩, _⟩ := s'
  obtain rfl := passed
  obtain rfl := returned
  obtain rfl := passed'
  -- In front of the set-up.
  have start : Holds S rmap (live (front.map Insn.line) (atSetup b)) core core' := by
    rwa [atEntry, whole] at holds
  have holds₁ := start.run lawful rules colouredFront fronts
  obtain ⟨events₁, frontRuns, frontRuns'⟩ := performed_straight call clobber lawful rules start
    colouredFront frontS fronts (counts_of_leads parts.leads) slots
  -- The SAVEs.
  obtain ⟨slots₁, saveRuns, -, copied⟩ := perform_saves (S := S) call clobber
    (fun n member => by
      obtain ⟨r, slot, -, -, same⟩ := saves.saves n member
      exact ⟨r, slot, same⟩) saves.distinct ⟨⟨execAll S front' core', slots⟩, 0⟩
  -- The set-up.
  have holdsArgs : Holds S rmap (live (args.map Insn.line) (handedOver b.insns))
      (execAll S front core) (execAll S front' core') := by
    refine holds₁.mono ?_
    rw [atSetup, set]
    exact Set.subset_union_left
  have holds₂ := holdsArgs.run lawful rules colouredArgs sets
  obtain ⟨events₂, argsRun, argsRun'⟩ := performed_straight call clobber lawful rules holdsArgs
    colouredArgs argsS sets (counts_of_args parts.passes) slots₁
  -- The call.
  obtain ⟨event, values, world, clobbered, seen, calledRun, calledRun'⟩ :=
    parts.performed call clobber before head holds₂ slots₁
  -- The results.
  have across {v : Val} (needed : v ∈ acrossCall b) :
      S.value (execAll S front' core') (registerOf rmap v) = S.value (execAll S front core) v :=
    holds₁.values v (Or.inr needed)
  have holds₃ := parts.behind (S := S) before cmps (fun v needed => across needed)
    (parts.tmp_args (S := S) _) (fun r callee => parts.reg_args (S := S) sets callee _) values
    clobbered world
  have colouredResults : Coloured (registerOf rmap) (results.map Insn.line)
      (inRegisters rmap b) := colouredEnd.mono fun v member => member.1
  have holds₄ := holds₃.run lawful rules colouredResults fetched
  obtain ⟨events₄, resultsRun, resultsRun'⟩ := performed_straight call clobber lawful rules holds₃
    colouredResults resultsS fetched (counts_of_fetches parts.fetches) slots₁
  -- The RESTOREs.
  have lives (t : Nat) := parts.across_iff before uses distinct allocated.ranges (t := t)
  obtain ⟨state, restoreRuns, holds₅⟩ := parts.restored call clobber
    (s := ⟨⟨_, slots₁⟩, 0⟩) rules before cmps colouredEnd lives
    (fun t needed => allocated.ruled t
      ((allocated.ranges.used t).mp ((lives t).mpr needed).used))
    saves.toPairedSaves (fun v needed => across needed)
    (fun v needed => parts.value_across before needed _ values world) copied holds₄
  -- All together.
  have run := perform_append_of (perform_append_of (perform_append_of frontRuns argsRun)
    calledRun) resultsRun
  have run' := perform_append_of (perform_append_of (perform_append_of (perform_append_of
    (perform_append_of frontRuns' saveRuns) argsRun') calledRun') resultsRun') restoreRuns
  have whole' : b.insns = front ++ args ++ [called] ++ results := by simp [parts.split]
  have whole'' : saved.b.insns = front' ++ saving ++ args' ++ [called'] ++ results' ++
    restoring := by simp [saves.insns]
  rw [← whole'] at run
  rw [← whole''] at run'
  refine ⟨?_, ?_⟩
  · rw [run, run']
    simp [seen]
  · rw [run, run']
    exact {
      holds := holds₅
      passed := rfl
      passed' := rfl
      stays := fun _ => rfl
      returns := fun k inside => by simp at inside }

end Block

end Qbt.Regalloc
