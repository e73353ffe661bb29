import Qbt.Regalloc.CallSaves

/-!
# Register allocation is total

In the form `regalloc` is given, everything a block uses has a lifetime, so `build_rmap` gives it
a register unless they run out, and then nothing else stops. Rules are only added for what a
block defines, so one map replaces the temporaries of the whole function.
-/

namespace Qbt

namespace Regalloc

private theorem mem_of_mem_activeAmong {start finish : Nat} {all : List Lifetime} {l : Lifetime}
    (active : l ∈ activeAmong start finish all) : l ∈ all := by
  induction all with
  | nil => cases active
  | cons m rest ih =>
    rw [activeAmong] at active
    split at active
    · exact List.mem_cons_of_mem _ (ih active)
    · split at active
      · cases active
      · rcases List.mem_cons.mp active with rfl | later
        · exact List.mem_cons_self
        · exact List.mem_cons_of_mem _ (ih later)

/-- Entries in use are about temporaries. -/
def AboutTemps (entries : List Lifetime) : Prop := ∀ l ∈ entries, l.used ≠ 0 → l.v.isTmp

/-- The active lifetimes are about temporaries. -/
theorem AboutTemps.buildActive {prevActive lifetimes : List Lifetime} (prev : AboutTemps prevActive)
    (temps : AboutTemps lifetimes) (i : Nat) (l : Lifetime) :
    AboutTemps (buildActive prevActive lifetimes i l) := by
  intro m active
  rcases List.mem_append.mp active with old | new
  · exact prev m (mem_of_mem_activeAmong old)
  · exact temps m (List.mem_of_mem_drop (List.mem_filter.mp (mem_of_mem_activeAmong new)).1)

private theorem Recorded.aboutTemps {lifetimes : List Lifetime} {defs : List Nat} {last : Nat}
    (recorded : Recorded lifetimes defs last) : AboutTemps lifetimes := by
  intro l member used
  obtain ⟨t, used', rfl⟩ := mem_inUse.mp (List.mem_filter.mpr ⟨member, by simpa using used⟩)
  rw [recorded.v t ((recorded.used t).mp used')]
  rfl

private theorem addRewriteRule_total (rmap : List Val) {v r : Val} (isTmp : v.isTmp)
    (allocable : r.Allocable) : ∃ rmap', addRewriteRule rmap v r = .ok rmap' := by
  obtain ⟨t, rfl⟩ := Val.isTmp_iff.mp isTmp
  obtain ⟨k, _, rfl⟩ := allocable
  exact ⟨_, rfl⟩

section Assign

variable {hints : List Val} {lifetimes : List Lifetime} {a a' : Assignment} {i : Nat}
  {l : Lifetime} {fault : Fault}

/-- Only `find_free_reg` can stop when a register is chosen. -/
theorem chooseReg_error (hintsIn : RulesIn hints) (prev : AboutTemps a.prevActive)
    (temps : AboutTemps lifetimes) (isTmp : l.v.isTmp)
    (stopped : chooseReg hints lifetimes a i l = .error fault) : fault = .outOfRegisters := by
  obtain ⟨reserved, built⟩ := buildReserved_total a.rmap (prev.buildActive temps i l)
  simp only [chooseReg, reservedFor, built, Result.ok_bind] at stopped
  split at stopped
  · rename_i free
    have hinted : (getHint hints l.v).Allocable :=
      hintsIn l.v.num fun none => by
        rw [show getHint hints l.v = .noclass from none] at free
        cases free.1
    obtain ⟨_, added⟩ := addRewriteRule_total a.rmap isTmp hinted
    rw [added] at stopped
    cases stopped
  · cases found : findFreeReg reserved with
    | error other =>
      rw [found] at stopped
      unfold findFreeReg at found
      split at found
      · cases found
      · rw [← Except.error.inj stopped, Except.error.inj found]
    | ok r =>
      obtain ⟨k, listed, same, _⟩ := findFreeReg_eq_ok found
      obtain ⟨_, added⟩ := addRewriteRule_total a.rmap isTmp ⟨k, listed, same⟩
      rw [found, Result.ok_bind, added] at stopped
      cases stopped

private theorem aboutTemps_prevActive (prev : AboutTemps a.prevActive)
    (temps : AboutTemps lifetimes)
    (chosen : chooseReg hints lifetimes a i l = .ok a') : AboutTemps a'.prevActive := by
  obtain ⟨_, _, same⟩ := chooseReg_prevActive chosen
  rw [same]
  split
  · exact prev
  · exact prev.buildActive temps i l

/-- `build_rmap` stops only where registers run out. -/
theorem assignFrom_error {rest : List Lifetime} (hintsIn : RulesIn hints)
    (prev : AboutTemps a.prevActive) (temps : AboutTemps lifetimes) (temps' : AboutTemps rest)
    (stopped : assignFrom hints lifetimes a i rest = .error fault) : fault = .outOfRegisters := by
  induction rest generalizing a i with
  | nil => cases stopped
  | cons l rest ih =>
    have temps' : (l.used ≠ 0 → l.v.isTmp) ∧ AboutTemps rest := List.forall_mem_cons.mp temps'
    rw [assignFrom, Result.bind_eq_error] at stopped
    rcases stopped with first | ⟨next, first, others⟩
    · unfold assignOne at first
      split at first
      · cases first
      · rename_i needs
        exact chooseReg_error hintsIn prev temps (temps'.1 (not_or.mp needs).1) first
    · refine ih ?_ temps'.2 others
      obtain ⟨rfl, _⟩ | ⟨_, _, chosen⟩ := assignOne_eq_ok first
      · exact prev
      · exact aboutTemps_prevActive prev temps chosen

/-- A lifetime in use has a rule behind its turn. -/
theorem assignOne_rule {t : Nat} (assigned : assignOne hints lifetimes a i l = .ok a')
    (used : l.used ≠ 0) (v : l.v = .tmp t) : ruleOf a'.rmap t ≠ .noclass := by
  obtain ⟨rfl, unused | rule⟩ | ⟨_, _, chosen⟩ := assignOne_eq_ok assigned
  · exact absurd unused used
  · rwa [hasRewriteRule_iff, v] at rule
  · obtain ⟨_, r, _, _, added⟩ := chooseReg_eq_ok chosen
    obtain ⟨_, k, _, rfl, _⟩ := addRewriteRule_eq_ok.mp added
    rw [ruleOf_addRewriteRule added, v]
    simp [Val.num]

private theorem assignFrom_rules {rest : List Lifetime} {t : Nat}
    (assigned : assignFrom hints lifetimes a i rest = .ok a') (member : l ∈ rest)
    (used : l.used ≠ 0) (v : l.v = .tmp t) : ruleOf a'.rmap t ≠ .noclass := by
  induction rest generalizing a i with
  | nil => cases member
  | cons m rest ih =>
    simp only [assignFrom, Result.bind_eq_ok] at assigned
    obtain ⟨next, first, others⟩ := assigned
    rcases List.mem_cons.mp member with rfl | later
    · have rule := assignOne_rule first used v
      rwa [assignFrom_keeps others rule]
    · exact ih others later

/-- Rules are added for lifetimes in use only. -/
theorem assignFrom_other {rest : List Lifetime} {t : Nat}
    (assigned : assignFrom hints lifetimes a i rest = .ok a')
    (other : ∀ l ∈ rest, l.used ≠ 0 → l.v ≠ .tmp t) : ruleOf a'.rmap t = ruleOf a.rmap t := by
  induction rest generalizing a i with
  | nil =>
    cases assigned
    rfl
  | cons m rest ih =>
    rw [List.forall_mem_cons] at other
    simp only [assignFrom, Result.bind_eq_ok] at assigned
    obtain ⟨next, first, others⟩ := assigned
    rw [ih others other.2]
    obtain ⟨rfl, _⟩ | ⟨used, _, chosen⟩ := assignOne_eq_ok first
    · rfl
    · obtain ⟨_, r, _, _, added⟩ := chooseReg_eq_ok chosen
      obtain ⟨u, _, v, rfl, _⟩ := addRewriteRule_eq_ok.mp added
      have differs : t ≠ u := by
        rintro rfl
        exact other.1 used v
      rw [ruleOf_addRewriteRule added, v]
      exact if_neg differs

end Assign

end Regalloc

/-- An operand whose temporary is replaced by its register. -/
def Val.image (ρ : Nat → Nat) : Val → Val
  | .tmp t => .reg (ρ t)
  | v => v

private theorem Val.image_isTmp (ρ : Nat → Nat) (v : Val) : (v.image ρ).isTmp = false := by
  cases v <;> rfl

/-- An instruction whose temporaries are replaced. -/
def Insn.image (ρ : Nat → Nat) (n : Insn) : Insn :=
  { n with out := n.out.image ρ, in0 := n.in0.image ρ, in1 := n.in1.image ρ }

/-- A block whose temporaries are replaced. -/
def Blk.image (ρ : Nat → Nat) (b : Blk) : Blk :=
  { b with
    params := b.params.map (Val.image ρ)
    insns := b.insns.map (Insn.image ρ)
    cmp0 := b.cmp0.image ρ
    cmp1 := b.cmp1.image ρ
    args1 := b.args1.map (Val.image ρ)
    args2 := b.args2.map (Val.image ρ) }

/-- A block without what `do_call_saves` has inserted. -/
def Blk.withoutSaves (b : Blk) : Blk :=
  { b with insns := b.insns.filter fun n => !n.type.savesReg }

/-- The parameters of a block, the operands of its instructions and of its comparison, and its
arguments. -/
def Blk.operands (b : Blk) : List Val :=
  b.params ++ b.insns.flatMap (fun n => [n.out, n.in0, n.in1]) ++ [b.cmp0, b.cmp1] ++ b.args1 ++
    b.args2

namespace Regalloc

/-- Rules within `tr_map` are those of a map into it. -/
theorem RulesIn.exists_image {rmap : List Val} (rules : RulesIn rmap) : ∃ ρ : Nat → Nat,
    ∀ t, ρ t ∈ trMap ∧ (ruleOf rmap t ≠ .noclass → ruleOf rmap t = .reg (ρ t)) := by
  have each (t : Nat) : ∃ r, r ∈ trMap ∧ (ruleOf rmap t ≠ .noclass → ruleOf rmap t = .reg r) := by
    by_cases rule : ruleOf rmap t = .noclass
    · exact ⟨ra 0, by decide, fun real => absurd rule real⟩
    · obtain ⟨r, listed, same⟩ := rules t rule
      exact ⟨r, listed, fun _ => same⟩
  choose ρ holds using each
  exact ⟨ρ, holds⟩

section Image

variable {rmap : List Val} {ρ : Nat → Nat}

private theorem rewriteUse_image {v : Val} (rules : ∀ t ∈ v.temps, ruleOf rmap t = .reg (ρ t)) :
    rewriteUse rmap v = .ok (v.image ρ) := by
  cases v with
  | tmp t =>
    have rule := rules t rfl
    have real : ruleOf rmap t ≠ .noclass := by simp [rule]
    have found := rewriteTmp_of_rule real
    rw [rule] at found
    exact found
  | _ => rfl

private theorem rewriteInsn_image {n : Insn}
    (rules : ∀ t ∈ n.reads ∪ n.writes, ruleOf rmap t = .reg (ρ t)) :
    rewriteInsn rmap n = .ok (n.image ρ) := by
  rw [rewriteInsn, rewriteUse_image fun t read => rules t (Or.inl (Or.inl read)), Result.ok_bind,
    rewriteUse_image fun t read => rules t (Or.inl (Or.inr read)), Result.ok_bind,
    rewriteUse_image fun t written => rules t (Or.inr written)]
  rfl

private theorem mapM_image {vals : List Val} (temps : ∀ v ∈ vals, v.isTmp)
    (rules : ∀ t ∈ tempsOf vals, ruleOf rmap t = .reg (ρ t)) :
    vals.mapM (rewriteTmp rmap) = .ok (vals.map (Val.image ρ)) := by
  rw [Result.mapM_eq_ok, List.forall₂_map_right_iff, List.forall₂_same]
  intro v member
  obtain ⟨t, rfl⟩ := Val.isTmp_iff.mp (temps v member)
  exact rewriteUse_image fun u same => rules u (by rwa [mem_tempsOf, ← same])

/-- With rules for all that a block defines, `do_rewrites` replaces its temporaries. -/
theorem doRewrites_image {b : Blk} (uses : b.UsesDefined) (before : BeforeAlloc b)
    (rules : ∀ t ∈ b.defs, ruleOf rmap t = .reg (ρ t)) :
    doRewrites b rmap = .ok (b.image ρ) := by
  have known {t : Nat} (member : t ∈ tempsOf b.params ∪ b.defined) : ruleOf rmap t = .reg (ρ t) :=
    rules t (mem_defs.mpr member)
  have insns : b.insns.mapM (rewriteInsn rmap) = .ok (b.insns.map (Insn.image ρ)) := by
    rw [Result.mapM_eq_ok, List.forall₂_map_right_iff, List.forall₂_same]
    intro n member
    obtain ⟨front, behind, split⟩ := List.mem_iff_append.mp member
    refine rewriteInsn_image fun t touched => known ?_
    rcases touched with read | written
    · rcases uses.reads front n behind split read with param | ⟨m, listed, defined⟩
      · exact Or.inl param
      · exact Or.inr ⟨m, by simp [split, listed], defined⟩
    · exact Or.inr ⟨n, member, written⟩
  rw [doRewrites, mapM_image before.params fun t param => known (Or.inl param), Result.ok_bind,
    insns, Result.ok_bind, rewriteUse_image fun t read => known (uses.compared (Or.inl read)),
    Result.ok_bind, rewriteUse_image fun t read => known (uses.compared (Or.inr read)),
    Result.ok_bind, mapM_image before.args1 fun t read => known (uses.args1 read), Result.ok_bind,
    mapM_image before.args2 fun t read => known (uses.args2 read)]
  rfl

end Image

/-- Hints add rules for outputs only. -/
theorem collectHints_other {c c' : Collected} {n : Insn} {t : Nat}
    (collected : collectHints c n = .ok c') (other : t ∉ n.out.temps) :
    ruleOf c'.rmap t = ruleOf c.rmap t := by
  unfold collectHints at collected
  split at collected <;>
    simp only [Result.bind_eq_ok, Result.pure_eq, Except.ok.injEq] at collected
  · rename_i u _ _ out _
    obtain ⟨_, _, rmap, ruled, rfl⟩ := collected
    have differs : t ≠ u := by
      rintro rfl
      exact other out
    rw [ruleOf_addRewriteRule ruled, out]
    exact if_neg differs
  · obtain ⟨_, _, rfl⟩ := collected
    rfl
  · rw [← collected]

private theorem collectInsns_other {c c' : Collected} {insns : List Insn} {pos t : Nat}
    (collected : collectInsns c insns pos = .ok c') (other : t ∉ definedIn insns) :
    ruleOf c'.rmap t = ruleOf c.rmap t := by
  induction insns generalizing c pos with
  | nil =>
    cases collected
    rfl
  | cons n rest ih =>
    rw [definedIn_cons, Set.mem_union, not_or] at other
    simp only [collectInsns, Result.bind_eq_ok] at collected
    obtain ⟨next, first, others⟩ := collected
    simp only [collectInsn, Result.bind_eq_ok, Result.pure_eq, Except.ok.injEq] at first
    obtain ⟨_, _, _, _, hinted, collectedHints, rfl⟩ := first
    rw [ih others other.2]
    have kept := collectHints_other collectedHints other.1
    exact kept

section Rules

variable {b : Blk} {hints rmap : List Val} {c : Collected} {r : Assignment} {last : Nat}

/-- Behind `build_rmap` everything a block defines has a rule. -/
theorem buildRmap_rules (recorded : Recorded c.lifetimes b.defs last)
    (assigned : buildRmap c.hints c.lifetimes c.rmap = .ok r) {t : Nat} (defined : t ∈ b.defs) :
    ruleOf r.rmap t ≠ .noclass := by
  have used := (recorded.used t).mpr defined
  have inside := inside_of_used used
  have v := recorded.v t defined
  rw [lifetimeOf_eq_getElem inside] at used v
  exact assignFrom_rules assigned (List.getElem_mem inside) used v

/-- Nothing else has a new rule. -/
theorem rules_other (recorded : Recorded c.lifetimes b.defs last)
    (collected : collectLifetimes b hints rmap = .ok c)
    (assigned : buildRmap c.hints c.lifetimes c.rmap = .ok r) {t : Nat} (other : t ∉ b.defs) :
    ruleOf r.rmap t = ruleOf rmap t := by
  have assigned' : ruleOf r.rmap t = ruleOf c.rmap t := by
    refine assignFrom_other assigned fun l member used v => other ?_
    obtain ⟨u, used', rfl⟩ := mem_inUse.mp (List.mem_filter.mpr ⟨member, by simpa using used⟩)
    have defined := (recorded.used u).mp used'
    rw [recorded.v u defined] at v
    cases v
    exact defined
  rw [assigned']
  simp only [collectLifetimes, Result.bind_eq_ok, Result.pure_eq, Except.ok.injEq] at collected
  obtain ⟨next, insns, _, _, _, _, _, _, _, _, rfl⟩ := collected
  exact collectInsns_other insns fun defined => other (mem_defs.mpr (Or.inr defined))

end Rules

section Blocks

variable {k : Fn} {n : Nat} {now after : Allocation} {b b' : Blk}

/-- A block stops the loop of `regalloc` only where registers run out. -/
theorem allocBlk_error {fault : Fault} (input : AllocInput k n) (rules : now.RulesIn)
    (member : b ∈ k.blks) (stopped : allocBlk now b = .error fault) : fault = .outOfRegisters := by
  have before := input.before b member
  obtain ⟨c, collected, recorded⟩ := collectLifetimes_recorded now.hints now.rmap
    (input.uses b member) (input.increasing b member) before
  have collectedIn := collectLifetimes_rulesIn rules.hints rules.rmap before.insns collected
  rw [allocBlk, collected, Result.ok_bind, Result.bind_eq_error] at stopped
  rcases stopped with runsOut | ⟨r, assigned, stopped⟩
  · have temps := recorded.aboutTemps
    exact assignFrom_error collectedIn.hints (by simp [AboutTemps]) temps temps runsOut
  · have rulesIn := assignFrom_rulesIn collectedIn.hints collectedIn.rmap assigned
    obtain ⟨ρ, image⟩ := rulesIn.exists_image
    have rewritten : doRewrites b r.rmap = .ok (b.image ρ) :=
      doRewrites_image (input.uses b member) before fun t defined =>
        (image t).2 (buildRmap_rules recorded assigned defined)
    obtain ⟨saved, saves, _⟩ :=
      (Allocates.mk collected assigned rewritten).savesLive input rules member
    rw [rewritten, Result.ok_bind, saves, Result.ok_bind] at stopped
    cases stopped

/-- Behind the SAVEs and RESTOREs, a block is the image of what it was, for every map that
agrees with the rules of what it defines. No other temporary gets a new rule. -/
theorem allocBlk_image (input : AllocInput k n) (rules : now.RulesIn) (member : b ∈ k.blks)
    (returned : allocBlk now b = .ok (after, b')) :
    (∀ t ∈ b.defs, ruleOf after.rmap t ≠ .noclass) ∧
      (∀ t, t ∉ b.defs → ruleOf after.rmap t = ruleOf now.rmap t) ∧
      ∀ ρ : Nat → Nat, (∀ t ∈ b.defs, ruleOf after.rmap t = .reg (ρ t)) →
        b'.withoutSaves = b.image ρ := by
  obtain ⟨c, r, d, saved, allocates, saves, rfl, rfl⟩ := allocBlk_eq_ok.mp returned
  obtain ⟨c', collected, recorded⟩ := collectLifetimes_recorded now.hints now.rmap
    (input.uses b member) (input.increasing b member) (input.before b member)
  obtain rfl : c' = c := Except.ok.inj (collected.symm.trans allocates.collected)
  refine ⟨fun t => buildRmap_rules recorded allocates.assigned,
    fun t => rules_other recorded collected allocates.assigned, fun ρ image => ?_⟩
  have rewritten := doRewrites_image (input.uses b member) (input.before b member) image
  obtain rfl : b.image ρ = d := Except.ok.inj (rewritten.symm.trans allocates.rewritten)
  obtain ⟨saved', saves', live⟩ := allocates.savesLive input rules member
  obtain rfl : saved' = saved := Except.ok.inj (saves'.symm.trans saves)
  rw [Blk.withoutSaves, live.erased, live.insns]

/-- No temporary is left, neither in what was there nor in what is inserted. -/
theorem operands_of_withoutSaves {ρ : Nat → Nat} {rmap : List Val} {bound : Nat}
    (erased : b'.withoutSaves = b.image ρ) (before : BeforeAlloc b)
    (insns : ∀ n ∈ b'.insns, InsnOf rmap bound b n) : ∀ v ∈ b'.operands, v.isTmp = false := by
  have listed {vals vals' : List Val} (same : vals' = vals.map (Val.image ρ)) :
      ∀ v ∈ vals', v.isTmp = false := by
    intro v member
    rw [same] at member
    obtain ⟨w, _, rfl⟩ := List.mem_map.mp member
    exact w.image_isTmp ρ
  have params : b'.params = b.params.map (Val.image ρ) := congrArg Blk.params erased
  have args1 : b'.args1 = b.args1.map (Val.image ρ) := congrArg Blk.args1 erased
  have args2 : b'.args2 = b.args2.map (Val.image ρ) := congrArg Blk.args2 erased
  have cmp0 : b'.cmp0 = b.cmp0.image ρ := congrArg Blk.cmp0 erased
  have cmp1 : b'.cmp1 = b.cmp1.image ρ := congrArg Blk.cmp1 erased
  have kept : b'.insns.filter (fun n => !n.type.savesReg) = b.insns.map (Insn.image ρ) :=
    congrArg Blk.insns erased
  have inInsns : ∀ n ∈ b'.insns, ∀ v ∈ [n.out, n.in0, n.in1], v.isTmp = false := by
    intro n member
    cases saves : n.type.savesReg with
    | false =>
      have inside : n ∈ b'.insns.filter fun n => !n.type.savesReg := by simp [member, saves]
      rw [kept] at inside
      obtain ⟨m, _, rfl⟩ := List.mem_map.mp inside
      simp [Insn.image, Val.image_isTmp]
    | true =>
      cases insns n member with
      | rewritten old rewrote =>
        rw [(rewriteInsn_same rewrote).1, (before.insns _ old).type] at saves
        cases saves
      | inserted inserted =>
        have notTmp {r : Val} {slot : Int} (isReg : r.isReg) :
            ∀ v ∈ [Val.noclass, r, .imm slot .i27], v.isTmp = false := by
          cases r with
          | reg k => simp [Val.isTmp]
          | _ => cases isReg
        cases inserted with
        | save saved => exact notTmp saved.1
        | restore saved => exact notTmp saved.1
  intro v member
  simp only [Blk.operands, List.mem_append] at member
  rcases member with (((param | inside) | compared) | arg) | arg
  · exact listed params v param
  · obtain ⟨n, member, operand⟩ := List.mem_flatMap.mp inside
    exact inInsns n member v operand
  · rw [cmp0, cmp1] at compared
    rcases List.mem_cons.mp compared with rfl | second
    · exact b.cmp0.image_isTmp ρ
    · obtain rfl := List.mem_singleton.mp second
      exact b.cmp1.image_isTmp ρ
  · exact listed args1 v arg
  · exact listed args2 v arg

end Blocks

section Functions

variable {k : Fn} {n : Nat} {a a' : Allocation} {blks blks' : List Blk}

private theorem allocBlks_error {fault : Fault} (input : AllocInput k n) (rules : a.RulesIn)
    (members : ∀ b ∈ blks, b ∈ k.blks) (stopped : allocBlks a blks = .error fault) :
    fault = .outOfRegisters := by
  induction blks generalizing a with
  | nil => cases stopped
  | cons b rest ih =>
    rw [List.forall_mem_cons] at members
    rw [allocBlks, Result.bind_eq_error] at stopped
    rcases stopped with first | ⟨⟨next, b'⟩, first, stopped⟩
    · exact allocBlk_error input rules members.1 first
    · rw [Result.bind_pure_eq_error] at stopped
      exact ih (allocBlk_rulesIn (input.before b members.1) rules first) members.2 stopped

/-- Blocks define different temporaries, so no later block changes the image of an earlier one. -/
theorem allocBlks_image (input : AllocInput k n) (rules : a.RulesIn)
    (members : ∀ b ∈ blks, b ∈ k.blks) (distinct : (blks.flatMap Blk.defs).Nodup)
    (returned : allocBlks a blks = .ok (a', blks')) :
    (∀ t, t ∉ blks.flatMap Blk.defs → ruleOf a'.rmap t = ruleOf a.rmap t) ∧
      ∀ ρ : Nat → Nat, (∀ t, ruleOf a'.rmap t ≠ .noclass → ruleOf a'.rmap t = .reg (ρ t)) →
        List.Forall₂ (fun b b' => b'.withoutSaves = b.image ρ ∧
          ∀ v ∈ b'.operands, v.isTmp = false) blks blks' := by
  induction blks generalizing a blks' with
  | nil =>
    simp only [allocBlks, Result.pure_eq, Except.ok.injEq, Prod.mk.injEq] at returned
    obtain ⟨rfl, rfl⟩ := returned
    exact ⟨fun _ _ => rfl, fun _ _ => .nil⟩
  | cons b rest ih =>
    rw [List.forall_mem_cons] at members
    rw [List.flatMap_cons, List.nodup_append] at distinct
    simp only [allocBlks, Result.bind_eq_ok, Result.pure_eq, Except.ok.injEq, Prod.mk.injEq,
      Prod.exists] at returned
    obtain ⟨next, b', first, last, rest', others, rfl, rfl⟩ := returned
    have before := input.before b members.1
    obtain ⟨defined, kept, image⟩ := allocBlk_image input rules members.1 first
    obtain ⟨kept', images⟩ := ih (allocBlk_rulesIn before rules first) members.2 distinct.2.1 others
    refine ⟨fun t other => ?_, fun ρ holds => .cons ?_ (images ρ holds)⟩
    · rw [List.flatMap_cons, List.mem_append, not_or] at other
      rw [kept' t other.2, kept t other.1]
    · have erased := image ρ fun t own => by
        have same := kept' t fun later => distinct.2.2 t own t later rfl
        rw [← same]
        exact holds t (by rw [same]; exact defined t own)
      exact ⟨erased, operands_of_withoutSaves erased before (allocBlk_insnOf first)⟩

end Functions

end Regalloc

/-- Register allocation is total, up to running out of registers, and leaves no temporary
behind: one map into the registers of `tr_map` replaces every temporary of the function. -/
theorem regalloc_total {f g h k : Fn} {n : Nat} (built : Frontend.ParserBuilt f)
    (corrected : Corrected f g) (converted : ssa g = .ok (h, n)) (merged : abi0 h = .ok k) :
    (∀ fault, regalloc k = .error fault → fault = .outOfRegisters) ∧
      ∀ m, regalloc k = .ok m → (∀ b ∈ m.blks, ∀ v ∈ b.operands, v.isTmp = false) ∧
        ∃ ρ : Nat → Nat, (∀ t, ρ t ∈ trMap ∧ ρ t ∉ specialRegs) ∧
          List.Forall₂ (fun b b' => b'.withoutSaves = b.image ρ) k.blks m.blks := by
  have input := Abi.abi0_input built corrected converted merged
  have start : (Regalloc.Allocation.start k).RulesIn := ⟨.nil, .nil⟩
  constructor
  · intro fault stopped
    rw [regalloc, Result.bind_eq_error] at stopped
    rcases stopped with stopped | ⟨⟨_, _⟩, _, done⟩
    · exact Regalloc.allocBlks_error input start (fun _ member => member) stopped
    · cases done
  · intro m returned
    simp only [regalloc, Result.bind_eq_ok, Result.pure_eq, Except.ok.injEq, Prod.exists]
      at returned
    obtain ⟨a, blks, allocated, rfl⟩ := returned
    have distinct : (k.blks.flatMap Blk.defs).Nodup := by
      rw [input.once]
      exact List.nodup_range
    obtain ⟨rules, _, _⟩ := Regalloc.allocBlks_steps
      (fun b listed before after b' rules stepped =>
        Regalloc.allocBlk_rulesIn (input.before b listed) rules stepped) start allocated
    obtain ⟨ρ, image⟩ := rules.rmap.exists_image
    obtain ⟨_, images⟩ :=
      Regalloc.allocBlks_image input start (fun _ member => member) distinct allocated
    have images := images ρ fun t => (image t).2
    refine ⟨fun b' member => ?_, ρ, fun t => ⟨(image t).1, notMem_specialRegs (image t).1⟩,
      images.imp fun _ _ both => both.1⟩
    obtain ⟨_, _, _, noTemps⟩ := Lists.mem_of_forall₂ images member
    exact noTemps

/-- In `passedSecond` registers do not run out, and one map takes all its temporaries to theirs. -/
theorem regalloc_total_passedSecond :
    ∃ f g h n k m, Frontend.buildFunction 0 Regalloc.passedSecond = .ok f ∧ Corrected f g ∧
      ssa g = .ok (h, n) ∧ abi0 h = .ok k ∧ regalloc k = .ok m ∧
        (∀ fault, regalloc k = .error fault → fault = .outOfRegisters) ∧
        (∀ b ∈ m.blks, ∀ v ∈ b.operands, v.isTmp = false) ∧
        ∃ ρ : Nat → Nat, (∀ t, ρ t ∈ trMap ∧ ρ t ∉ specialRegs) ∧
          List.Forall₂ (fun b b' => b'.withoutSaves = b.image ρ) k.blks m.blks := by
  have ran : ∃ f g ri h n k m, Frontend.buildFunction 0 Regalloc.passedSecond = .ok f ∧
      correct 20 f f.ntmp = .ok (g, ri) ∧ ssa { g with ntmp := ri } = .ok (h, n) ∧
        abi0 h = .ok k ∧ regalloc k = .ok m :=
    ⟨_, _, _, _, _, _, _, by rfl, by rfl, by rfl, by rfl, by rfl⟩
  obtain ⟨f, g, ri, h, n, k, m, parsed, corrected, converted, merged, allocated⟩ := ran
  have corrected : Corrected f { g with ntmp := ri } := ⟨20, g, ri, corrected, rfl⟩
  obtain ⟨faults, returns⟩ := regalloc_total ⟨0, _, parsed⟩ corrected converted merged
  obtain ⟨noTemps, image⟩ := returns m allocated
  exact ⟨f, _, h, n, k, m, parsed, corrected, converted, merged, allocated, faults, noTemps, image⟩

end Qbt
