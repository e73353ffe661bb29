import Qbt.Correct.Keeps
import Qbt.IR.Agree

/-!
# Corrected code behaves like the original

Without addressed locals `correct` only exchanges the operands of commutative
instructions and loads immediates and symbol references into fresh temporaries. Both
replace an instruction by code that does the same on the temporaries in use.
-/

namespace Qbt.Correct

variable {W M : Type} {S : Semantics W M}

/-- The instructions `correct` neither inserts nor changes. -/
def observed : InsnType → Bool
  | .copy | .addr | .add | .mul => false
  | _ => true

section Insn

variable {i : Insn} {ri : Nat}

/-- Reading an input from a fresh temporary that holds its value changes nothing. -/
theorem setInput_agree (below : i.Below ri) (idx : Fin 2) (state : State W M) :
    let loaded := state.write (.tmp ri) (S.value state (i.input idx))
    (S.interp observed).observe (i.setInput idx (.tmp ri)) loaded =
        (S.interp observed).observe i state ∧
      Agree ri (S.exec i state) (S.exec (i.setInput idx (.tmp ri)) loaded) := by
  intro loaded
  have agree : Agree ri state loaded := (Agree.refl ri state).write_fresh (Nat.le_refl ri) _
  have fresh : S.value loaded (.tmp ri) = S.value state (i.input idx) := by
    simp [loaded]
  have values : S.value loaded (i.setInput idx (.tmp ri)).in0 = S.value state i.in0 ∧
      S.value loaded (i.setInput idx (.tmp ri)).in1 = S.value state i.in1 := by
    match idx with
    | 0 => exact ⟨fresh, agree.value below.in1⟩
    | 1 => exact ⟨agree.value below.in0, fresh⟩
  have same : (i.setInput idx (.tmp ri)).type = i.type ∧
      (i.setInput idx (.tmp ri)).vtype = i.vtype ∧ (i.setInput idx (.tmp ri)).v = i.v ∧
        (i.setInput idx (.tmp ri)).out = i.out :=
    match idx with
    | 0 => ⟨rfl, rfl, rfl, rfl⟩
    | 1 => ⟨rfl, rfl, rfl, rfl⟩
  simp only [Semantics.interp, Semantics.exec, values, same, agree.world]
  exact ⟨trivial, (agree.write i.out _).setWorld _⟩

/-- An instruction that loads a value into the fresh temporary may be put in front. -/
theorem spill_replaces (below : i.Below ri) (idx : Fin 2) {new : Insn}
    (hidden : observed new.type = false)
    (loads : ∀ state : State W M,
      S.exec new state = state.write (.tmp ri) (S.value state (i.input idx))) :
    Replaces S observed ri [i] [new, i.setInput idx (.tmp ri)] := by
  intro state
  obtain ⟨same, agree⟩ := setInput_agree (S := S) below idx state
  have silent : (S.interp observed).observe new state = [] := by
    simp [Semantics.interp, hidden]
  have execNew : (S.interp observed).exec new state =
      state.write (.tmp ri) (S.value state (i.input idx)) := loads state
  simp only [Interp.perform_cons, Interp.perform_nil, silent, execNew, same, List.append_nil,
    List.nil_append]
  exact ⟨trivial, agree⟩

/-- COPY of an operand into a temporary. -/
theorem exec_copy (lawful : S.Lawful) (t : Nat) (v : Val) (state : State W M) :
    S.exec (insnCreate .copy .i27 (.tmp t) v .noclass 0) state =
      state.write (.tmp t) (S.value state v) := by
  simp only [Semantics.exec, insnCreate, lawful.copy]
  rfl

/-- ADDR of a symbol into a temporary. -/
theorem exec_addr (lawful : S.Lawful) (t : Nat) (s : String) (state : State W M) :
    S.exec (insnCreate .addr .i27 (.tmp t) (.ref s) .noclass 0) state =
      state.write (.tmp t) (S.ref s) := by
  simp only [Semantics.exec, insnCreate, Semantics.value_ref, lawful.addr]
  rfl

/-- The operands of an addition or multiplication may change places. -/
theorem swap_replaces (lawful : S.Lawful) (commutes : i.type = .add ∨ i.type = .mul) :
    Replaces S observed ri [i] [{ i with in0 := i.in1, in1 := i.in0 }] := by
  intro state
  have hidden : observed i.type = false := by
    rcases commutes with type | type <;> rw [type] <;> rfl
  have effect (x y : W) : S.effect i.type i.vtype x y i.v state.world =
      S.effect i.type i.vtype y x i.v state.world := by
    rcases commutes with type | type
    · rw [type, lawful.add]
    · rw [type, lawful.mul]
  have same : S.exec { i with in0 := i.in1, in1 := i.in0 } state = S.exec i state := by
    simp only [Semantics.exec, effect (S.value state i.in1)]
  simp only [Interp.perform_cons, Interp.perform_nil, Semantics.interp, hidden, same]
  exact ⟨rfl, .refl ri _⟩

end Insn

/-- What correcting some instructions of a block preserves. -/
structure Corrects (S : Semantics W M) (p p' : Pass) : Prop where
  keeps : p.Keeps p'
  grows : p.ri ≤ p'.ri
  below : ∀ n ∈ p'.b.insns, n.Below p'.ri
  replaces : Replaces S observed p.ri p.b.insns p'.b.insns

namespace Corrects

variable {p p' p'' : Pass}

theorem refl (below : ∀ n ∈ p.b.insns, n.Below p.ri) : Corrects S p p :=
  ⟨.refl p, Nat.le_refl _, below, .refl _⟩

theorem trans (first : Corrects S p p') (second : Corrects S p' p'') : Corrects S p p'' :=
  ⟨first.keeps.trans second.keeps, first.grows.trans second.grows, second.below,
    first.replaces.trans first.grows second.replaces⟩

end Corrects

/-- The instructions in front of index `ii` are done, and no other takes the address of a
local. -/
structure At (ii : Nat) (p : Pass) (before after : List Insn) : Prop where
  split : p.b.insns = before ++ after
  length : before.length = ii
  noAddr : ∀ n ∈ after, n.type ≠ .addr

section Step

variable {p p' : Pass} {ii : Nat} {i : Insn} {before after : List Insn}

/-- Where an exchange of operands leaves the block. -/
theorem swapped_eq (position : At ii p before (i :: after)) {new : Insn} {b : Blk}
    (stored : setInsn p.b ii new = .ok b) : b.insns = before ++ new :: after := by
  obtain ⟨_, rfl⟩ := setInsn_eq_ok.mp stored
  simp only
  rw [position.split, ← position.length, Lists.set_length]

/-- A visit moves on by one instruction, whether it inserted one or not. -/
theorem Outcome.advances (position : At ii p before (i :: after)) (outcome : Outcome p ii i p') :
    p'.rules = p.rules ∧ ∃ before' after', At (ii + 1) p' before' after' := by
  have noAddr : ∀ n ∈ after, n.type ≠ .addr :=
    fun n member => position.noAddr n (List.mem_cons_of_mem _ member)
  have spilled {idx : Fin 2} {new : Insn} (inserted : insertBefore p ii i idx new = .ok p') :
      p'.rules = p.rules ∧ ∃ before' after', At (ii + 1) p' before' after' := by
    obtain ⟨insns, rules, _⟩ := insertBefore_split position.split position.length inserted
    refine ⟨rules, before ++ [new], i.setInput idx (.tmp p.ri) :: after, by simp [insns],
      by simp [position.length], ?_⟩
    rintro n (_ | ⟨_, old⟩)
    · rw [Insn.type_setInput]
      exact position.noAddr i List.mem_cons_self
    · exact noAddr n old
  cases outcome with
  | same =>
    exact ⟨rfl, before ++ [i], after, by simp [position.split], by simp [position.length], noAddr⟩
  | swapped _ _ stored =>
    exact ⟨rfl, before ++ [{ i with in0 := i.in1, in1 := i.in0 }], after,
      by simp [swapped_eq position stored], by simp [position.length], noAddr⟩
  | spilledRef _ _ _ inserted => exact spilled inserted
  | spilledImm _ _ _ inserted => exact spilled inserted
  | addressed addr => exact absurd addr (position.noAddr i List.mem_cons_self)

/-- Without rules a visit does nothing to addressed locals. -/
theorem correctInsn_outcome (rules : p.rules = []) (corrected : correctInsn p ii i = .ok p') :
    Outcome p ii i p' := by
  have noRule (v : Val) : hasRewriteRule p.rules v = false := by
    cases v <;> simp [hasRewriteRule, rules, Val.hasclass]
  simp only [correctInsn, noRule, Bool.false_eq_true, if_false] at corrected
  exact correctOperands_outcome corrected

/-- What every visit of an instruction keeps, the loop over the instructions keeps. -/
theorem correctInsns_induct (related : Pass → Pass → Prop) (refl : ∀ p, related p p)
    (trans : ∀ {p p' p''}, related p p' → related p' p'' → related p p'')
    (step : ∀ {p p' ii i before after}, At ii p before (i :: after) → Outcome p ii i p' →
      related p p') {fuel : Nat} (rules : p.rules = []) (position : At ii p before after)
    (corrected : correctInsns fuel ii p = .ok p') : p'.rules = [] ∧ related p p' := by
  induction fuel generalizing ii p before after with
  | zero =>
    unfold correctInsns at corrected
    split at corrected
    · obtain rfl : p = p' := by simpa using corrected
      exact ⟨rules, refl p⟩
    · cases corrected
  | succ fuel ih =>
    unfold correctInsns at corrected
    have current : p.b.insns[ii]? = after.head? := by
      rw [position.split, ← position.length, List.getElem?_append_right (Nat.le_refl _),
        Nat.sub_self, List.head?_eq_getElem?]
    rw [current] at corrected
    cases after with
    | nil =>
      obtain rfl : p = p' := by simpa using corrected
      exact ⟨rules, refl p⟩
    | cons i after =>
      obtain ⟨q, first, others⟩ := Result.bind_eq_ok.mp corrected
      have outcome := correctInsn_outcome rules first
      obtain ⟨sameRules, _, _, position'⟩ := outcome.advances position
      obtain ⟨noRules, rest⟩ := ih (sameRules.trans rules) position' others
      exact ⟨noRules, trans (step position outcome) rest⟩

private theorem insertBefore_corrects (below : ∀ n ∈ p.b.insns, n.Below p.ri)
    (position : At ii p before (i :: after)) {idx : Fin 2} {new : Insn}
    (inserted : insertBefore p ii i idx new = .ok p') (hidden : observed new.type = false)
    (belowNew : new.Below (p.ri + 1))
    (loads : ∀ state : State W M,
      S.exec new state = state.write (.tmp p.ri) (S.value state (i.input idx))) :
    Corrects S p p' := by
  obtain ⟨insns, _, ri⟩ := insertBefore_split position.split position.length inserted
  have split := position.split
  have belowI := below i (by simp [split])
  have belowAfter : ∀ n ∈ after, n.Below p.ri := fun n member => below n (by simp [split, member])
  refine ⟨insertBefore_keeps inserted, by omega, ?_, ?_⟩
  · rw [ri]
    intro n member
    simp only [insns, List.mem_append, List.mem_cons, List.not_mem_nil, or_false] at member
    rcases member with (old | rfl | rfl) | old
    · exact (below n (by simp [split, old])).mono (Nat.le_succ _)
    · exact belowNew
    · exact belowI.setInput idx
    · exact (belowAfter n old).mono (Nat.le_succ _)
  · have middle := (spill_replaces belowI idx hidden loads).middle before belowAfter
    rw [split, insns]
    simpa using middle

/-- One visit of an instruction. -/
theorem Outcome.corrects (lawful : S.Lawful) (below : ∀ n ∈ p.b.insns, n.Below p.ri)
    (position : At ii p before (i :: after)) (outcome : Outcome p ii i p') : Corrects S p p' := by
  have keeps := outcome.keeps
  have split := position.split
  have belowI := below i (by simp [split])
  cases outcome with
  | same => exact .refl below
  | swapped commutes imm stored =>
    have insns := swapped_eq position stored
    refine ⟨keeps, Nat.le_refl _, ?_, ?_⟩
    · intro n member
      simp only [insns, List.mem_append, List.mem_cons] at member
      rcases member with old | rfl | old
      · exact below n (by simp [split, old])
      · exact ⟨belowI.out, belowI.in1, belowI.in0⟩
      · exact below n (by simp [split, old])
    · have middle := (swap_replaces (S := S) lawful commutes).middle before
        fun n member => below n (by rw [split]; exact List.mem_append_right _ (.tail _ member))
      simp only [insns]
      rw [split]
      simpa using middle
  | spilledRef idx ref _ inserted =>
    have isRef : ∃ s, i.input idx = .ref s := by
      cases input : i.input idx <;> simp [input, Val.isRef] at ref ⊢
    obtain ⟨s, isRef⟩ := isRef
    rw [spillRef, isRef] at inserted
    exact insertBefore_corrects below position inserted rfl
      ⟨Nat.lt_succ_self _, trivial, trivial⟩
      fun state => by rw [exec_addr lawful, isRef, Semantics.value_ref]
  | spilledImm idx imm _ inserted =>
    have belowInput := (belowI.input idx).mono (Nat.le_succ p.ri)
    exact insertBefore_corrects below position inserted rfl
      ⟨Nat.lt_succ_self _, belowInput, trivial⟩ fun state => exec_copy lawful _ _ state
  | addressed addr => exact absurd addr (position.noAddr i List.mem_cons_self)

/-- The loop over the instructions. -/
theorem correctInsns_corrects (lawful : S.Lawful) {fuel : Nat} (rules : p.rules = [])
    (below : ∀ n ∈ p.b.insns, n.Below p.ri) (noAddr : ∀ n ∈ p.b.insns, n.type ≠ .addr)
    (corrected : correctInsns fuel 0 p = .ok p') : p'.rules = [] ∧ Corrects S p p' := by
  have start : At 0 p [] p.b.insns := ⟨rfl, rfl, noAddr⟩
  obtain ⟨noRules, corrects⟩ := correctInsns_induct
    (fun p p' => (∀ n ∈ p.b.insns, n.Below p.ri) → Corrects S p p')
    (fun _ below => .refl below)
    (fun first second below => (first below).trans (second (first below).below))
    (fun position outcome below => outcome.corrects lawful below position) rules start corrected
  exact ⟨noRules, corrects below⟩

end Step

section Cmp

variable {p : Pass}

/-- The state in which a block's comparison is evaluated. -/
def compareState (S : Semantics W M) (b : Blk) (state : State W M) : State W M :=
  ((S.interp observed).perform b.insns state).2

/-- A block with a copy of `v` into temporary `t` behind its instructions. -/
def copied (b : Blk) (t : Nat) (v : Val) : Blk := insadd b .copy .i27 (.tmp t) v .noclass 0

private theorem compareState_copied (lawful : S.Lawful) (b : Blk) (t : Nat) (v : Val)
    (state : State W M) :
    compareState S (copied b t v) state =
      (compareState S b state).write (.tmp t) (S.value (compareState S b state) v) := by
  have executed := exec_copy lawful t v (compareState S b state)
  simp only [compareState, copied, insadd, Interp.perform_append, Interp.perform_cons,
    Interp.perform_nil] at executed ⊢
  exact executed

private theorem copied_replaces (lawful : S.Lawful) (b : Blk) (t : Nat) (v : Val) :
    Replaces S observed t b.insns (copied b t v).insns := by
  intro state
  constructor
  · simp [copied, insadd, insnCreate, Interp.perform_append, Semantics.interp, observed]
  · have written := compareState_copied lawful b t v state
    unfold compareState at written
    rw [written]
    exact (Agree.refl t _).write_fresh (Nat.le_refl t) _

private theorem copied_below {b : Blk} {t : Nat} {v : Val} (below : ∀ n ∈ b.insns, n.Below t)
    (belowV : v.Below t) : ∀ n ∈ (copied b t v).insns, n.Below (t + 1) := by
  intro n member
  simp only [copied, insadd, List.mem_append, List.mem_singleton] at member
  rcases member with old | rfl
  · exact (below n old).mono (Nat.le_succ t)
  · exact ⟨Nat.lt_succ_self t, belowV.mono (Nat.le_succ t), trivial⟩

/-- What correcting a block leaves of its behaviour: the instructions do the same on the
temporaries below `ri`, the first operand of the comparison keeps its value, and so does
the second unless it was an immediate. Then it has the value of the first. -/
structure BlkCorrects (S : Semantics W M) (ri : Nat) (b b' : Blk) : Prop where
  replaces : Replaces S observed ri b.insns b'.insns
  cmp0 : ∀ state,
    S.value (compareState S b' state) b'.cmp0 = S.value (compareState S b state) b.cmp0
  cmp1 : ∀ state, S.value (compareState S b' state) b'.cmp1 =
    S.value (compareState S b state) (if b.cmp1.isImm then b.cmp0 else b.cmp1)

/-- Correcting `cmp[0]` keeps the values of both operands. -/
theorem correctCmp0_spec (lawful : S.Lawful) (below : p.b.Below p.ri) :
    (correctCmp0 p).b.Below (correctCmp0 p).ri ∧ p.ri ≤ (correctCmp0 p).ri ∧
      (correctCmp0 p).rules = p.rules ∧ (correctCmp0 p).b.cmp1 = p.b.cmp1 ∧
      Replaces S observed p.ri p.b.insns (correctCmp0 p).b.insns ∧
      ∀ state, S.value (compareState S (correctCmp0 p).b state) (correctCmp0 p).b.cmp0 =
        S.value (compareState S p.b state) p.b.cmp0 := by
  unfold correctCmp0
  by_cases imm : p.b.cmp0.isImm
  · rw [if_pos imm]
    refine ⟨⟨copied_below below.insns below.cmp0, Nat.lt_succ_self _,
      below.cmp1.mono (Nat.le_succ _)⟩, Nat.le_succ _, rfl, rfl, copied_replaces lawful _ _ _, ?_⟩
    intro state
    have written := compareState_copied lawful p.b p.ri p.b.cmp0 state
    unfold compareState copied at written
    simp only [compareState, written]
    simp
  · rw [if_neg imm]
    exact ⟨below, Nat.le_refl _, rfl, rfl, .refl _, fun _ => rfl⟩

/-- Correcting `cmp[1]` keeps the value of the first operand, and of the second unless
it is an immediate. -/
theorem correctCmp1_spec (lawful : S.Lawful) (below : p.b.Below p.ri) :
    p.ri ≤ (correctCmp1 p).ri ∧ (correctCmp1 p).rules = p.rules ∧
      BlkCorrects S p.ri p.b (correctCmp1 p).b := by
  unfold correctCmp1
  by_cases imm : p.b.cmp1.isImm
  · rw [if_pos imm]
    have written := compareState_copied lawful p.b p.ri p.b.cmp0
    unfold compareState copied at written
    refine ⟨Nat.le_succ _, rfl, copied_replaces lawful _ _ _, ?_, ?_⟩
    · intro state
      simp only [compareState, written]
      exact ((Agree.refl p.ri _).write_fresh (Nat.le_refl _) _).value below.cmp0
    · intro state
      simp only [compareState, written, imm, if_true]
      simp
  · rw [if_neg imm]
    exact ⟨Nat.le_refl _, rfl, .refl _, fun _ => rfl, fun _ => by rw [if_neg imm]⟩

/-- Correction of a block. -/
theorem correctBlk_corrects (lawful : S.Lawful) {p' : Pass} {fuel : Nat} (rules : p.rules = [])
    (below : p.b.Below p.ri) (noAddr : ∀ n ∈ p.b.insns, n.type ≠ .addr)
    (corrected : correctBlk fuel p = .ok p') :
    p.ri ≤ p'.ri ∧ p'.rules = [] ∧ BlkCorrects S p.ri p.b p'.b := by
  simp only [correctBlk, Result.bind_eq_ok, Result.pure_eq, Except.ok.injEq] at corrected
  obtain ⟨q, first, rfl⟩ := corrected
  obtain ⟨noRules, insns⟩ := correctInsns_corrects (S := S) lawful rules below.insns noAddr first
  have cmps : q.b.cmp0 = p.b.cmp0 ∧ q.b.cmp1 = p.b.cmp1 := by
    rw [insns.keeps]
    exact ⟨rfl, rfl⟩
  have belowQ : q.b.Below q.ri := by
    refine ⟨insns.below, ?_, ?_⟩
    · rw [cmps.1]
      exact below.cmp0.mono insns.grows
    · rw [cmps.2]
      exact below.cmp1.mono insns.grows
  obtain ⟨below0, grows0, rules0, cmp1, replaces0, value0⟩ :=
    correctCmp0_spec (S := S) lawful belowQ
  obtain ⟨grows1, rules1, corrects1⟩ := correctCmp1_spec (S := S) lawful below0
  have replaces : Replaces S observed p.ri p.b.insns (correctCmp0 q).b.insns :=
    insns.replaces.trans insns.grows replaces0
  have first (state : State W M) : S.value (compareState S (correctCmp0 q).b state)
      (correctCmp0 q).b.cmp0 = S.value (compareState S p.b state) p.b.cmp0 := by
    rw [value0, cmps.1]
    exact (insns.replaces state).2.value below.cmp0
  refine ⟨insns.grows.trans (grows0.trans grows1), rules1.trans (rules0.trans noRules),
    replaces.trans (insns.grows.trans grows0) corrects1.replaces, ?_, ?_⟩
  · exact fun state => (corrects1.cmp0 state).trans (first state)
  · intro state
    rw [corrects1.cmp1, cmp1, cmps.2]
    by_cases imm : p.b.cmp1.isImm
    · rw [if_pos imm, if_pos imm, first]
    · rw [if_neg imm, if_neg imm]
      exact (replaces state).2.value below.cmp1

/-- Correction of all blocks. -/
theorem correctBlks_corrects (lawful : S.Lawful) {fuel bound ri ri' : Nat} {blks blks' : List Blk}
    (le : bound ≤ ri) (below : ∀ b ∈ blks, b.Below bound)
    (noAddr : ∀ b ∈ blks, ∀ n ∈ b.insns, n.type ≠ .addr)
    (corrected : correctBlks fuel blks [] ri = .ok (blks', ri')) :
    List.Forall₂ (fun b b' => Rewritten b b' ∧ BlkCorrects S bound b b') blks blks' := by
  induction blks generalizing ri blks' with
  | nil =>
    simp only [correctBlks, Result.pure_eq, Except.ok.injEq, Prod.mk.injEq] at corrected
    obtain ⟨rfl, rfl⟩ := corrected
    exact .nil
  | cons b rest ih =>
    simp only [correctBlks, Result.bind_eq_ok, Result.pure_eq, Except.ok.injEq,
      Prod.mk.injEq, Prod.exists] at corrected
    obtain ⟨p, first, rest', ri'', others, rfl, rfl⟩ := corrected
    obtain ⟨grows, rules, corrects⟩ := correctBlk_corrects (S := S) lawful rfl
      ((below b List.mem_cons_self).mono le) (noAddr b List.mem_cons_self) first
    rw [rules] at others
    exact .cons ⟨correctBlk_rewritten first, corrects.replaces.anti le, corrects.cmp0,
      corrects.cmp1⟩ (ih (le.trans grows) (fun c member => below c (List.mem_cons_of_mem _ member))
        (fun c member => noAddr c (List.mem_cons_of_mem _ member)) others)

end Cmp

section Run

variable {f g : Fn}

/-- `g` has the blocks of `f`, corrected. -/
structure CorrectedBlks (S : Semantics W M) (f g : Fn) : Prop where
  raw : Raw f
  below : ∀ b ∈ f.blks, b.Below f.ntmp
  blks : List.Forall₂ (fun b b' => Rewritten b b' ∧ BlkCorrects S f.ntmp b b') f.blks g.blks

/-- The blocks keep their names. -/
theorem CorrectedBlks.ids (corrected : CorrectedBlks S f g) : g.ids = f.ids :=
  ids_of_sameNode (corrected.blks.imp fun _ _ both => both.1.sameNode)

/-- A block is found corrected under its name. -/
theorem CorrectedBlks.find? (corrected : CorrectedBlks S f g) {id : Nat} {b : Blk}
    (found : f.find? id = some b) :
    ∃ b', g.find? id = some b' ∧ Rewritten b b' ∧ BlkCorrects S f.ntmp b b' :=
  Lists.find?_forall₂ corrected.blks (fun _ _ both => by rw [both.1.sameNode.id]) found

theorem CorrectedBlks.find?_none (corrected : CorrectedBlks S f g) {id : Nat}
    (missing : f.find? id = none) : g.find? id = none := by
  cases found : g.find? id with
  | none => rfl
  | some b' =>
    have listed : id ∈ f.ids := by
      rw [← corrected.ids]
      exact Fn.find?_isSome_iff.mp (by rw [found]; rfl)
    obtain ⟨b, present⟩ := Fn.exists_find? listed
    rw [missing] at present
    cases present

/-- The same place, with states that agree on the temporaries of the original. -/
def Beside (f : Fn) (config config' : Ctrl × State W M) : Prop :=
  config'.1 = config.1 ∧ Agree f.ntmp config.2 config'.2

/-- The branch of the block about to execute does not compare with an immediate, or
comparing its first operand with itself would decide the same. -/
def ComparesSafely (S : Semantics W M) (f : Fn) (config : Ctrl × State W M) : Prop :=
  ∀ id b, config.1 = .block id → f.find? id = some b → b.cmp1.isImm →
    let state := compareState S b config.2
    S.taken b.btype (S.value state b.cmp0) (S.value state b.cmp1) =
      S.taken b.btype (S.value state b.cmp0) (S.value state b.cmp0)

/-- Taking the same edge leads to corresponding places. -/
theorem CorrectedBlks.follow (corrected : CorrectedBlks S f g) {state state' : State W M}
    (agree : Agree f.ntmp state state') (target : Option Nat) :
    Beside f ((S.interp observed).follow f target [] state)
      ((S.interp observed).follow g target [] state') := by
  cases target with
  | none => exact ⟨rfl, agree⟩
  | some id =>
    cases found : f.find? id with
    | none =>
      have missing := corrected.find?_none found
      simp only [Interp.follow, Option.bind_some, found, missing]
      exact ⟨rfl, agree⟩
    | some b =>
      obtain ⟨b', found', rewritten, _⟩ := corrected.find? found
      have empty := corrected.raw.params b (Fn.find?_mem found)
      have empty' : b'.params = [] := by
        rw [rewritten.eq]
        exact empty
      rw [Interp.follow_some found, Interp.follow_some found', empty, empty',
        Interp.assign_nil, Interp.assign_nil]
      exact ⟨rfl, agree⟩

/-- A block and its correction end alike. -/
theorem CorrectedBlks.depart (corrected : CorrectedBlks S f g) {b b' : Blk}
    (member : b ∈ f.blks) (rewritten : Rewritten b b') {state state' : State W M}
    (agree : Agree f.ntmp state state')
    (decides : S.taken b.btype (S.value state' b'.cmp0) (S.value state' b'.cmp1) =
      S.taken b.btype (S.value state b.cmp0) (S.value state b.cmp1)) :
    ((S.interp observed).depart g b' state').1 = ((S.interp observed).depart f b state).1 ∧
      Beside f ((S.interp observed).depart f b state).2
        ((S.interp observed).depart g b' state').2 := by
  have same := rewritten.sameNode
  have args1 : b'.args1 = [] := by
    rw [rewritten.eq]
    exact corrected.raw.args1 b member
  have args2 : b'.args2 = [] := by
    rw [rewritten.eq]
    exact corrected.raw.args2 b member
  have branch := corrected.follow agree b.s2
  have falls := corrected.follow agree b.s1
  by_cases returns : b.btype = .ret
  · rw [Interp.depart_ret returns, Interp.depart_ret (same.btype.trans returns)]
    exact ⟨rfl, rfl, agree⟩
  by_cases jump : b.btype = .j
  · rw [Interp.depart_j jump, Interp.depart_j (same.btype.trans jump), same.s2, args2,
      corrected.raw.args2 b member]
    exact ⟨rfl, branch⟩
  · rw [Interp.depart_cond returns jump,
      Interp.depart_cond (by rwa [same.btype]) (by rwa [same.btype]), same.s1, same.s2,
      args1, args2, corrected.raw.args1 b member, corrected.raw.args2 b member]
    have taken : (S.interp observed).taken b'.btype b'.cmp0 b'.cmp1 state' =
        (S.interp observed).taken b.btype b.cmp0 b.cmp1 state := by
      rw [same.btype]
      exact decides
    rw [taken]
    refine ⟨rfl, ?_⟩
    by_cases decision : (S.interp observed).taken b.btype b.cmp0 b.cmp1 state
    · simpa [decision] using branch
    · simpa [decision] using falls

/-- The corrected function keeps up with the original block by block. -/
theorem CorrectedBlks.lockstep (corrected : CorrectedBlks S f g) :
    Machine.LockstepWhile (ComparesSafely S f) ((S.interp observed).machine f)
      ((S.interp observed).machine g) (Beside f) where
  halts := by
    rintro ⟨ctrl, state⟩ ⟨ctrl', state'⟩ ⟨control, _⟩
    obtain rfl : ctrl' = ctrl := control
    cases ctrl' with
    | block id =>
      cases found : f.find? id with
      | none => simp [Interp.machine, found, corrected.find?_none found]
      | some b =>
        obtain ⟨b', found', _⟩ := corrected.find? found
        simp [Interp.machine, found, found']
    | returned => simp [Interp.machine]
    | stuck => simp [Interp.machine]
  steps := by
    rintro ⟨ctrl, state⟩ ⟨ctrl', state'⟩ events next events' next' ⟨control, agree⟩ safe stepped
      stepped'
    obtain rfl : ctrl' = ctrl := control
    cases ctrl' with
    | block id =>
      cases found : f.find? id with
      | none =>
        simp only [Interp.machine, found, Option.some.injEq, Prod.mk.injEq] at stepped
        simp only [Interp.machine, corrected.find?_none found, Option.some.injEq,
          Prod.mk.injEq] at stepped'
        obtain ⟨rfl, rfl⟩ := stepped
        obtain ⟨rfl, rfl⟩ := stepped'
        exact ⟨rfl, rfl, agree⟩
      | some b =>
        obtain ⟨b', found', rewritten, corrects⟩ := corrected.find? found
        have member := Fn.find?_mem found
        have below := corrected.below b member
        obtain ⟨sameEvents, agreeEnd⟩ := corrects.replaces.from_agree below.insns agree
        have ends : Agree f.ntmp (compareState S b state) (compareState S b state') :=
          (agree.perform below.insns observed).2
        have decides : S.taken b.btype (S.value (compareState S b' state') b'.cmp0)
            (S.value (compareState S b' state') b'.cmp1) =
              S.taken b.btype (S.value (compareState S b state) b.cmp0)
                (S.value (compareState S b state) b.cmp1) := by
          rw [corrects.cmp0, corrects.cmp1, ends.value below.cmp0]
          by_cases imm : b.cmp1.isImm
          · rw [if_pos imm, ends.value below.cmp0]
            exact (safe id b rfl found imm).symm
          · rw [if_neg imm, ends.value below.cmp1]
        have left := corrected.depart member rewritten agreeEnd decides
        rw [Interp.machine_step_block found, Option.some.injEq] at stepped
        rw [Interp.machine_step_block found', Option.some.injEq] at stepped'
        obtain ⟨rfl, rfl⟩ := Prod.mk.injEq .. ▸ stepped
        obtain ⟨rfl, rfl⟩ := Prod.mk.injEq .. ▸ stepped'
        exact ⟨congrArg₂ (· ++ ·) sameEvents left.1, left.2⟩
    | returned => simp [Interp.machine] at stepped
    | stuck => simp [Interp.machine] at stepped

end Run

/-- `count` blocks of `f` from `state` and of `g` from `state'` execute alike: the same
branches, the same values in every instruction but copies, additions and
multiplications, and the same values in the temporaries of `f` behind every block. -/
structure RunsAlike (S : Semantics W M) (f g : Fn) (state state' : State W M) (count : Nat) :
    Prop where
  events : (((S.interp observed).machine g).run count (Interp.entry g, state')).1 =
    (((S.interp observed).machine f).run count (Interp.entry f, state)).1
  control : (((S.interp observed).machine g).run count (Interp.entry g, state')).2.1 =
    (((S.interp observed).machine f).run count (Interp.entry f, state)).2.1
  agree : Agree f.ntmp (((S.interp observed).machine f).run count (Interp.entry f, state)).2.2
    (((S.interp observed).machine g).run count (Interp.entry g, state')).2.2

/-- Where no address is taken, the blocks of a corrected function are corrected. -/
theorem correctedBlks {f g : Fn} (lawful : S.Lawful) (built : Frontend.ParserBuilt f)
    (noAddr : ∀ b ∈ f.blks, ∀ n ∈ b.insns, n.type ≠ .addr) (corrected : Corrected f g) :
    CorrectedBlks S f g := by
  have raw := built.raw
  obtain ⟨_, _, parsed⟩ := built
  obtain ⟨_, built⟩ := Frontend.buildFunction_built parsed
  obtain ⟨fuel, h, ri, returned, rfl⟩ := corrected
  simp only [correct, Result.bind_eq_ok, Result.pure_eq, Except.ok.injEq, Prod.mk.injEq,
    Prod.exists] at returned
  obtain ⟨blks, _, passed, rfl, rfl⟩ := returned
  exact ⟨raw, built.below, correctBlks_corrects lawful (Nat.le_refl _) built.below noAddr passed⟩

/-- Functions with corrected blocks run alike while comparisons are safe. -/
theorem CorrectedBlks.runsAlike {f g : Fn} (blks : CorrectedBlks S f g)
    {state state' : State W M} (agree : Agree f.ntmp state state') {count : Nat}
    (safe : ∀ k < count, ComparesSafely S f
      (((S.interp observed).machine f).run k (Interp.entry f, state)).2) :
    RunsAlike S f g state state' count := by
  have entry : Interp.entry g = Interp.entry f := by
    obtain ⟨first, rest, listed⟩ := List.exists_cons_of_ne_nil blks.raw.nonempty
    have related := blks.blks
    rw [listed] at related
    obtain ⟨first', rest', ⟨rewritten, _⟩, _, listed'⟩ := List.forall₂_cons_left_iff.mp related
    simp [Interp.entry, listed, listed', rewritten.sameNode.id]
  have start : Beside f (Interp.entry f, state) (Interp.entry g, state') := ⟨entry, agree⟩
  obtain ⟨events, control, ends⟩ := blks.lockstep.run start count safe
  exact ⟨events, control, ends⟩

/-- Correction preserves the meaning of a function in every run in which no branch
compares with an immediate, or where comparing with the first operand makes no
difference. -/
theorem correct_preserves {f g : Fn} (built : Frontend.ParserBuilt f)
    (noAddr : ∀ b ∈ f.blks, ∀ n ∈ b.insns, n.type ≠ .addr) (corrected : Corrected f g)
    (lawful : S.Lawful) {state state' : State W M} (agree : Agree f.ntmp state state')
    {count : Nat} (safe : ∀ k < count, ComparesSafely S f
      (((S.interp observed).machine f).run k (Interp.entry f, state)).2) :
    RunsAlike S f g state state' count := by
  have blks : CorrectedBlks S f g := correctedBlks lawful built noAddr corrected
  exact blks.runsAlike agree safe

/-- The loop test compares with a temporary, so it runs as before from zeroed
temporaries. -/
theorem correct_preserves_simpleLoop :
    ∃ f g, Frontend.buildFunction 0 Frontend.simpleLoop = .ok f ∧ Corrected f g ∧
      ∀ count, RunsAlike Semantics.integers f g ⟨fun _ => 0, fun _ => 0, ()⟩
        ⟨fun _ => 0, fun _ => 0, ()⟩ count := by
  have ran : ∃ f g ri, Frontend.buildFunction 0 Frontend.simpleLoop = .ok f ∧
      correct 20 f f.ntmp = .ok (g, ri) ∧
        (∀ b ∈ f.blks, ∀ n ∈ b.insns, n.type ≠ .addr) ∧ ∀ b ∈ f.blks, b.cmp1.isImm = false :=
    ⟨_, _, _, by rfl, by rfl, by decide, by decide⟩
  obtain ⟨f, g, ri, parsed, corrected, noAddr, noImm⟩ := ran
  refine ⟨f, { g with ntmp := ri }, parsed, ⟨20, g, ri, corrected, rfl⟩, fun count => ?_⟩
  refine correct_preserves ⟨0, _, parsed⟩ noAddr ⟨20, g, ri, corrected, rfl⟩
    Semantics.integers_lawful (.refl _ _) ?_
  intro k _ id b _ found imm
  rw [noImm b (Fn.find?_mem found)] at imm
  cases imm

/-- A branch that compares with an immediate. -/
def lessThanFive : Frontend.Function where
  name := "main"
  body := {
    items := [
      { stmt := .plain (.immInt .i27 "x" 1) },
      { stmt := .branch .lt (.id "x") (.int 5) "l" },
      { stmt := .leave [.int 0] },
      { labels := ["l"], stmt := .leave [.int 1] }] }

/-- The corrected function compares `x` with itself and takes the other branch. -/
theorem lessThanFive_differs :
    ∃ f g, Frontend.buildFunction 0 lessThanFive = .ok f ∧ Corrected f g ∧
      (∀ b ∈ f.blks, ∀ n ∈ b.insns, n.type ≠ .addr) ∧
      ¬ RunsAlike Semantics.integers f g ⟨fun _ => 0, fun _ => 0, ()⟩
        ⟨fun _ => 0, fun _ => 0, ()⟩ 1 := by
  have ran : ∃ f g ri, Frontend.buildFunction 0 lessThanFive = .ok f ∧
      correct 20 f f.ntmp = .ok (g, ri) ∧ (∀ b ∈ f.blks, ∀ n ∈ b.insns, n.type ≠ .addr) ∧
        (((Semantics.integers.interp observed).machine f).run 1
          (Interp.entry f, ⟨fun _ => 0, fun _ => 0, ()⟩)).2.1 = .block 3 ∧
        (((Semantics.integers.interp observed).machine { g with ntmp := ri }).run 1
          (Interp.entry { g with ntmp := ri }, ⟨fun _ => 0, fun _ => 0, ()⟩)).2.1 = .block 2 :=
    ⟨_, _, _, by rfl, by rfl, by decide, by rfl, by rfl⟩
  obtain ⟨f, g, ri, parsed, corrected, noAddr, branched, fell⟩ := ran
  refine ⟨f, { g with ntmp := ri }, parsed, ⟨20, g, ri, corrected, rfl⟩, noAddr, ?_⟩
  intro alike
  have same := alike.control
  rw [branched, fell] at same
  cases same

end Qbt.Correct
