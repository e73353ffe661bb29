import Qbt.Abi.ParserShape
import Qbt.Correct.Simulation
import Qbt.Ssa.Simulation

/-!
# Correction and conversion keep the order of calls

`correct` adds plain instructions in front of plain ones and behind blocks that end in
plain code, and `ssa` only renames.
-/

namespace Qbt.Abi

section Correct

open Correct

/-- Instructions of other types are plain where they read and write no register. -/
theorem role_other {n : Insn} (other : n.type.isConvention = false) :
    role n = if n.out.isReg ∨ n.in0.isReg ∨ n.in1.isReg then none else some .plain := by
  unfold role
  cases type : n.type <;> first | rfl | (rw [type] at other; cases other)

/-- An instruction that calls or passes has no reference that `correct` would load. -/
theorem ref_other {n : Insn} {r : Role} (known : role n = some r) {idx : Fin 2}
    (ref : (n.input idx).isRef) (callee : n.type = .call → idx = 1) :
    n.type.isConvention = false := by
  have slot {k : Nat} (named : slot? n = some k) : ¬ n.in1.isRef := by
    unfold slot? at named
    cases in1 : n.in1 <;> simp [in1, Val.isRef] at named ⊢
  have input : n.in0.isRef ∨ n.in1.isRef := by
    obtain rfl | rfl := Insn.input_cases idx
    · exact Or.inl ref
    · exact Or.inr ref
  unfold role at known
  cases type : n.type with
  | param | retval =>
    simp only [type] at known
    split at known
    · rename_i classes
      obtain ⟨k, named, _⟩ := Option.map_eq_some_iff.mp known
      rw [classes.2] at input
      exact absurd (input.resolve_left (by simp [Val.isRef])) (slot named)
    · cases known
  | arg | retarg =>
    simp only [type] at known
    split at known
    · rename_i classes
      obtain ⟨k, named, _⟩ := Option.map_eq_some_iff.mp known
      refine absurd (input.resolve_left ?_) (slot named)
      rcases classes.2 with isTmp | isImm <;> cases in0 : n.in0 <;>
        simp_all [Val.isTmp, Val.isImm, Val.isRef]
    · cases known
  | call =>
    simp only [type] at known
    obtain rfl := callee type
    split at known
    · rename_i classes
      have in1 : n.in1.isRef := ref
      rw [classes.2.2] at in1
      cases in1
    · cases known
  | _ => rfl

/-- Plain instructions may be replaced by others. -/
theorem phaseAfter_replace {start phase : Phase} {before after insns : List Insn} {n : Insn}
    (reached : phaseAfter start (before ++ n :: after) = some phase)
    (plain : role n = some .plain) (others : ∀ m ∈ insns, role m = some .plain)
    (some' : insns ≠ []) : phaseAfter start (before ++ insns ++ after) = some phase := by
  rw [phaseAfter_append] at reached
  rw [List.append_assoc, phaseAfter_append]
  cases here : phaseAfter start before with
  | none => simp [here] at reached
  | some middle =>
    rw [here, Option.bind_some, phaseAfter_cons, plain, Option.bind_some] at reached
    rw [Option.bind_some, phaseAfter_append]
    obtain ⟨m, rest, rfl⟩ := List.exists_cons_of_ne_nil some'
    rw [phaseAfter_cons, others m List.mem_cons_self, Option.bind_some]
    cases next : Phase.next middle .plain with
    | none => simp [next] at reached
    | some behind =>
      have plainCode : behind = .args 0 := by
        unfold Phase.next at next
        split at next <;> simp_all
      subst behind
      rw [next, Option.bind_some] at reached
      rw [Option.bind_some,
        phaseAfter_plain fun k member => others k (List.mem_cons_of_mem _ member),
        Option.bind_some, reached]

/-- Every instruction of an ordered list has a role. -/
theorem role_known {start phase : Phase} {before after : List Insn} {n : Insn}
    (reached : phaseAfter start (before ++ n :: after) = some phase) : ∃ r, role n = some r := by
  rw [phaseAfter_append] at reached
  cases here : phaseAfter start before with
  | none => simp [here] at reached
  | some middle =>
    cases known : role n with
    | none => simp [here, phaseAfter_cons, known] at reached
    | some r => exact ⟨r, rfl⟩

/-- A plain instruction stays plain when an input is loaded into a temporary, and so is
the instruction that loads it. -/
theorem spilled_plain {i : Insn} {ri : Nat} (other : i.type.isConvention = false)
    (plain : role i = some .plain) (idx : Fin 2) {type : InsnType}
    (loads : type.isConvention = false) :
    ∀ m ∈ [insnCreate type .i27 (.tmp ri) (i.input idx) .noclass 0, i.setInput idx (.tmp ri)],
      role m = some .plain := by
  have classes : ¬ (i.out.isReg ∨ i.in0.isReg ∨ i.in1.isReg) := by
    intro reg
    rw [role_other other, if_pos reg] at plain
    cases plain
  simp only [not_or] at classes
  intro m member
  simp only [List.mem_cons, List.not_mem_nil, or_false] at member
  rcases member with rfl | rfl
  · rw [role_other loads]
    match idx with
    | 0 => simp [insnCreate, Insn.input, classes]
    | 1 => simp [insnCreate, Insn.input, classes]
  · rw [role_other (by rw [Insn.type_setInput]; exact other)]
    match idx with
    | 0 => simp [Insn.setInput, classes]
    | 1 => simp [Insn.setInput, classes]

/-- A visit of an instruction keeps the order of the calls. -/
theorem outcome_phase {p p' : Pass} {ii : Nat} {i : Insn} {before after : List Insn}
    (position : At ii p before (i :: after)) (outcome : Outcome p ii i p') {phase : Phase}
    (reached : phaseAfter .params p.b.insns = some phase) :
    phaseAfter .params p'.b.insns = some phase := by
  have reached' := reached
  rw [position.split] at reached'
  obtain ⟨r, known⟩ := role_known reached'
  have plain (other : i.type.isConvention = false) : role i = some .plain := by
    rw [role_other other] at known ⊢
    split at known
    · cases known
    · rename_i classes
      rw [if_neg classes]
  have spilled (other : i.type.isConvention = false) {idx : Fin 2} {type : InsnType}
      (loads : type.isConvention = false)
      (inserted : insertBefore p ii i idx
        (insnCreate type .i27 (.tmp p.ri) (i.input idx) .noclass 0) = .ok p') :
      phaseAfter .params p'.b.insns = some phase := by
    rw [(insertBefore_split position.split position.length inserted).1]
    exact phaseAfter_replace reached' (plain other) (spilled_plain other (plain other) idx loads)
      (by simp)
  cases outcome with
  | same => exact reached
  | addressed _ _ _ => exact reached
  | spilledRef idx ref callee inserted => exact spilled (ref_other known ref callee) rfl inserted
  | spilledImm idx imm other inserted => exact spilled other rfl inserted
  | swapped commutes imm stored =>
    have other : i.type.isConvention = false := by
      rcases commutes with type | type <;> rw [type] <;> rfl
    have exchanged : ∀ m ∈ [{ i with in0 := i.in1, in1 := i.in0 }], role m = some .plain := by
      intro m member
      rw [List.mem_singleton.mp member]
      have same := plain other
      rw [role_other other] at same
      rw [role_other (n := { i with in0 := i.in1, in1 := i.in0 }) other]
      simpa [or_comm (a := i.in1.isReg = true)] using same
    have replaced := phaseAfter_replace reached' (plain other) exchanged (by simp)
    simpa [swapped_eq position stored] using replaced

/-- A copy may be added behind a block that compares with an immediate. -/
theorem ordered_copied {b b' : Blk} {t : Nat} {v : Val} (ordered : Ordered b)
    (compares : b.cmp0.isImm ∨ b.cmp1.isImm) (noReg : v.isReg = false)
    (insns : b'.insns = (copied b t v).insns) : Ordered b' := by
  obtain ⟨phase, reached, ends⟩ := ordered
  have plain : role (insnCreate .copy .i27 (.tmp t) v .noclass 0) = some .plain := by
    rw [role_other rfl]
    simp [insnCreate, noReg]
  have next : Phase.next phase .plain = some (.args 0) := by
    cases phase with
    | params => rfl
    | args count =>
      obtain rfl : count = 0 := ends
      rfl
    | results => exact absurd compares (by simp [ends.1, ends.2])
    | returns count => exact absurd compares (by simp [ends.2.1, ends.2.2])
  refine ⟨.args 0, ?_, rfl⟩
  rw [insns]
  simp [copied, insadd, phaseAfter_append, reached, phaseAfter_cons, plain, next]

/-- Correction keeps the order of a block's calls. -/
theorem correctBlk_ordered {p p' : Pass} {fuel : Nat} (rules : p.rules = [])
    (noAddr : ∀ n ∈ p.b.insns, n.type ≠ .addr) (noReg : p.b.cmp0.isReg = false)
    (corrected : correctBlk fuel p = .ok p') (ordered : Ordered p.b) :
    p'.rules = [] ∧ Ordered p'.b := by
  simp only [correctBlk, Result.bind_eq_ok, Result.pure_eq, Except.ok.injEq] at corrected
  obtain ⟨q, first, rfl⟩ := corrected
  have start : At 0 p [] p.b.insns := ⟨rfl, rfl, noAddr⟩
  have keeps := correctInsns_keeps first
  obtain ⟨noRules, kept⟩ := correctInsns_induct
    (fun p p' => ∀ phase, phaseAfter .params p.b.insns = some phase →
      phaseAfter .params p'.b.insns = some phase)
    (fun _ _ reached => reached) (fun first second phase reached => second _ (first _ reached))
    (fun position outcome phase reached => outcome_phase position outcome reached)
    rules start first
  have orderedQ : Ordered q.b := by
    obtain ⟨phase, reached, ends⟩ := ordered
    refine ⟨phase, kept phase reached, ?_⟩
    rw [keeps]
    cases phase <;> exact ends
  have noRegQ : q.b.cmp0.isReg = false := by
    rw [keeps]
    exact noReg
  have cmp0 : Ordered (correctCmp0 q).b ∧ (correctCmp0 q).b.cmp0.isReg = false ∧
      (correctCmp0 q).rules = q.rules := by
    unfold correctCmp0
    by_cases imm : q.b.cmp0.isImm
    · rw [if_pos imm]
      exact ⟨ordered_copied orderedQ (Or.inl imm) noRegQ rfl, rfl, rfl⟩
    · rw [if_neg imm]
      exact ⟨orderedQ, noRegQ, rfl⟩
  unfold correctCmp1
  by_cases imm : (correctCmp0 q).b.cmp1.isImm
  · rw [if_pos imm]
    exact ⟨cmp0.2.2.trans noRules, ordered_copied cmp0.1 (Or.inr imm) cmp0.2.1 rfl⟩
  · rw [if_neg imm]
    exact ⟨cmp0.2.2.trans noRules, cmp0.1⟩

/-- A visit of an instruction adds no parameter. -/
theorem outcome_readsParams {p p' : Pass} {ii : Nat} {i : Insn} {before after : List Insn}
    (position : At ii p before (i :: after)) (outcome : Outcome p ii i p')
    (reads : ReadsParams p'.b.insns) : ReadsParams p.b.insns := by
  obtain ⟨n, member, isParam⟩ := reads
  have current : i ∈ p.b.insns := by simp [position.split]
  have spilled {idx : Fin 2} {new : Insn} (other : new.type ≠ .param)
      (inserted : insertBefore p ii i idx new = .ok p') : ReadsParams p.b.insns := by
    simp only [(insertBefore_split position.split position.length inserted).1, List.mem_append,
      List.mem_cons, List.not_mem_nil, or_false] at member
    rcases member with (old | rfl | rfl) | old
    · exact ⟨n, by simp [position.split, old], isParam⟩
    · exact absurd isParam other
    · exact ⟨i, current, by rwa [Insn.type_setInput] at isParam⟩
    · exact ⟨n, by simp [position.split, old], isParam⟩
  cases outcome with
  | same => exact ⟨n, member, isParam⟩
  | addressed _ _ _ => exact ⟨n, member, isParam⟩
  | spilledRef _ _ _ inserted => exact spilled (by simp [insnCreate]) inserted
  | spilledImm _ _ _ inserted => exact spilled (by simp [insnCreate]) inserted
  | swapped _ _ stored =>
    simp only [swapped_eq position stored, List.mem_append, List.mem_cons] at member
    rcases member with old | rfl | old
    · exact ⟨n, by simp [position.split, old], isParam⟩
    · exact ⟨i, current, isParam⟩
    · exact ⟨n, by simp [position.split, old], isParam⟩

private theorem correctBlk_readsParams {p p' : Pass} {fuel : Nat} (rules : p.rules = [])
    (noAddr : ∀ n ∈ p.b.insns, n.type ≠ .addr) (corrected : correctBlk fuel p = .ok p')
    (reads : ReadsParams p'.b.insns) : ReadsParams p.b.insns := by
  simp only [correctBlk, Result.bind_eq_ok, Result.pure_eq, Except.ok.injEq] at corrected
  obtain ⟨q, first, rfl⟩ := corrected
  have start : At 0 p [] p.b.insns := ⟨rfl, rfl, noAddr⟩
  have kept := (correctInsns_induct
    (fun p p' => ReadsParams p'.b.insns → ReadsParams p.b.insns)
    (fun _ reads => reads) (fun first second reads => first (second reads))
    (fun position outcome reads => outcome_readsParams position outcome reads)
    rules start first).2
  -- The copies behind the block read no parameter.
  have copies {b : Blk} {t : Nat} {v : Val} (reads : ReadsParams (copied b t v).insns) :
      ReadsParams b.insns := by
    obtain ⟨n, member, isParam⟩ := reads
    simp only [copied, insadd, List.mem_append, List.mem_singleton] at member
    rcases member with old | rfl
    · exact ⟨n, old, isParam⟩
    · cases isParam
  have cmp1 : ReadsParams (correctCmp0 q).b.insns := by
    unfold correctCmp1 at reads
    by_cases imm : (correctCmp0 q).b.cmp1.isImm
    · rw [if_pos imm] at reads
      exact copies reads
    · rwa [if_neg imm] at reads
  apply kept
  unfold correctCmp0 at cmp1
  by_cases imm : q.b.cmp0.isImm
  · rw [if_pos imm] at cmp1
    exact copies cmp1
  · rwa [if_neg imm] at cmp1

/-- What correction compares with instead is no register either. -/
theorem correctBlk_cmps {p p' : Pass} {fuel : Nat} (corrected : correctBlk fuel p = .ok p')
    (noReg : p.b.cmp0.isReg = false ∧ p.b.cmp1.isReg = false) :
    p'.b.cmp0.isReg = false ∧ p'.b.cmp1.isReg = false := by
  simp only [correctBlk, Result.bind_eq_ok, Result.pure_eq, Except.ok.injEq] at corrected
  obtain ⟨q, first, rfl⟩ := corrected
  have cmps : q.b.cmp0 = p.b.cmp0 ∧ q.b.cmp1 = p.b.cmp1 := by
    rw [correctInsns_keeps first]
    exact ⟨rfl, rfl⟩
  have cmp0 : (correctCmp0 q).b.cmp0.isReg = false ∧ (correctCmp0 q).b.cmp1.isReg = false := by
    unfold correctCmp0
    split
    · exact ⟨rfl, (congrArg Val.isReg cmps.2).trans noReg.2⟩
    · simpa [cmps.1, cmps.2] using noReg
  unfold correctCmp1
  split
  · exact ⟨cmp0.1, rfl⟩
  · exact cmp0

/-- What correction keeps of a block's calls. -/
structure KeepsCalls (b b' : Blk) : Prop where
  rewritten : Rewritten b b'
  cmps : b'.cmp0.isReg = false ∧ b'.cmp1.isReg = false
  ordered : Ordered b → Ordered b'
  params : ReadsParams b'.insns → ReadsParams b.insns

private theorem correctBlks_keepsCalls {fuel bound ri ri' : Nat} {blks blks' : List Blk}
    (below : ∀ b ∈ blks, b.Below bound)
    (noAddr : ∀ b ∈ blks, ∀ n ∈ b.insns, n.type ≠ .addr) (ordered : ∀ b ∈ blks, Ordered b)
    (corrected : correctBlks fuel blks [] ri = .ok (blks', ri')) :
    List.Forall₂ KeepsCalls blks blks' := by
  induction blks generalizing ri blks' with
  | nil =>
    simp only [correctBlks, Result.pure_eq, Except.ok.injEq, Prod.mk.injEq] at corrected
    obtain ⟨rfl, rfl⟩ := corrected
    exact .nil
  | cons b rest ih =>
    simp only [correctBlks, Result.bind_eq_ok, Result.pure_eq, Except.ok.injEq,
      Prod.mk.injEq, Prod.exists] at corrected
    obtain ⟨p, first, rest', ri'', others, rfl, rfl⟩ := corrected
    have noReg : b.cmp0.isReg = false ∧ b.cmp1.isReg = false :=
      ⟨(below b List.mem_cons_self).cmp0.isReg, (below b List.mem_cons_self).cmp1.isReg⟩
    obtain ⟨rules, orderedB⟩ := correctBlk_ordered rfl (noAddr b List.mem_cons_self) noReg.1 first
      (ordered b List.mem_cons_self)
    rw [show p.rules = [] from rules] at others
    exact .cons ⟨correctBlk_rewritten first, correctBlk_cmps first noReg, fun _ => orderedB,
      correctBlk_readsParams rfl (noAddr b List.mem_cons_self) first⟩
      (ih (fun c member => below c (List.mem_cons_of_mem _ member))
        (fun c member => noAddr c (List.mem_cons_of_mem _ member))
        (fun c member => ordered c (List.mem_cons_of_mem _ member)) others)

/-- Corrected functions call in order. -/
theorem corrected_callShape {f g : Fn} (built : Frontend.ParserBuilt f)
    (noAddr : ∀ b ∈ f.blks, ∀ n ∈ b.insns, n.type ≠ .addr)
    (few : ∀ b ∈ f.blks, InRegisters b.insns) (corrected : Corrected f g) : CallShape g := by
  obtain ⟨_, source, parsed⟩ := built
  obtain ⟨chunks, built⟩ := Frontend.buildFunction_built parsed
  have shape := built_callShape built few
  obtain ⟨fuel, h, ri, returned, rfl⟩ := corrected
  simp only [correct, Result.bind_eq_ok, Result.pure_eq, Except.ok.injEq, Prod.mk.injEq,
    Prod.exists] at returned
  obtain ⟨blks, _, passed, rfl, rfl⟩ := returned
  have kept := correctBlks_keepsCalls built.below noAddr shape.blocks passed
  have nodes := kept.imp fun _ _ keeps => keeps.rewritten.sameNode
  have find? {id : Nat} {b' : Blk} (found : ({ f with blks } : Fn).find? id = some b') :
      ∃ b, f.find? id = some b ∧ KeepsCalls b b' :=
    Lists.find?_forall₂ kept.flip (fun _ _ keeps => by rw [keeps.rewritten.sameNode.id]) found
  exact {
    blocks := by
      intro b' member
      obtain ⟨b, member', keeps⟩ := Lists.mem_of_forall₂ kept member
      exact keeps.ordered (shape.blocks b member')
    params := by
      rintro b' member reads id ⟨from', found, edge⟩
      obtain ⟨b, member', keeps⟩ := Lists.mem_of_forall₂ kept member
      obtain ⟨from'', found', keeps'⟩ := find? found
      refine shape.params b member' (keeps.params reads) id ⟨from'', found', ?_⟩
      rw [keeps'.rewritten.sameNode.s1, keeps'.rewritten.sameNode.s2,
        keeps.rewritten.sameNode.id] at edge
      exact edge
    cmps := by
      intro b' member
      obtain ⟨b, _, keeps⟩ := Lists.mem_of_forall₂ kept member
      exact keeps.cmps }

end Correct

section Ssa

open Ssa

/-- Operands of one class, and equal unless they are temporaries. -/
def SameClass (v v' : Val) : Prop := (∃ t u, v = .tmp t ∧ v' = .tmp u) ∨ v' = v

/-- Renaming a use leaves the class of the value as it is. -/
theorem renameUse_class {rmap : List Val} {v v' : Val} (renamed : renameUse rmap v = .ok v') :
    SameClass v v' := by
  unfold renameUse at renamed
  by_cases isTmp : v.isTmp
  · rw [if_pos isTmp] at renamed
    obtain ⟨t, u, rfl, rfl, _⟩ := rewriteTmp_eq_ok.mp renamed
    exact Or.inl ⟨t, u, rfl, rfl⟩
  · rw [if_neg isTmp, Result.pure_eq, Except.ok.injEq] at renamed
    exact Or.inr renamed.symm

/-- Renaming an output leaves the class of the value as it is. -/
theorem renameOut_class {r r' : Renaming} {v v' : Val} (renamed : renameOut r v = .ok (r', v')) :
    SameClass v v' := by
  unfold renameOut at renamed
  by_cases isTmp : v.isTmp
  · rw [if_pos isTmp] at renamed
    obtain ⟨t, rfl, rfl, _⟩ := renameDef_eq_ok.mp renamed
    exact Or.inl ⟨t, _, rfl, rfl⟩
  · rw [if_neg isTmp, Result.pure_eq, Except.ok.injEq, Prod.mk.injEq] at renamed
    exact Or.inr renamed.2.symm

namespace SameClass

variable {v v' : Val}

theorem isTmp (same : SameClass v v') : v'.isTmp = v.isTmp := by
  rcases same with ⟨t, u, rfl, rfl⟩ | rfl <;> rfl

theorem isReg (same : SameClass v v') : v'.isReg = v.isReg := by
  rcases same with ⟨t, u, rfl, rfl⟩ | rfl <;> rfl

theorem isImm (same : SameClass v v') : v'.isImm = v.isImm := by
  rcases same with ⟨t, u, rfl, rfl⟩ | rfl <;> rfl

theorem isRef (same : SameClass v v') : v'.isRef = v.isRef := by
  rcases same with ⟨t, u, rfl, rfl⟩ | rfl <;> rfl

theorem noclass_iff (same : SameClass v v') : v' = .noclass ↔ v = .noclass := by
  rcases same with ⟨t, u, rfl, rfl⟩ | rfl <;> simp

end SameClass

/-- The role of an instruction depends on the classes of its operands only. -/
theorem role_class {n n' : Insn} (type : n'.type = n.type) (out : SameClass n.out n'.out)
    (in0 : SameClass n.in0 n'.in0) (in1 : SameClass n.in1 n'.in1) : role n' = role n := by
  have slot : slot? n' = slot? n := by
    unfold slot?
    rcases in1 with ⟨t, u, old, new⟩ | same
    · rw [old, new]
    · rw [same]
  simp only [role, type, slot, out.isTmp, out.isReg, out.noclass_iff, in0.isTmp, in0.isReg,
    in0.isImm, in0.isRef, in0.noclass_iff, in1.isReg, in1.noclass_iff]

private theorem renameInsn_role {r r' : Renaming} {n n' : Insn}
    (renamed : renameInsn r n = .ok (r', n')) : n'.type = n.type ∧ role n' = role n := by
  obtain ⟨in0, first, in1, second, out, defined, rfl⟩ := renameInsn_eq_ok.mp renamed
  exact ⟨rfl, role_class rfl (renameOut_class defined) (renameUse_class first)
    (renameUse_class second)⟩

private theorem renameInsns_phase {r r' : Renaming} {insns insns' : List Insn}
    (renamed : renameInsns r insns = .ok (r', insns')) :
    (∀ phase, phaseAfter phase insns' = phaseAfter phase insns) ∧
      (ReadsParams insns' → ReadsParams insns) := by
  induction insns generalizing r insns' with
  | nil =>
    obtain ⟨rfl, rfl⟩ := renameInsns_nil_eq_ok.mp renamed
    exact ⟨fun _ => rfl, id⟩
  | cons n rest ih =>
    obtain ⟨next, n', first, rest', others, rfl⟩ := renameInsns_cons_eq_ok.mp renamed
    obtain ⟨type, sameRole⟩ := renameInsn_role first
    obtain ⟨phases, params⟩ := ih others
    refine ⟨fun phase => ?_, ?_⟩
    · simp only [phaseAfter_cons, sameRole, phases]
    · rintro ⟨m, member, isParam⟩
      rcases List.mem_cons.mp member with rfl | old
      · exact ⟨n, List.mem_cons_self, by rwa [type] at isParam⟩
      · obtain ⟨m', member', isParam'⟩ := params ⟨m, old, isParam⟩
        exact ⟨m', List.mem_cons_of_mem _ member', isParam'⟩

/-- A block whose calls are in order and whose parameters and arguments are temporaries. -/
structure BlkForm (b : Blk) : Prop where
  ordered : Ordered b
  params : ∀ p ∈ b.params, p.isTmp
  args1 : ∀ a ∈ b.args1, a.isTmp
  args2 : ∀ a ∈ b.args2, a.isTmp
  cmp0 : b.cmp0.isReg = false
  cmp1 : b.cmp1.isReg = false

/-- The form in which `abi0` receives a function. -/
structure SsaForm (f : Fn) : Prop where
  blks : ∀ b ∈ f.blks, BlkForm b
  params : ∀ b ∈ f.blks, ReadsParams b.insns → ∀ id, ¬ Edge f id b.id

/-- Only temporaries are rewritten, to temporaries. -/
theorem rewriteTmps_temps {rmap args args' : List Val}
    (renamed : args.mapM (rewriteTmp rmap) = .ok args') : ∀ a ∈ args', a.isTmp := by
  intro a member
  obtain ⟨_, _, rewrote⟩ := Lists.mem_of_forall₂ (Result.mapM_eq_ok.mp renamed) member
  obtain ⟨_, u, _, rfl, _⟩ := rewriteTmp_eq_ok.mp rewrote
  rfl

/-- A renamed block is in the form. -/
theorem renamed_form {b b' : Blk} (renamed : RenamedTo b b') (ordered : Ordered b)
    (cmp0 : b.cmp0.isReg = false) (cmp1 : b.cmp1.isReg = false) :
    BlkForm b' ∧ (ReadsParams b'.insns → ReadsParams b.insns) := by
  have params := renamed.params.2.2
  have node := renamed.sameNode
  obtain ⟨i, i', renamed⟩ := renamed
  obtain ⟨_, _, _, _, insns, renamedInsns, c0, renamed0, c1, renamed1, args1, renamedArgs1,
    args2, renamedArgs2, rfl, _⟩ := renameTemps_eq_ok.mp renamed
  obtain ⟨phases, reads⟩ := renameInsns_phase renamedInsns
  have class0 := renameUse_class renamed0
  have class1 := renameUse_class renamed1
  refine ⟨⟨?_, params, rewriteTmps_temps renamedArgs1, rewriteTmps_temps renamedArgs2,
    class0.isReg.trans cmp0, class1.isReg.trans cmp1⟩, reads⟩
  obtain ⟨phase, reached, ends⟩ := ordered
  refine ⟨phase, (phases .params).trans reached, ?_⟩
  cases phase with
  | params => trivial
  | args count => exact ends
  | results => simpa only [Phase.Ends, class0.isImm, class1.isImm] using ends
  | returns count => simpa only [Phase.Ends, class0.isImm, class1.isImm, Blk.isReturn] using ends

/-- A converted function is in the form `abi0` receives. -/
theorem converted_form {f h : Fn} {root : Nat} (converted : Converted f h root)
    (shape : CallShape f) : SsaForm h := by
  obtain ⟨i, i', renamed⟩ := converted.renamed
  have named := renameBlks_renamed renamed
  exact {
    blks := by
      intro b' member
      obtain ⟨b, member', same⟩ := Lists.mem_of_forall₂ named member
      obtain ⟨b₀, listed, rfl⟩ := mem_collected member'
      exact (renamed_form same (shape.blocks b₀ listed) (shape.cmps b₀ listed).1
        (shape.cmps b₀ listed).2).1
    params := by
      rintro b' member reads id ⟨from', found, edge⟩
      obtain ⟨b, member', same⟩ := Lists.mem_of_forall₂ named member
      obtain ⟨b₀, listed, rfl⟩ := mem_collected member'
      have readsOriginal := (renamed_form same (shape.blocks b₀ listed) (shape.cmps b₀ listed).1
        (shape.cmps b₀ listed).2).2 reads
      have found' : ∃ c, (collected f root).find? id = some c ∧ RenamedTo c from' :=
        Lists.find?_forall₂ named.flip
          (fun b' b (same : RenamedTo b b') => by rw [same.sameNode.id]) found
      obtain ⟨c, foundC, sameC⟩ := found'
      obtain ⟨c₀, listedC, rfl⟩ := mem_collected (Fn.find?_mem foundC)
      have sameId : (collect f root c₀).id = id := Fn.find?_id foundC
      have sameId : c₀.id = id := sameId
      refine shape.params b₀ listed readsOriginal id
        ⟨c₀, sameId ▸ Fn.find?_of_mem converted.raw.nodup listedC, ?_⟩
      rw [sameC.sameNode.s1, sameC.sameNode.s2, same.sameNode.id] at edge
      exact edge }

end Ssa

end Qbt.Abi
