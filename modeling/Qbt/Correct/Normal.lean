import Qbt.Correct.NoRegisters
import Qbt.Correct.Visits

/-!
# The normal form of operands

The printers name registers where they expect them, so `correct` has to move immediates and
symbol references out of these operands. It does, except where both operands of an addition
or a multiplication are immediates: it exchanges them and does not look at them again.
-/

namespace Qbt

/-- The operators with two inputs. -/
def InsnType.isBinary : InsnType → Bool
  | .add | .mul | .sub | .div | .rem | .lshift | .rshift
  | .lt | .le | .gt | .ge | .eq | .ne => true
  | _ => false

/-- Immediates and symbol references stand only where the printers accept them. -/
structure Insn.Normal (n : Insn) : Prop where
  first : n.type.isBinary → n.in0.isImm = false ∧ n.in0.isRef = false
  stored : n.type = .store → n.in1.isImm = false ∧ n.in1.isRef = false
  ref0 : n.type ≠ .call → n.type ≠ .addr → n.in0.isRef = false
  ref1 : n.in1.isRef = false

/-- The operand normal form of a block. -/
structure Blk.Normal (b : Blk) : Prop where
  insns : ∀ n ∈ b.insns, n.Normal
  cmp0 : b.cmp0.isImm = false
  cmp1 : b.cmp1.isImm = false

/-- An addition or a multiplication of two immediates. -/
structure Insn.BothImm (n : Insn) : Prop where
  type : n.type = .add ∨ n.type = .mul
  in0 : n.in0.isImm
  in1 : n.in1.isImm

namespace Correct

section Visited

variable {v : Visit} {m : Insn} {rest : List Insn} {rules : List Val} {ri : Nat}

/-- The instruction that loads an input is normal when it loads no reference but an
address. -/
private theorem normal_loading {type : InsnType} {v : Val} {t : Nat}
    (kind : type = .load ∨ type = .addr ∨ type = .copy) (ref : type ≠ .addr → v.isRef = false) :
    (insnCreate type .i27 (.tmp t) v .noclass 0).Normal where
  first binary := by rcases kind with rfl | rfl | rfl <;> cases binary
  stored store := by rcases kind with rfl | rfl | rfl <;> cases store
  ref0 _ noAddr := ref noAddr
  ref1 := rfl

/-- Where nothing is loaded, an operator or a STORE has an immediate in a wrong place only
as an addition or a multiplication. -/
private theorem positional_of_spilledImm {n : Insn} (unspilled : spilledImm n = none) :
    (n.type.isBinary → n.type ≠ .add → n.type ≠ .mul → n.in0.isImm = false) ∧
      (n.type = .store → n.in1.isImm = false) := by
  unfold spilledImm at unspilled
  cases kind : n.type <;> simp_all [InsnType.isBinary]

private theorem normal_settled {n : Insn} (unspilled : spilled n = none)
    (unswapped : n.type = .add ∨ n.type = .mul → n.in0.isImm = false) : n.Normal := by
  obtain ⟨ref0, ref1, positional⟩ := spilled_eq_none.mp unspilled
  obtain ⟨first, stored⟩ := positional_of_spilledImm positional
  refine ⟨fun binary => ⟨?_, ref0 ?_⟩, fun store => ⟨stored store, ref1⟩, fun call _ => ref0 call,
    ref1⟩
  · by_cases commutes : n.type = .add ∨ n.type = .mul
    · exact unswapped commutes
    · rw [not_or] at commutes
      exact first binary commutes.1 commutes.2
  · rintro call
    rw [call] at binary
    cases binary

/-- What a visit leaves in the place of an instruction is normal unless both inputs were
immediates. -/
theorem Visited.normal_iff (visited : Visited v (m :: rest) rules ri)
    (leads : RulesTo (fun _ => True) v.rules) : m.Normal ↔ ¬ v.i.BothImm := by
  generalize place : m :: rest = middle at visited
  cases visited with
  | @loaded idx a rule first =>
    obtain ⟨rfl, -⟩ := List.cons.inj place
    obtain ⟨s, rfl, -⟩ := leads.of_rewriteTmp rule
    obtain ⟨t, -, isTmp, -⟩ := rewriteTmp_eq_ok.mp rule
    refine iff_of_true (normal_loading (.inl rfl) fun _ => rfl) fun both => ?_
    obtain rfl | rfl := Insn.input_cases idx
    · have isTmp : v.i.in0 = .tmp t := isTmp
      simpa [isTmp, Val.isImm] using both.in0
    · have isTmp : v.i.in1 = .tmp t := isTmp
      simpa [isTmp, Val.isImm] using both.in1
  | @settled current middle behind _ _ unloaded redirected settled =>
    have same := redirected.eq
    -- The output plays no part in the normal form.
    have normal_out (normal : v.i.Normal) : current.Normal := by
      rw [same]
      exact ⟨normal.first, normal.stored, normal.ref0, normal.ref1⟩
    cases settled with
    | kept unspilled unswapped _ =>
      obtain ⟨rfl, -⟩ := List.cons.inj place
      refine iff_of_true (normal_out (normal_settled unspilled unswapped)) fun both => ?_
      simpa [unswapped both.type] using both.in0
    | addressed unspilled addr _ _ =>
      have noArith : ¬ (v.i.type = .add ∨ v.i.type = .mul) := by simp [addr]
      obtain ⟨rfl, -⟩ := List.cons.inj place
      exact iff_of_true
        (normal_out (normal_settled unspilled fun commutes => absurd commutes noArith))
        fun both => noArith both.type
    | swapped unspilled commutes imm =>
      obtain ⟨rfl, -⟩ := List.cons.inj place
      obtain ⟨ref0, ref1, -⟩ := spilled_eq_none.mp unspilled
      have binary : v.i.type.isBinary := by rcases commutes with type | type <;> rw [type] <;> rfl
      constructor
      · intro normal both
        simpa [both.in1] using (normal.first binary).1
      · intro different
        have in1 : v.i.in1.isImm = false := by
          cases isImm : v.i.in1.isImm with
          | false => rfl
          | true => exact absurd ⟨commutes, imm, isImm⟩ different
        have call : v.i.type ≠ .call := by rcases commutes with type | type <;> rw [type] <;> simp
        refine ⟨fun _ => ⟨in1, ref1⟩, fun store => ?_, fun _ _ => ref1, ref0 call⟩
        have store : v.i.type = .store := store
        simp [store] at commutes
    | @spilled idx type spills =>
      obtain ⟨rfl, -⟩ := List.cons.inj place
      rcases spilled_eq_some spills with ⟨rfl, isRef⟩ | ⟨rfl, isImm, positional⟩
      · refine iff_of_true (normal_loading (.inr (.inl rfl)) fun other => absurd rfl other)
          fun both => ?_
        obtain rfl | rfl := Insn.input_cases idx
        · have isRef : v.i.in0.isRef := isRef
          have isImm := both.in0
          cases operand : v.i.in0 <;> simp [operand, Val.isRef, Val.isImm] at isRef isImm
        · have isRef : v.i.in1.isRef := isRef
          have isImm := both.in1
          cases operand : v.i.in1 <;> simp [operand, Val.isRef, Val.isImm] at isRef isImm
      · refine iff_of_true (normal_loading (.inr (.inr rfl)) fun _ => ?_) fun both => ?_
        · cases operand : v.i.input idx <;> simp [operand, Val.isRef, Val.isImm] at isImm ⊢
        · rcases both.type with type | type <;> simp [spilledImm, type] at positional

/-- What is visited again has no two immediates. -/
theorem Visited.rest_not_bothImm (visited : Visited v (m :: rest) rules ri) :
    ∀ i ∈ rest, ¬ i.BothImm := by
  have input_tmp (i : Insn) (idx : Fin 2) (t : Nat) : ¬ (i.setInput idx (.tmp t)).BothImm := by
    intro both
    match idx with
    | 0 => exact absurd both.in0 (by simp [Insn.setInput, Val.isImm])
    | 1 => exact absurd both.in1 (by simp [Insn.setInput, Val.isImm])
  generalize place : m :: rest = middle at visited
  cases visited with
  | loaded =>
    obtain ⟨-, rfl⟩ := List.cons.inj place
    intro i member
    rw [List.mem_singleton.mp member]
    exact input_tmp _ _ _
  | @settled current middle behind _ _ unloaded redirected settled =>
    have behind_not : ∀ i ∈ behind, ¬ i.BothImm := by
      intro i member both
      cases redirected with
      | kept => cases member
      | stored =>
        rw [List.mem_singleton.mp member] at both
        simpa [insnCreate] using both.type
    cases settled with
    | spilled =>
      obtain ⟨-, rfl⟩ := List.cons.inj place
      rintro i (_ | ⟨_, member⟩)
      · exact input_tmp _ _ _
      · exact behind_not i member
    | _ =>
      obtain ⟨-, rfl⟩ := List.cons.inj place
      exact behind_not

end Visited

/-- A block that is walked through has normal instructions exactly if none of the visited
ones has two immediates. -/
theorem Walk.normal_iff {rules rules' : List Val} {ri ri' : Nat} {todo out : List Insn}
    {vs : List Visit} (walk : Walk rules ri todo vs out rules' ri')
    (leads : RulesTo (fun _ => True) rules) :
    ((∀ n ∈ out, n.Normal) ↔ ∀ i ∈ todo, ¬ i.BothImm) ∧ RulesTo (fun _ => True) rules' := by
  induction walk with
  | nil => simp [leads]
  | cons visited _ ih =>
    obtain ⟨others, leads'⟩ := ih (visited.rulesTo leads fun _ _ => trivial)
    refine ⟨?_, leads'⟩
    rw [List.forall_mem_cons, List.forall_mem_cons, visited.normal_iff leads, others]
    simp only [List.forall_mem_append]
    exact and_congr_right fun _ => and_iff_right visited.rest_not_bothImm

/-- The copy of a comparison operand is normal when the operand is no reference. -/
private theorem normal_copied {b : Blk} {t : Nat} {v : Val} (ref : v.isRef = false) :
    (∀ n ∈ (copied b t v).insns, n.Normal) ↔ ∀ n ∈ b.insns, n.Normal := by
  simp only [copied, insadd, List.forall_mem_append, List.forall_mem_singleton]
  exact and_iff_left (normal_loading (.inr (.inr rfl)) fun _ => ref)

/-- The comparison operands are copied when they are immediates. -/
private theorem correctCmps_normal_iff {q : Pass} (ref : q.b.cmp0.isRef = false) :
    (correctCmp1 (correctCmp0 q)).b.Normal ↔ ∀ n ∈ q.b.insns, n.Normal := by
  obtain ⟨insns, ref', cmp0⟩ : ((∀ n ∈ (correctCmp0 q).b.insns, n.Normal) ↔
      ∀ n ∈ q.b.insns, n.Normal) ∧ (correctCmp0 q).b.cmp0.isRef = false ∧
        (correctCmp0 q).b.cmp0.isImm = false := by
    unfold correctCmp0
    split
    · exact ⟨normal_copied ref, rfl, rfl⟩
    · rename_i noImm
      exact ⟨Iff.rfl, ref, by simpa using noImm⟩
  rw [← insns]
  unfold correctCmp1
  split
  · exact ⟨fun normal => (normal_copied ref').mp normal.insns,
      fun normal => ⟨(normal_copied ref').mpr normal, cmp0, rfl⟩⟩
  · rename_i noImm
    exact ⟨fun normal => normal.insns, fun normal => ⟨normal, cmp0, by simpa using noImm⟩⟩

private theorem correctBlk_normal_iff {p p' : Pass} {fuel : Nat}
    (corrected : correctBlk fuel p = .ok p')
    (leads : RulesTo (fun _ => True) p.rules) (ref : p.b.cmp0.isRef = false) :
    (p'.b.Normal ↔ ∀ i ∈ p.b.insns, ¬ i.BothImm) ∧ RulesTo (fun _ => True) p'.rules := by
  obtain ⟨q, -, rfl, cmp0, -, walk⟩ := correctBlk_walk corrected
  obtain ⟨normal, leads'⟩ := walk.normal_iff leads
  rw [correctCmps_normal_iff (by rw [cmp0]; exact ref), correctCmps_rules]
  exact ⟨normal, leads'⟩

private theorem correctBlks_normal_iff {fuel ri ri' : Nat} {rules : List Val}
    {blks blks' : List Blk} (corrected : correctBlks fuel blks rules ri = .ok (blks', ri'))
    (leads : RulesTo (fun _ => True) rules) (ref : ∀ b ∈ blks, b.cmp0.isRef = false) :
    (∀ b ∈ blks', b.Normal) ↔ ∀ b ∈ blks, ∀ n ∈ b.insns, ¬ n.BothImm := by
  induction blks generalizing rules ri blks' with
  | nil =>
    obtain ⟨rfl, rfl⟩ := correctBlks_nil corrected
    simp
  | cons b rest ih =>
    obtain ⟨p, rest', first, others, rfl⟩ := correctBlks_cons corrected
    rw [List.forall_mem_cons] at ref
    obtain ⟨normal, leads'⟩ := correctBlk_normal_iff first leads ref.1
    rw [List.forall_mem_cons, List.forall_mem_cons, normal, ih others leads' ref.2]

end Correct

/-- The first comparison operand of a block of the text is no reference. -/
theorem Frontend.Built.cmp0_isRef {source : Function} {chunks : List Chunk} {f : Fn}
    (built : Built source chunks f) : ∀ b ∈ f.blks, b.cmp0.isRef = false := by
  intro b member
  obtain ⟨i, found⟩ := List.mem_iff_getElem?.mp member
  obtain ⟨c, foundChunk⟩ := built.chunk_of found
  have block := built.blks _ (numbers_numbering f.tmps) i c b foundChunk found
  rw [block]
  unfold Chunk.blk Chunk.exitBlk
  cases exit : c.exit (numbering f.tmps) with
  | cond type a0 a1 label =>
    have operand := (exit_compares exit).1
    cases a0 <;> simp [Val.isTmp, Val.isImm] at operand ⊢ <;> rfl
  | _ => rfl

/-- Behind correction every operand is in normal form exactly if no addition or
multiplication of the function has two immediates. -/
theorem Correct.operandsNormal_iff {f g : Fn} (corrected : Corrected f g)
    (built : Frontend.ParserBuilt f) :
    (∀ b ∈ g.blks, b.Normal) ↔ ∀ b ∈ f.blks, ∀ n ∈ b.insns, ¬ n.BothImm := by
  obtain ⟨_, source, parsed⟩ := built
  obtain ⟨chunks, built⟩ := Frontend.buildFunction_built parsed
  obtain ⟨fuel, h, ri, returned, rfl⟩ := corrected
  simp only [correct, Result.bind_eq_ok, Result.pure_eq, Except.ok.injEq, Prod.mk.injEq,
    Prod.exists] at returned
  obtain ⟨blks, _, passed, rfl, rfl⟩ := returned
  exact Correct.correctBlks_normal_iff passed Correct.rulesTo_nil built.cmp0_isRef

/-- The loop test has its operands in normal form. -/
theorem Correct.operandsNormal_iff_simpleLoop :
    ∃ f g, Frontend.buildFunction 0 Frontend.simpleLoop = .ok f ∧ Corrected f g ∧
      ∀ b ∈ g.blks, b.Normal := by
  have ran : ∃ f g ri, Frontend.buildFunction 0 Frontend.simpleLoop = .ok f ∧
      correct 20 f f.ntmp = .ok (g, ri) ∧ ∀ b ∈ f.blks, ∀ n ∈ b.insns,
        ¬ (n.in0.isImm ∧ n.in1.isImm) := ⟨_, _, _, by rfl, by rfl, by decide⟩
  obtain ⟨f, g, ri, parsed, corrected, noImm⟩ := ran
  have corrected : Corrected f { g with ntmp := ri } := ⟨20, g, ri, corrected, rfl⟩
  refine ⟨f, _, parsed, corrected, (Correct.operandsNormal_iff corrected ⟨0, _, parsed⟩).mpr ?_⟩
  exact fun b member n inside both => noImm b member n inside ⟨both.in0, both.in1⟩

/-- An addition of two constants. -/
def Correct.onePlusTwo : Frontend.Function where
  name := "main"
  body := {
    items := [
      { stmt := .plain (.binary .add .i27 "x" (.int 1) (.int 2)) },
      { stmt := .leave [.id "x"] }] }

/-- The operands change places, and the first one is still an immediate. -/
theorem Correct.onePlusTwo_abnormal :
    ∃ f g, Frontend.buildFunction 0 Correct.onePlusTwo = .ok f ∧ Corrected f g ∧
      ¬ ∀ b ∈ g.blks, b.Normal := by
  have ran : ∃ f g ri b n, Frontend.buildFunction 0 Correct.onePlusTwo = .ok f ∧
      correct 20 f f.ntmp = .ok (g, ri) ∧ g.blks[0]? = some b ∧ b.insns[0]? = some n ∧
        n.type = .add ∧ n.in0 = .imm 2 .notype :=
    ⟨_, _, _, _, _, by rfl, by rfl, by rfl, by rfl, by rfl, by rfl⟩
  obtain ⟨f, g, ri, b, n, parsed, corrected, first, here, type, in0⟩ := ran
  refine ⟨f, _, parsed, ⟨20, g, ri, corrected, rfl⟩, fun normal => ?_⟩
  have operand := ((normal b (List.mem_of_getElem? first)).insns n
    (List.mem_of_getElem? here)).first (by rw [type]; rfl)
  simp [in0, Val.isImm] at operand

end Qbt
