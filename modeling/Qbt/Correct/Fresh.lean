import Qbt.Correct.Addressed

/-!
# The temporaries that correction introduces

Every insertion takes the next number from a counter that `correct` hands from instruction to
instruction. The one exception is the redirection of a write: `correct_insn` drops the counter
`store_rewrite` returns, so the next insertion takes the same number.
-/

namespace Qbt.Correct

/-- The numbers of the temporaries into which the comparison of a block is copied. -/
def cmpInsertions (q : Pass) : List Nat :=
  (if q.b.cmp0.isImm then [q.ri] else []) ++
    if (correctCmp0 q).b.cmp1.isImm then [(correctCmp0 q).ri] else []

/-- The numbers of the temporaries that the correction of a block introduces, one for each
insertion. -/
def blkInsertions (fuel : Nat) (p : Pass) : List Nat :=
  (visits fuel 0 p).flatMap Visit.inserted ++
    match correctInsns fuel 0 p with
    | .error _ => []
    | .ok q => cmpInsertions q

/-- The same for the remaining blocks. -/
def insertions (fuel : Nat) : List Blk → List Val → Nat → List Nat
  | [], _, _ => []
  | b :: rest, rules, ri =>
    blkInsertions fuel { b, rules, ri } ++
      match correctBlk fuel { b, rules, ri } with
      | .error _ => []
      | .ok p => insertions fuel rest p.rules p.ri

section Fresh

variable {v : Visit} {m : Insn} {rest : List Insn} {rules rules' : List Val} {ri ri' : Nat}

/-- What a visit inserts or leaves is below the counter it leaves. -/
private theorem Visited.below {middle : List Insn} (visited : Visited v middle rules ri)
    (below : v.i.Below v.ri) (leads : RulesTo (· < v.ri) v.rules)
    (unredirected : v.redirects = false) :
    (∀ n ∈ middle, n.Below ri) ∧ RulesTo (· < ri) rules ∧ v.ri ≤ ri := by
  have loaded (type : InsnType) {w : Val} (idx : Fin 2) (operand : w.Below v.ri) :
      ∀ n ∈ loadedBy type w v.ri v.i idx, n.Below (v.ri + 1) := by
    rintro n (_ | ⟨_, member⟩)
    · exact ⟨Nat.lt_succ_self _, operand.mono (Nat.le_succ _), trivial⟩
    · rw [List.mem_singleton.mp member]
      exact below.setInput idx
  have wider : RulesTo (· < v.ri + 1) v.rules := leads.mono fun _ => Nat.lt_succ_of_lt
  cases visited with
  | loaded rule =>
    obtain ⟨s, rfl, lt⟩ := leads.of_rewriteTmp rule
    exact ⟨loaded .load _ lt, wider, Nat.le_succ _⟩
  | settled unloaded redirected settled =>
    cases redirected with
    | stored rule =>
      simp [Visit.redirects, unloaded, hasRewriteRule_of_rewriteTmp rule] at unredirected
    | kept =>
      rw [List.append_nil]
      cases settled with
      | kept => exact ⟨by simpa using below, leads, Nat.le_refl _⟩
      | swapped => exact ⟨by simpa using ⟨below.out, below.in1, below.in0⟩, leads, Nat.le_refl _⟩
      | addressed _ _ _ ruled' =>
        obtain ⟨t, s, -, out, rfl⟩ := addRewriteRule_eq_ok.mp ruled'
        have lt := below.out
        rw [out] at lt
        exact ⟨by simpa using below, leads.write lt, Nat.le_refl _⟩
      | spilled => exact ⟨loaded _ _ (below.input _), wider, Nat.le_succ _⟩

/-- Without redirections the insertions of a block are numbered consecutively, and nothing
reaches the counter. -/
private theorem Walk.fresh {todo out : List Insn} {vs : List Visit}
    (walk : Walk rules ri todo vs out rules' ri') (unredirected : ∀ v ∈ vs, v.redirects = false)
    (below : ∀ n ∈ todo, n.Below ri) (leads : RulesTo (· < ri) rules) :
    ri ≤ ri' ∧ vs.flatMap Visit.inserted = List.range' ri (ri' - ri) ∧
      (∀ n ∈ out, n.Below ri') ∧ RulesTo (· < ri') rules' := by
  induction walk with
  | nil => exact ⟨Nat.le_refl _, by simp, below, leads⟩
  | @cons rules rules' _ ri ri' ri'' i m rest todo out vs visited _ ih =>
    rw [List.forall_mem_cons] at unredirected below
    obtain ⟨belowM, leads', le⟩ := visited.below below.1 leads unredirected.1
    rw [List.forall_mem_cons] at belowM
    have le : ri ≤ ri' := le
    obtain ⟨le', numbered, belowOut, leads''⟩ := ih unredirected.2
      (by
        simp only [List.forall_mem_append]
        exact ⟨belowM.2, fun n member => (below.2 n member).mono le⟩) leads'
    refine ⟨Nat.le_trans le le', ?_, ?_, leads''⟩
    · rw [List.flatMap_cons, numbered]
      rcases visited.unredirected unredirected.1 with ⟨rfl, -, -, none, -⟩ | ⟨_, rfl, -, one, -⟩
      · rw [none, List.nil_append]
      · have later : ri + 1 ≤ ri'' := le'
        have count : ri'' - ri = (ri'' - (ri + 1)) + 1 := by omega
        rw [one, count, List.range'_succ]
        rfl
    · rw [List.forall_mem_cons]
      exact ⟨belowM.1.mono le', belowOut⟩

end Fresh

section Stale

variable {v : Visit} {m : Insn} {rest : List Insn} {rules rules' : List Val} {ri ri' : Nat}
variable {todo out : List Insn} {vs : List Visit}

/-- A visit moves the counter by one at most, and then it has inserted that number. -/
private theorem Visited.counts (visited : Visited v (m :: rest) rules ri) :
    ri = v.ri ∨ ri = v.ri + 1 ∧ v.ri ∈ v.inserted := by
  by_cases redirects : v.redirects
  · obtain ⟨a, -, ⟨-, same, -, -⟩ | ⟨_, -, next, twice, -⟩⟩ := visited.redirected redirects
    · exact Or.inl same
    · exact Or.inr ⟨next, by simp [twice]⟩
  · rcases visited.unredirected (by simpa using redirects) with ⟨same, -⟩ | ⟨_, next, -, once, -⟩
    · exact Or.inl same
    · exact Or.inr ⟨next, by simp [once]⟩

/-- The counter stays, or its first number is inserted. -/
private theorem Walk.counts (walk : Walk rules ri todo vs out rules' ri') :
    ri ≤ ri' ∧ (ri' = ri ∨ ri ∈ vs.flatMap Visit.inserted) := by
  induction walk with
  | nil => exact ⟨Nat.le_refl _, Or.inl rfl⟩
  | @cons rules rules' _ ri ri' ri'' i m rest todo out vs visited _ ih =>
    rw [List.flatMap_cons, List.mem_append]
    obtain ⟨le, first⟩ := ih
    rcases visited.counts with same | ⟨next, inserted⟩
    · obtain rfl : ri' = ri := same
      exact ⟨le, first.imp_right Or.inr⟩
    · have next : ri' = ri + 1 := next
      exact ⟨by omega, Or.inr (Or.inl inserted)⟩

private theorem not_nodup_append {first second : List Nat} {t : Nat} (here : t ∈ first)
    (again : t ∈ second) : ¬ (first ++ second).Nodup :=
  fun distinct => (List.nodup_append.mp distinct).2.2 t here t again rfl

/-- Behind a redirection two insertions share a number, or the last one has the number of the
counter itself. -/
private theorem Walk.stale (walk : Walk rules ri todo vs out rules' ri')
    (redirects : ∃ v ∈ vs, v.redirects) :
    ¬ (vs.flatMap Visit.inserted).Nodup ∨
      ri' ∈ vs.flatMap Visit.inserted ∧ ∃ n ∈ out, n.out = .tmp ri' := by
  induction walk with
  | nil => simp at redirects
  | @cons rules rules' _ ri ri' ri'' i m rest todo out vs visited walk ih =>
    rw [List.flatMap_cons]
    by_cases here : Visit.redirects ⟨rules, ri, i⟩
    · obtain ⟨a, -, ⟨-, rfl, once, rfl⟩ | ⟨_, -, -, twice, -⟩⟩ := visited.redirected here
      · rw [once]
        by_cases again : ri' ∈ vs.flatMap Visit.inserted
        · exact Or.inl (not_nodup_append (List.mem_singleton_self _) again)
        · obtain rfl : ri'' = ri' := walk.counts.2.resolve_right again
          refine Or.inr ⟨by simp, ?_⟩
          -- The STORE is visited next, and nothing is inserted there.
          cases walk with
          | @cons _ _ _ _ _ _ _ m' rest' _ out' vs' visited' _ =>
            rw [List.flatMap_cons, List.mem_append, not_or] at again
            have unredirected : Visit.redirects ⟨rules', ri'', storeBehind ⟨rules, ri'', i⟩ a⟩ =
                false := by
              refine Bool.eq_false_iff.mpr fun redirects => again.1 ?_
              obtain ⟨_, -, ⟨-, -, inserted, -⟩ | ⟨_, -, -, inserted, -⟩⟩ :=
                visited'.redirected redirects <;> simp [inserted]
            rcases visited'.unredirected unredirected with ⟨-, kept, -⟩ | ⟨_, -, -, inserted, -⟩
            · exact ⟨m', by simp, kept⟩
            · exact absurd (by simp [inserted]) again.1
      · rw [twice]
        exact Or.inl (by simp)
    · have later : ∃ v ∈ vs, v.redirects := by
        obtain ⟨v, _ | ⟨_, member⟩, found⟩ := redirects
        · exact absurd found here
        · exact ⟨v, member, found⟩
      rcases ih later with twice | ⟨inserted, n, member, last⟩
      · exact Or.inl fun distinct => twice (List.nodup_append.mp distinct).2.1
      · exact Or.inr ⟨List.mem_append_right _ inserted, n, List.mem_cons_of_mem _ member, last⟩

end Stale

section Blocks

variable {fuel ri ri' : Nat} {rules : List Val} {blks blks' : List Blk} {p p' q : Pass}

/-- The copies of the comparison operands are numbered consecutively. -/
private theorem cmpInsertions_eq (q : Pass) :
    cmpInsertions q = List.range' q.ri ((correctCmp1 (correctCmp0 q)).ri - q.ri) := by
  by_cases imm0 : q.b.cmp0.isImm <;> by_cases imm1 : q.b.cmp1.isImm <;>
    simp [cmpInsertions, correctCmp0, correctCmp1, insadd, imm0, imm1, Nat.add_assoc,
      List.range'_succ]

private theorem below_copied {b : Blk} {t : Nat} {v : Val} (below : b.Below t)
    (operand : v.Below t) (cmp0 cmp1 : Val) (compares : cmp0.Below (t + 1) ∧ cmp1.Below (t + 1)) :
    Blk.Below (t + 1)
      { insadd b .copy .i27 (.tmp t) v .noclass 0 with cmp0 := cmp0, cmp1 := cmp1 } where
  insns n member := by
    simp only [insadd, List.mem_append, List.mem_singleton] at member
    rcases member with old | rfl
    · exact (below.insns n old).mono (Nat.le_succ t)
    · exact ⟨Nat.lt_succ_self t, operand.mono (Nat.le_succ t), trivial⟩
  cmp0 := compares.1
  cmp1 := compares.2

private theorem correctCmps_below (below : q.b.Below q.ri) :
    (correctCmp1 (correctCmp0 q)).b.Below (correctCmp1 (correctCmp0 q)).ri := by
  have first : (correctCmp0 q).b.Below (correctCmp0 q).ri := by
    unfold correctCmp0
    split
    · exact below_copied below below.cmp0 _ _
        ⟨Nat.lt_succ_self _, below.cmp1.mono (Nat.le_succ _)⟩
    · exact below
  unfold correctCmp1
  split
  · exact below_copied first first.cmp0 _ _
      ⟨first.cmp0.mono (Nat.le_succ _), Nat.lt_succ_self _⟩
  · exact first

private theorem blkInsertions_eq (returned : correctInsns fuel 0 p = .ok q) :
    blkInsertions fuel p = (visits fuel 0 p).flatMap Visit.inserted ++ cmpInsertions q := by
  rw [blkInsertions, returned]

private theorem insertions_cons {b : Blk} {rest : List Blk}
    (first : correctBlk fuel { b, rules, ri } = .ok p) :
    insertions fuel (b :: rest) rules ri =
      blkInsertions fuel { b, rules, ri } ++ insertions fuel rest p.rules p.ri := by
  rw [insertions, first]

/-- Without redirections all insertions are numbered consecutively, and nothing reaches the
counter. -/
theorem correctBlks_fresh (corrected : correctBlks fuel blks rules ri = .ok (blks', ri'))
    (unredirected : ∀ vs ∈ blksVisits fuel blks rules ri, ∀ v ∈ vs, v.redirects = false)
    (below : ∀ b ∈ blks, b.Below ri) (leads : RulesTo (· < ri) rules) :
    ri ≤ ri' ∧ insertions fuel blks rules ri = List.range' ri (ri' - ri) ∧
      ∀ b ∈ blks', b.Below ri' := by
  induction blks generalizing rules ri blks' with
  | nil =>
    obtain ⟨rfl, rfl⟩ := correctBlks_nil corrected
    simp [insertions]
  | cons b rest ih =>
    obtain ⟨p, rest', first, others, rfl⟩ := correctBlks_cons corrected
    rw [blksVisits, first, List.forall_mem_cons] at unredirected
    rw [List.forall_mem_cons] at below
    rw [insertions_cons first]
    obtain ⟨q, returned, rfl, cmp0, cmp1, walk⟩ := correctBlk_walk first
    obtain ⟨le, numbered, belowOut, leads'⟩ := walk.fresh unredirected.1 below.1.insns leads
    have le' := correctCmps_ri_le q
    have belowQ : q.b.Below q.ri :=
      ⟨belowOut, by rw [cmp0]; exact below.1.cmp0.mono le, by rw [cmp1]; exact below.1.cmp1.mono le⟩
    obtain ⟨le'', numbered', belowRest⟩ := ih others unredirected.2
      (fun c member => (below.2 c member).mono (Nat.le_trans le le'))
      (by rw [correctCmps_rules]; exact leads'.mono fun _ lt => Nat.lt_of_lt_of_le lt le')
    refine ⟨Nat.le_trans le (Nat.le_trans le' le''), ?_, ?_⟩
    · rw [blkInsertions_eq returned, numbered, cmpInsertions_eq, numbered',
        Lists.range'_append_sub le le', Lists.range'_append_sub (Nat.le_trans le le') le'']
    · rw [List.forall_mem_cons]
      exact ⟨(correctCmps_below belowQ).mono le'', belowRest⟩

/-- The counter stays, or its first number is inserted. -/
private theorem correctBlk_counts (corrected : correctBlk fuel p = .ok p') :
    p'.ri = p.ri ∨ p.ri ∈ blkInsertions fuel p := by
  obtain ⟨q, returned, rfl, -, -, walk⟩ := correctBlk_walk corrected
  rw [blkInsertions_eq returned, List.mem_append, cmpInsertions_eq, List.mem_range'_1]
  have le := correctCmps_ri_le q
  rcases walk.counts.2 with same | inserted
  · by_cases copied : (correctCmp1 (correctCmp0 q)).ri = q.ri
    · exact Or.inl (copied.trans same)
    · exact Or.inr (Or.inr (by omega))
  · exact Or.inr (Or.inl inserted)

private theorem correctBlks_counts
    (corrected : correctBlks fuel blks rules ri = .ok (blks', ri')) :
    ri' = ri ∨ ri ∈ insertions fuel blks rules ri := by
  induction blks generalizing rules ri blks' with
  | nil => exact Or.inl (correctBlks_nil corrected).2
  | cons b rest ih =>
    obtain ⟨p, rest', first, others, rfl⟩ := correctBlks_cons corrected
    rw [insertions_cons first, List.mem_append]
    rcases correctBlk_counts first with same | inserted
    · have same : p.ri = ri := same
      rw [← same]
      exact (ih others).imp_right Or.inr
    · exact Or.inr (Or.inl inserted)

private theorem correctBlk_stale (corrected : correctBlk fuel p = .ok p')
    (redirects : ∃ v ∈ visits fuel 0 p, v.redirects) :
    ¬ (blkInsertions fuel p).Nodup ∨
      p'.ri ∈ blkInsertions fuel p ∧ ∃ n ∈ p'.b.insns, n.out = .tmp p'.ri := by
  obtain ⟨q, returned, rfl, -, -, walk⟩ := correctBlk_walk corrected
  rw [blkInsertions_eq returned]
  have le := correctCmps_ri_le q
  rcases walk.stale redirects with twice | ⟨inserted, n, member, last⟩
  · exact Or.inl fun distinct => twice (List.nodup_append.mp distinct).1
  · by_cases copied : (correctCmp1 (correctCmp0 q)).ri = q.ri
    · obtain ⟨copies, -, insns⟩ := correctCmps_insns q
      rw [copied, insns]
      exact Or.inr ⟨List.mem_append_left _ inserted, n, List.mem_append_left _ member, last⟩
    · refine Or.inl (not_nodup_append inserted ?_)
      rw [cmpInsertions_eq, List.mem_range'_1]
      omega

/-- Behind a redirection two insertions share a number, or one has the number that is
returned. -/
theorem correctBlks_stale (corrected : correctBlks fuel blks rules ri = .ok (blks', ri'))
    (redirects : ∃ vs ∈ blksVisits fuel blks rules ri, ∃ v ∈ vs, v.redirects) :
    ¬ (insertions fuel blks rules ri).Nodup ∨ ∃ b ∈ blks', ∃ n ∈ b.insns, n.out = .tmp ri' := by
  induction blks generalizing rules ri blks' with
  | nil => simp [blksVisits] at redirects
  | cons b rest ih =>
    obtain ⟨p, rest', first, others, rfl⟩ := correctBlks_cons corrected
    rw [insertions_cons first]
    rw [blksVisits, first] at redirects
    obtain ⟨vs, _ | ⟨_, member⟩, found⟩ := redirects
    · rcases correctBlk_stale first found with twice | ⟨inserted, n, member, last⟩
      · exact Or.inl fun distinct => twice (List.nodup_append.mp distinct).1
      · rcases correctBlks_counts others with same | again
        · exact Or.inr ⟨p.b, List.mem_cons_self, n, member, by rw [same]; exact last⟩
        · exact Or.inl (not_nodup_append inserted again)
    · rcases ih others ⟨vs, member, found⟩ with twice | ⟨c, member, last⟩
      · exact Or.inl fun distinct => twice (List.nodup_append.mp distinct).2.1
      · exact Or.inr ⟨c, List.mem_cons_of_mem _ member, last⟩

end Blocks

/-- The temporaries that correction introduces are new, pairwise different, and below the
number that is returned, as all others are. -/
structure InsertsFresh (fuel : Nat) (f g : Fn) (ri : Nat) : Prop where
  above : ∀ t ∈ insertions fuel f.blks [] f.ntmp, f.ntmp ≤ t
  distinct : (insertions fuel f.blks [] f.ntmp).Nodup
  below : ∀ b ∈ g.blks, ∀ t ∈ b.mentions, t < ri

private theorem mentions_lt {b : Blk} {bound t : Nat} (below : b.Below bound)
    (params : b.params = []) (args1 : b.args1 = []) (args2 : b.args2 = [])
    (mentioned : t ∈ b.mentions) : t < bound := by
  have operand {v : Val} (below : v.Below bound) (member : t ∈ v.temps) : t < bound := by
    rw [Val.mem_temps.mp member] at below
    exact below
  simp only [Blk.mentions, params, args1, args2, tempsOf_nil, Set.union_empty] at mentioned
  rcases mentioned with ⟨n, member, (in0 | in1) | out⟩ | cmp0 | cmp1
  · exact operand (below.insns n member).in0 in0
  · exact operand (below.insns n member).in1 in1
  · exact operand (below.insns n member).out out
  · exact operand below.cmp0 cmp0
  · exact operand below.cmp1 cmp1

/-- The temporaries that correction introduces are fresh exactly if no instruction writes an
addressed local. -/
theorem insertsFresh_iff {f g : Fn} {fuel ri : Nat} (parserBuilt : Frontend.ParserBuilt f)
    (corrected : correct fuel f f.ntmp = .ok (g, ri)) :
    InsertsFresh fuel f g ri ↔ ¬ WritesAddressed ∅ f.text := by
  have raw : Raw { g with ntmp := ri } :=
    Corrected.raw ⟨fuel, g, ri, corrected, rfl⟩ parserBuilt.raw
  obtain ⟨_, source, parsed⟩ := parserBuilt
  obtain ⟨chunks, built⟩ := Frontend.buildFunction_built parsed
  simp only [correct, Result.bind_eq_ok, Result.pure_eq, Except.ok.injEq, Prod.mk.injEq,
    Prod.exists] at corrected
  obtain ⟨blks, _, passed, rfl, rfl⟩ := corrected
  rw [← ruled_nil]
  constructor
  · intro fresh writes
    obtain ⟨vs, memberVs, v, memberV, -, redirects⟩ := correctBlks_redirects passed writes
    rcases correctBlks_stale passed ⟨vs, memberVs, v, memberV, redirects⟩ with
      twice | ⟨b, memberB, n, memberN, last⟩
    · exact twice fresh.distinct
    · exact Nat.lt_irrefl _ (fresh.below b memberB _
        (Or.inl (Or.inl (Or.inl (Or.inl ⟨n, memberN, Or.inr last⟩)))))
  · intro writes
    obtain ⟨le, numbered, below⟩ := correctBlks_fresh passed
      (correctBlks_unredirected passed built.below writes) built.below rulesTo_nil
    refine ⟨fun t member => ?_, ?_, fun b member t => ?_⟩
    · rw [numbered, List.mem_range'_1] at member
      exact member.1
    · rw [numbered]
      exact List.nodup_range'
    · exact mentions_lt (below b member) (raw.params b member) (raw.args1 b member)
        (raw.args2 b member)

/-- The loop test writes no addressed local. -/
theorem insertsFresh_iff_simpleLoop :
    ∃ f g ri, Frontend.buildFunction 0 Frontend.simpleLoop = .ok f ∧
      correct 20 f f.ntmp = .ok (g, ri) ∧ InsertsFresh 20 f g ri := by
  have ran : ∃ f g ri, Frontend.buildFunction 0 Frontend.simpleLoop = .ok f ∧
      correct 20 f f.ntmp = .ok (g, ri) ∧ ∀ n ∈ f.text, n.type ≠ .addr :=
    ⟨_, _, _, by rfl, by rfl, by decide⟩
  obtain ⟨f, g, ri, parsed, corrected, noAddr⟩ := ran
  exact ⟨f, g, ri, parsed, corrected,
    (insertsFresh_iff ⟨0, _, parsed⟩ corrected).mpr (not_writesAddressed noAddr)⟩

/-- The second write of the local and the load that returns it share a number. -/
theorem writtenAgain_shared :
    ∃ f g ri, Frontend.buildFunction 0 writtenAgain = .ok f ∧
      correct 20 f f.ntmp = .ok (g, ri) ∧ ¬ InsertsFresh 20 f g ri := by
  have ran : ∃ f g ri, Frontend.buildFunction 0 writtenAgain = .ok f ∧
      correct 20 f f.ntmp = .ok (g, ri) ∧ insertions 20 f.blks [] f.ntmp = [2, 2] :=
    ⟨_, _, _, by rfl, by rfl, by rfl⟩
  obtain ⟨f, g, ri, parsed, corrected, inserted⟩ := ran
  refine ⟨f, g, ri, parsed, corrected, fun fresh => ?_⟩
  have distinct := fresh.distinct
  rw [inserted] at distinct
  exact absurd distinct (by decide)

end Qbt.Correct
