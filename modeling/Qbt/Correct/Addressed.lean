import Qbt.Correct.Visits
import Qbt.Frontend.Built

/-!
# Writes to addressed locals

Once an ADDR has registered a local, `correct` redirects every instruction that writes it to
a fresh temporary, which a STORE behind the instruction is to write back. Whether that ever
happens can be read off the instructions in textual order.
-/

namespace Qbt

/-- The local whose address an instruction takes. -/
def Insn.addressed (n : Insn) : Set Nat := { x | n.type = .addr ∧ n.in0 = .tmp x }

/-- Some instruction writes a local that is `addressed`, or whose address an earlier
instruction takes. -/
def WritesAddressed (addressed : Set Nat) : List Insn → Prop
  | [] => False
  | n :: rest =>
    (∃ x ∈ addressed, n.out = .tmp x) ∨ WritesAddressed (addressed ∪ n.addressed) rest

/-- The instructions of a function in textual order. -/
def Fn.text (f : Fn) : List Insn := f.blks.flatMap (·.insns)

theorem WritesAddressed.mono {known more : Set Nat} {insns : List Insn}
    (writes : WritesAddressed known insns) (subset : known ⊆ more) :
    WritesAddressed more insns := by
  induction insns generalizing known more with
  | nil => exact writes
  | cons n rest ih =>
    rcases writes with ⟨x, member, out⟩ | later
    · exact Or.inl ⟨x, subset member, out⟩
    · exact Or.inr (ih later (Set.union_subset_union_left _ subset))

/-- Addressed numbers that no instruction has for its output do not matter. -/
theorem WritesAddressed.of_below {bound : Nat} {known fresh : Set Nat} {insns : List Insn}
    (writes : WritesAddressed (known ∪ fresh) insns) (below : ∀ n ∈ insns, n.Below bound)
    (above : ∀ t ∈ fresh, bound ≤ t) : WritesAddressed known insns := by
  induction insns generalizing known with
  | nil => exact writes
  | cons n rest ih =>
    rw [List.forall_mem_cons] at below
    rcases writes with ⟨x, member | member, out⟩ | later
    · exact Or.inl ⟨x, member, out⟩
    · have written := below.1.out
      rw [out, Val.below_tmp] at written
      exact absurd (above x member) (Nat.not_le_of_lt written)
    · rw [Set.union_right_comm] at later
      exact Or.inr (ih later below.2)

/-- Where no address is taken, no addressed local is written. -/
theorem not_writesAddressed {insns : List Insn} (noAddr : ∀ n ∈ insns, n.type ≠ .addr) :
    ¬ WritesAddressed ∅ insns := by
  induction insns with
  | nil => exact id
  | cons n rest ih =>
    rw [List.forall_mem_cons] at noAddr
    have none : n.addressed = ∅ := by
      ext x
      simp [Insn.addressed, noAddr.1]
    simpa [WritesAddressed, none] using ih noAddr.2

namespace Correct

/-- The visit leaves the instruction itself in its place. -/
def Visit.settles (v : Visit) : Bool := !v.loads && (spilled v.i).isNone

section Visited

variable {v : Visit} {m : Insn} {rest middle : List Insn} {rules : List Val} {ri : Nat}

/-- What a visited instruction is replaced by when it is not redirected: it is visited
again with one input in a fresh temporary, or it is done with. -/
theorem Visited.unredirected (visited : Visited v (m :: rest) rules ri)
    (unredirected : v.redirects = false) :
    (ri = v.ri ∧ m.out = v.i.out ∧ rest = [] ∧ v.inserted = [] ∧
        ruled rules = ruled v.rules ∪ v.i.addressed) ∨
      ∃ idx : Fin 2, ri = v.ri + 1 ∧ rest = [v.i.setInput idx (.tmp v.ri)] ∧
        v.inserted = [v.ri] ∧ rules = v.rules ∧
          (idx = 0 → ∀ x ∈ v.i.addressed, x ∈ ruled v.rules) := by
  generalize place : m :: rest = middle at visited
  cases visited with
  | @loaded idx a rule first =>
    obtain ⟨-, rfl⟩ := List.cons.inj place
    have loads : v.loads = true := by
      have has := hasRewriteRule_of_rewriteTmp rule
      match idx with
      | 0 =>
        have has : hasRewriteRule v.rules v.i.in0 := has
        simp [Visit.loads, has]
      | 1 =>
        have has : hasRewriteRule v.rules v.i.in1 := has
        simp [Visit.loads, has]
    refine Or.inr ⟨idx, rfl, rfl, by simp [Visit.inserted, loads], rfl, ?_⟩
    rintro rfl x ⟨-, isTmp⟩
    obtain ⟨t, member, isTmp', -⟩ := rewriteTmp_eq_ok.mp rule
    have same : Val.tmp t = .tmp x := isTmp'.symm.trans isTmp
    cases same
    exact member
  | @settled current middle behind _ _ unloaded redirected settled =>
    obtain ⟨rfl, unchanged⟩ : behind = [] ∧ current.out = v.i.out := by
      cases redirected with
      | kept => exact ⟨rfl, rfl⟩
      | stored rule =>
        have has := hasRewriteRule_of_rewriteTmp rule
        simp [Visit.redirects, unloaded, has] at unredirected
    rw [List.append_nil] at place
    have inserted : v.inserted = if (spilled v.i).isSome then [v.ri] else [] := by
      simp [Visit.inserted, unloaded, unredirected]
    cases settled with
    | kept unspilled _ unaddressed =>
      obtain ⟨rfl, rfl⟩ := List.cons.inj place
      refine Or.inl ⟨rfl, unchanged, rfl, by simp [inserted, unspilled], ?_⟩
      have none : v.i.addressed = ∅ := by
        ext x
        simp only [Insn.addressed, Set.mem_ofPred_eq, Set.mem_empty_iff_false, iff_false]
        rintro ⟨addr, isTmp⟩
        simpa [isTmp, Val.isTmp] using unaddressed addr
      rw [none, Set.union_empty]
    | swapped unspilled commutes _ =>
      obtain ⟨rfl, rfl⟩ := List.cons.inj place
      refine Or.inl ⟨rfl, rfl, rfl, by simp [inserted, unspilled], ?_⟩
      have none : v.i.addressed = ∅ := by
        ext x
        simp only [Insn.addressed, Set.mem_ofPred_eq, Set.mem_empty_iff_false, iff_false]
        rintro ⟨addr, -⟩
        simp [addr] at commutes
      rw [none, Set.union_empty]
    | addressed unspilled addr isTmp ruled' =>
      obtain ⟨rfl, rfl⟩ := List.cons.inj place
      refine Or.inl ⟨rfl, unchanged, rfl, by simp [inserted, unspilled], ?_⟩
      obtain ⟨t, s, in0, -, rfl⟩ := addRewriteRule_eq_ok.mp ruled'
      rw [ruled_write, ← Set.union_singleton]
      congr 1
      ext x
      simp [Insn.addressed, addr, in0, eq_comm]
    | @spilled idx type spills =>
      obtain ⟨-, rfl⟩ := List.cons.inj place
      refine Or.inr ⟨idx, rfl, rfl, by simp [inserted, spills], rfl, ?_⟩
      rintro rfl x ⟨addr, isTmp⟩
      rcases spilled_eq_some spills with ⟨-, isRef⟩ | ⟨-, -, positional⟩
      · have isRef : v.i.in0.isRef := isRef
        simp [isTmp, Val.isRef] at isRef
      · simp [spilledImm, addr] at positional

/-- The STORE that a redirected instruction is to be followed by. -/
def storeBehind (v : Visit) (a : Val) : Insn :=
  insnCreate .store .i27 (.tmp v.ri) a .noclass 0

/-- What a visited instruction is replaced by when it is redirected: the instruction is done
with, or visited again with one input in the same fresh temporary, and the STORE comes next. -/
theorem Visited.redirected (visited : Visited v (m :: rest) rules ri) (redirects : v.redirects) :
    ∃ a, rewriteTmp v.rules v.i.out = .ok a ∧
      (spilled v.i = none ∧ ri = v.ri ∧ v.inserted = [v.ri] ∧ rest = [storeBehind v a] ∨
        ∃ idx : Fin 2, spilled v.i ≠ none ∧ ri = v.ri + 1 ∧ v.inserted = [v.ri, v.ri] ∧
          rules = v.rules ∧ rest = [v.i.setInput idx (.tmp v.ri), storeBehind v a]) := by
  obtain ⟨unloaded, has⟩ : v.loads = false ∧ hasRewriteRule v.rules v.i.out := by
    simpa [Visit.redirects] using redirects
  have inserted : v.inserted = [v.ri] ++ if (spilled v.i).isSome then [v.ri] else [] := by
    simp [Visit.inserted, unloaded, redirects]
  generalize place : m :: rest = middle at visited
  cases visited with
  | @loaded idx a rule first =>
    have has := hasRewriteRule_of_rewriteTmp rule
    match idx with
    | 0 =>
      have has : hasRewriteRule v.rules v.i.in0 := has
      simp [Visit.loads, has] at unloaded
    | 1 =>
      have has : hasRewriteRule v.rules v.i.in1 := has
      simp [Visit.loads, has] at unloaded
  | @settled current middle behind _ _ _ redirected settled =>
    obtain ⟨a, rule, rfl⟩ : ∃ a, rewriteTmp v.rules v.i.out = .ok a ∧
        behind = [storeBehind v a] := by
      cases redirected with
      | kept unruled => simp [has] at unruled
      | stored rule => exact ⟨_, rule, rfl⟩
    refine ⟨a, rule, ?_⟩
    cases settled with
    | spilled spills =>
      obtain ⟨-, rfl⟩ := List.cons.inj place
      exact Or.inr ⟨_, by simp [spills], rfl, by simp [inserted, spills], rfl, rfl⟩
    | kept unspilled | swapped unspilled | addressed unspilled =>
      obtain ⟨-, rfl⟩ := List.cons.inj place
      exact Or.inl ⟨unspilled, rfl, by simp [inserted, unspilled], rfl⟩

end Visited

section Walk

variable {rules rules' : List Val} {ri ri' : Nat} {todo out more : List Insn} {vs : List Visit}

/-- An instruction whose output has a rule is redirected unless an input is loaded first. -/
theorem redirects_iff {v : Visit} :
    v.redirects ↔ v.loads = false ∧ ∃ x ∈ ruled v.rules, v.i.out = .tmp x := by
  rw [← hasRewriteRule_iff]
  simp [Visit.redirects]

private theorem addressed_setInput (i : Insn) (idx : Fin 2) (t : Nat) :
    (i.setInput idx (.tmp t)).addressed ⊆ i.addressed ∪ {t} ∧
      (idx = 1 → (i.setInput idx (.tmp t)).addressed = i.addressed) := by
  match idx with
  | 0 =>
    refine ⟨?_, fun other => absurd other (by decide)⟩
    rintro x ⟨-, isTmp⟩
    cases isTmp
    exact Or.inr rfl
  | 1 => exact ⟨Set.subset_union_left, fun _ => rfl⟩

/-- As long as no instruction writes an addressed local, none is redirected. `more` are the
instructions of the blocks behind. -/
theorem Walk.unredirected (walk : Walk rules ri todo vs out rules' ri')
    (below : ∀ i ∈ todo ++ more, i.Below ri)
    (writes : ¬ WritesAddressed (ruled rules) (todo ++ more)) :
    (∀ v ∈ vs, v.redirects = false) ∧ ri ≤ ri' ∧ ¬ WritesAddressed (ruled rules') more := by
  induction walk with
  | nil => exact ⟨by simp, Nat.le_refl _, writes⟩
  | @cons rules rules' _ ri ri' _ i m rest todo out vs visited _ ih =>
    simp only [List.cons_append, WritesAddressed, not_or] at writes
    obtain ⟨unwritten, later⟩ := writes
    rw [List.cons_append, List.forall_mem_cons] at below
    have unredirected : Visit.redirects ⟨rules, ri, i⟩ = false := by
      rw [← Bool.not_eq_true, redirects_iff]
      exact fun redirects => unwritten redirects.2
    rw [List.forall_mem_cons]
    rcases visited.unredirected unredirected with ⟨rfl, -, rfl, -, known⟩ |
      ⟨idx, rfl, rfl, -, rfl, known⟩
    · obtain ⟨others, le, writes⟩ := ih below.2 (by rw [known]; exact later)
      exact ⟨⟨unredirected, others⟩, le, writes⟩
    · obtain ⟨others, le, writes⟩ := ih
        (by
          rw [List.singleton_append, List.cons_append, List.forall_mem_cons]
          exact ⟨below.1.setInput idx, fun n member => (below.2 n member).mono (Nat.le_succ ri)⟩)
        (by
          rintro (⟨x, member, written⟩ | again)
          · rw [Insn.out_setInput] at written
            exact unwritten ⟨x, member, written⟩
          · have fresh : ∀ t ∈ ({ri} : Set Nat), ri ≤ t := by simp
            refine later (WritesAddressed.of_below (again.mono ?_) below.2 fresh)
            rw [Set.union_assoc]
            exact Set.union_subset_union_right _ (addressed_setInput i idx ri).1)
      exact ⟨⟨unredirected, others⟩, Nat.le_of_succ_le le, writes⟩

/-- A write of an addressed local is redirected when its instruction is visited for the last
time. -/
theorem Walk.redirects (walk : Walk rules ri todo vs out rules' ri')
    (writes : WritesAddressed (ruled rules) (todo ++ more)) :
    (∃ v ∈ vs, v.settles ∧ v.redirects) ∨ WritesAddressed (ruled rules') more := by
  induction walk with
  | nil => exact Or.inr writes
  | @cons rules rules' _ ri ri' _ i m rest todo out vs visited _ ih =>
    have found (later : WritesAddressed (ruled rules') (rest ++ todo ++ more)) :
        (∃ v ∈ (⟨rules, ri, i⟩ :: vs : List Visit), v.settles ∧ v.redirects) ∨
          WritesAddressed (ruled _) more :=
      (ih later).imp_left fun ⟨v, member, both⟩ => ⟨v, List.mem_cons_of_mem _ member, both⟩
    by_cases redirects : Visit.redirects ⟨rules, ri, i⟩
    · obtain ⟨unloaded, x, member, written⟩ := redirects_iff.mp redirects
      obtain ⟨a, -, ⟨unspilled, -, -, -⟩ | ⟨idx, -, rfl, -, rfl, rfl⟩⟩ :=
        visited.redirected redirects
      · have settles : Visit.settles ⟨rules, ri, i⟩ := by
          have unspilled : spilled i = none := unspilled
          simp [Visit.settles, unloaded, unspilled]
        exact Or.inl ⟨_, List.mem_cons_self, settles, redirects⟩
      · exact found (Or.inl ⟨x, member, (Insn.out_setInput i idx _).trans written⟩)
    · have unredirected : Visit.redirects ⟨rules, ri, i⟩ = false := by simpa using redirects
      rcases visited.unredirected unredirected with ⟨rfl, -, rfl, untouched, known⟩ |
        ⟨idx, rfl, rfl, -, rfl, known⟩
      · apply found
        rw [known]
        refine writes.resolve_left fun written => redirects (redirects_iff.mpr ⟨?_, written⟩)
        refine Bool.eq_false_iff.mpr fun loads => ?_
        simp [Visit.inserted, loads] at untouched
      · apply found
        rcases writes with ⟨x, member, written⟩ | later
        · exact Or.inl ⟨x, member, (Insn.out_setInput i idx _).trans written⟩
        · refine Or.inr (later.mono (Set.union_subset Set.subset_union_left fun x member => ?_))
          match idx with
          | 0 => exact Or.inl (known rfl x member)
          | 1 => exact Or.inr (by rw [(addressed_setInput i 1 ri).2 rfl]; exact member)

end Walk

section Functions

variable {fuel ri ri' : Nat} {rules : List Val} {blks blks' : List Blk}

/-- No visit redirects a write where no addressed temporary is written. -/
theorem correctBlks_unredirected (corrected : correctBlks fuel blks rules ri = .ok (blks', ri'))
    (below : ∀ b ∈ blks, b.Below ri)
    (writes : ¬ WritesAddressed (ruled rules) (blks.flatMap (·.insns))) :
    ∀ vs ∈ blksVisits fuel blks rules ri, ∀ v ∈ vs, v.redirects = false := by
  induction blks generalizing rules ri blks' with
  | nil => simp [blksVisits]
  | cons b rest ih =>
    obtain ⟨p, rest', first, others, rfl⟩ := correctBlks_cons corrected
    obtain ⟨q, -, rfl, -, -, walk⟩ := correctBlk_walk first
    rw [List.forall_mem_cons] at below
    have insns : ∀ n ∈ b.insns ++ rest.flatMap (·.insns), n.Below ri := by
      intro n member
      rcases List.mem_append.mp member with here | later
      · exact below.1.insns n here
      · obtain ⟨c, memberC, inside⟩ := List.mem_flatMap.mp later
        exact (below.2 c memberC).insns n inside
    obtain ⟨unredirected, le, writes'⟩ := walk.unredirected insns writes
    rw [blksVisits, first, List.forall_mem_cons]
    refine ⟨unredirected, ih others (fun c member => ?_) ?_⟩
    · exact (below.2 c member).mono (Nat.le_trans le (correctCmps_ri_le q))
    · rw [correctCmps_rules]
      exact writes'

/-- Some visit redirects a write where an addressed temporary is written. -/
theorem correctBlks_redirects (corrected : correctBlks fuel blks rules ri = .ok (blks', ri'))
    (writes : WritesAddressed (ruled rules) (blks.flatMap (·.insns))) :
    ∃ vs ∈ blksVisits fuel blks rules ri, ∃ v ∈ vs, v.settles ∧ v.redirects := by
  induction blks generalizing rules ri blks' with
  | nil => exact writes.elim
  | cons b rest ih =>
    obtain ⟨p, rest', first, others, rfl⟩ := correctBlks_cons corrected
    obtain ⟨q, -, rfl, -, -, walk⟩ := correctBlk_walk first
    rw [blksVisits, first]
    rcases walk.redirects writes with found | writes'
    · exact ⟨_, List.mem_cons_self, found⟩
    · rw [← correctCmps_rules] at writes'
      obtain ⟨vs, member, found⟩ := ih others writes'
      exact ⟨vs, List.mem_cons_of_mem _ member, found⟩

end Functions

/-- The write of `x` at index `k` goes to a temporary instead, which is stored at the address
`a` right behind it. -/
def StoredBehind (b : Blk) (k : Nat) (x a : Val) : Prop :=
  ∃ n s y, b.insns[k]? = some n ∧ b.insns[k + 1]? = some s ∧ n.out = .tmp y ∧ n.out ≠ x ∧
    s.type = .store ∧ s.out = .noclass ∧ s.in0 = a ∧ s.in1 = .tmp y

/-- Every temporary that is stored at `a` is defined by an instruction. -/
def StoresDefined (g : Fn) (a : Val) : Prop :=
  ∀ b ∈ g.blks, ∀ s ∈ b.insns, s.type = .store → s.in0 = a → ∀ t, s.in1 = .tmp t →
    ∃ c ∈ g.blks, ∃ n ∈ c.insns, n.out = .tmp t

/-- No write of an addressed local is lost: where an instruction is visited for the last time
and its output has a rule to the address `a`, its result is stored there. -/
def WritesStored (fuel : Nat) (f g : Fn) : Prop :=
  ∀ (i k : Nat) (b : Blk) (vs : List Visit) (v : Visit) (a : Val), g.blks[i]? = some b →
    (blksVisits fuel f.blks [] f.ntmp)[i]? = some vs → vs[k]? = some v → v.settles →
      rewriteTmp v.rules v.i.out = .ok a → StoredBehind b k v.i.out a ∧ StoresDefined g a

section Stores

/-- What a STORE without a value is replaced by. -/
private theorem Visited.unvalued {v : Visit} {m : Insn} {rest : List Insn} {rules : List Val}
    {ri : Nat} (visited : Visited v (m :: rest) rules ri) (store : v.i.type = .store)
    (unvalued : v.i.in1 = .noclass) : m.type ≠ .store ∨ m.in1 = .noclass := by
  generalize place : m :: rest = middle at visited
  cases visited with
  | loaded =>
    obtain ⟨rfl, -⟩ := List.cons.inj place
    exact Or.inl (by simp [insnCreate])
  | settled _ redirected settled =>
    cases settled with
    | spilled spills =>
      obtain ⟨rfl, -⟩ := List.cons.inj place
      refine Or.inl ?_
      rcases spilled_eq_some spills with ⟨rfl, -⟩ | ⟨rfl, -, -⟩ <;> simp [insnCreate]
    | swapped _ commutes => simp [store] at commutes
    | kept | addressed =>
      obtain ⟨rfl, -⟩ := List.cons.inj place
      rw [redirected.eq]
      exact Or.inr unvalued

/-- The STORE behind a redirected instruction has no value to store. -/
private theorem Walk.unstored {rules rules' : List Val} {ri ri' k : Nat} {todo out : List Insn}
    {vs : List Visit} (walk : Walk rules ri todo vs out rules' ri') {v : Visit}
    (found : vs[k]? = some v) (settles : v.settles) (redirects : v.redirects) :
    ∃ s, out[k + 1]? = some s ∧ (s.type ≠ .store ∨ s.in1 = .noclass) := by
  induction walk generalizing k with
  | nil => simp at found
  | cons visited behind ih =>
    cases k with
    | succ k => exact ih found
    | zero =>
      cases Option.some.inj found
      simp only [Visit.settles, Bool.and_eq_true, Option.isNone_iff_eq_none] at settles
      obtain ⟨a, -, ⟨-, -, -, rfl⟩ | ⟨idx, spills, -⟩⟩ := visited.redirected redirects
      · cases behind with
        | cons visited' _ => exact ⟨_, rfl, visited'.unvalued rfl rfl⟩
      · exact absurd settles.2 spills

/-- No write of an addressed local is lost exactly if there is none. -/
theorem writesStored_iff {f g : Fn} {fuel ri : Nat} (built : Frontend.ParserBuilt f)
    (corrected : correct fuel f f.ntmp = .ok (g, ri)) :
    WritesStored fuel f g ↔ ¬ WritesAddressed ∅ f.text := by
  obtain ⟨_, source, parsed⟩ := built
  obtain ⟨chunks, built⟩ := Frontend.buildFunction_built parsed
  simp only [correct, Result.bind_eq_ok, Result.pure_eq, Except.ok.injEq, Prod.mk.injEq,
    Prod.exists] at corrected
  obtain ⟨blks, _, passed, rfl, rfl⟩ := corrected
  rw [← ruled_nil]
  constructor
  · intro stored writes
    obtain ⟨vs, memberVs, v, memberV, settles, redirects⟩ := correctBlks_redirects passed writes
    obtain ⟨i, foundVs⟩ := List.mem_iff_getElem?.mp memberVs
    obtain ⟨k, foundV⟩ := List.mem_iff_getElem?.mp memberV
    obtain ⟨b, foundB, rules, ri, todo, out, copies, rules', ri', walk, insns⟩ :=
      Lists.getElem?_of_forall₂ (correctBlks_walks passed) foundVs
    obtain ⟨s, foundS, unvalued⟩ := walk.unstored foundV settles redirects
    obtain ⟨a, rule⟩ := rewriteTmp_of_hasRewriteRule
      (hasRewriteRule_iff.mpr (redirects_iff.mp redirects).2)
    obtain ⟨⟨n, s', y, -, foundS', -, -, store, -, -, value⟩, -⟩ :=
      stored i k b vs v a foundB foundVs foundV settles rule
    rw [insns, List.getElem?_append_left (List.getElem?_eq_some_iff.mp foundS).1, foundS,
      Option.some.injEq] at foundS'
    subst foundS'
    exact unvalued.elim (· store) (fun none => by simp [none] at value)
  · intro writes i k b vs v a foundB foundVs foundV settles rule
    have unredirected := correctBlks_unredirected passed built.below writes vs
      (List.mem_of_getElem? foundVs) v (List.mem_of_getElem? foundV)
    have unloaded : v.loads = false := by
      simp only [Visit.settles, Bool.and_eq_true, Bool.not_eq_true'] at settles
      exact settles.1
    simp [Visit.redirects, unloaded, hasRewriteRule_of_rewriteTmp rule] at unredirected

/-- The loop test writes no addressed local. -/
theorem writesStored_iff_simpleLoop :
    ∃ f g ri, Frontend.buildFunction 0 Frontend.simpleLoop = .ok f ∧
      correct 20 f f.ntmp = .ok (g, ri) ∧ WritesStored 20 f g := by
  have ran : ∃ f g ri, Frontend.buildFunction 0 Frontend.simpleLoop = .ok f ∧
      correct 20 f f.ntmp = .ok (g, ri) ∧ ∀ n ∈ f.text, n.type ≠ .addr :=
    ⟨_, _, _, by rfl, by rfl, by decide⟩
  obtain ⟨f, g, ri, parsed, corrected, noAddr⟩ := ran
  exact ⟨f, g, ri, parsed, corrected,
    (writesStored_iff ⟨0, _, parsed⟩ corrected).mpr (not_writesAddressed noAddr)⟩

/-- A local is written, its address is taken, and it is written again. -/
def writtenAgain : Frontend.Function where
  name := "main"
  body := {
    items := [
      { stmt := .plain (.immInt .i27 "x" 1) },
      { stmt := .plain (.addr .i27 "a" "x") },
      { stmt := .plain (.immInt .i27 "x" 2) },
      { stmt := .leave [.id "x"] }] }

/-- The second write is followed by a STORE that has no value to store. -/
theorem writtenAgain_lost :
    ∃ f g ri, Frontend.buildFunction 0 writtenAgain = .ok f ∧
      correct 20 f f.ntmp = .ok (g, ri) ∧ ¬ WritesStored 20 f g := by
  have ran : ∃ f g ri b vs v s, Frontend.buildFunction 0 writtenAgain = .ok f ∧
      correct 20 f f.ntmp = .ok (g, ri) ∧ g.blks[0]? = some b ∧
        (blksVisits 20 f.blks [] f.ntmp)[0]? = some vs ∧ vs[2]? = some v ∧ v.settles ∧
          rewriteTmp v.rules v.i.out = .ok (.tmp 1) ∧ b.insns[3]? = some s ∧ s.in1 = .noclass :=
    ⟨_, _, _, _, _, _, _, by rfl, by rfl, by rfl, by rfl, by rfl, by rfl, by rfl, by rfl, by rfl⟩
  obtain ⟨f, g, ri, b, vs, v, s, parsed, corrected, first, visited, again, settles, rule, behind,
    unvalued⟩ := ran
  refine ⟨f, g, ri, parsed, corrected, fun stored => ?_⟩
  obtain ⟨⟨n, s', y, -, behind', -, -, -, -, -, value⟩, -⟩ :=
    stored 0 2 b vs v _ first visited again settles rule
  rw [behind, Option.some.injEq] at behind'
  rw [← behind', unvalued] at value
  cases value

end Stores
end Correct
end Qbt
