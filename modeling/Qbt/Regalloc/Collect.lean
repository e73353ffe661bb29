import Qbt.Regalloc.Input

/-!
# The lifetimes of a block

In the form `ssa` leaves behind, a block defines its temporaries in ascending order and uses
none it does not define. So `collect_lifetimes` finds an entry for everything that is used, and
the entries it leaves are sorted by where their lifetimes start.
-/

namespace Qbt.Regalloc

/-- The lifetimes while a block is read: those of the temporaries `defs`, which are defined at
ascending positions up to `pos`. -/
structure Recorded (lifetimes : List Lifetime) (defs : List Nat) (pos : Nat) : Prop where
  used : ∀ t, (lifetimeOf lifetimes t).used ≠ 0 ↔ t ∈ defs
  v : ∀ t ∈ defs, (lifetimeOf lifetimes t).v = .tmp t
  start : ∀ t ∈ defs, (lifetimeOf lifetimes t).start ≤ pos
  ascending : ∀ t ∈ defs, ∀ u ∈ defs, t < u →
    (lifetimeOf lifetimes t).start ≤ (lifetimeOf lifetimes u).start

section Recorded

variable {lifetimes : List Lifetime} {defs : List Nat} {pos : Nat}

/-- Nothing is recorded in front of a block. -/
theorem Recorded.nil : Recorded [] [] 0 := by
  constructor <;> simp [lifetimeOf]

theorem Recorded.mono {later : Nat} (recorded : Recorded lifetimes defs pos) (le : pos ≤ later) :
    Recorded lifetimes defs later :=
  { recorded with start := fun t known => Nat.le_trans (recorded.start t known) le }

/-- A temporary that is defined last starts last. -/
theorem Recorded.addDef {t : Nat} (recorded : Recorded lifetimes defs pos)
    (last : ∀ d ∈ defs, d < t) : Recorded (addDef lifetimes (.tmp t) pos) (defs ++ [t]) pos := by
  have own : lifetimeOf (Regalloc.addDef lifetimes (.tmp t) pos) t =
      { v := .tmp t, start := pos, finish := pos, used := 1 } := by
    rw [lifetimeOf_addDef]
    exact if_pos rfl
  have other {u : Nat} (differs : u ≠ t) :
      lifetimeOf (Regalloc.addDef lifetimes (.tmp t) pos) u = lifetimeOf lifetimes u := by
    rw [lifetimeOf_addDef]
    exact if_neg differs
  have old {u : Nat} (known : u ∈ defs) : u ≠ t := Nat.ne_of_lt (last u known)
  have cases' {u : Nat} (known : u ∈ defs ++ [t]) : u ∈ defs ∨ u = t := by simpa using known
  constructor
  · intro u
    by_cases same : u = t
    · subst u
      simp [own]
    · rw [other same, recorded.used]
      simp [same]
  · intro u known
    rcases cases' known with known | rfl
    · rw [other (old known)]
      exact recorded.v u known
    · rw [own]
  · intro u known
    rcases cases' known with known | rfl
    · rw [other (old known)]
      exact recorded.start u known
    · rw [own]
  · intro u knownU w knownW less
    rcases cases' knownU with oldU | rfl
    · rw [other (old oldU)]
      rcases cases' knownW with oldW | rfl
      · rw [other (old oldW)]
        exact recorded.ascending u oldU w oldW less
      · rw [own]
        exact recorded.start u oldU
    · rcases cases' knownW with oldW | rfl
      · exact absurd (last w oldW) (Nat.not_lt_of_gt less)
      · exact absurd less (Nat.lt_irrefl _)

/-- A use of a temporary that is defined is recorded. -/
theorem Recorded.addUse {t i : Nat} (recorded : Recorded lifetimes defs pos) (known : t ∈ defs) :
    ∃ lifetimes', addUse lifetimes (.tmp t) i = .ok lifetimes' ∧ Recorded lifetimes' defs pos := by
  have added : Regalloc.addUse lifetimes (.tmp t) i = .ok _ :=
    addUse_eq_ok.mpr ⟨(recorded.used t).mpr known, rfl⟩
  refine ⟨_, added, ?_⟩
  have kept (u : Nat) := lifetimeOf_addUse added u
  have v (u : Nat) := congrArg Lifetime.v (kept u)
  have start (u : Nat) := congrArg Lifetime.start (kept u)
  simp only [apply_ite Lifetime.v, ite_self] at v
  simp only [apply_ite Lifetime.start, ite_self] at start
  constructor
  · intro u
    rw [kept]
    by_cases same : u = (Val.tmp t).num
    · rw [if_pos same]
      have same : u = t := same
      simp [same, known]
    · rw [if_neg same]
      exact recorded.used u
  · intro u knownU
    rw [v]
    exact recorded.v u knownU
  · intro u knownU
    rw [start]
    exact recorded.start u knownU
  · intro u knownU w knownW less
    rw [start, start]
    exact recorded.ascending u knownU w knownW less

/-- A use of what is defined keeps the definitions recorded. -/
theorem Recorded.useTmp {v : Val} {i : Nat} (recorded : Recorded lifetimes defs pos)
    (known : ∀ t ∈ v.temps, t ∈ defs) :
    ∃ lifetimes', useTmp lifetimes v i = .ok lifetimes' ∧ Recorded lifetimes' defs pos := by
  cases v with
  | tmp t => exact recorded.addUse (known t rfl)
  | _ => exact ⟨lifetimes, rfl, recorded⟩

/-- A definition behind the others is recorded. -/
theorem Recorded.defTmp {v : Val} (recorded : Recorded lifetimes defs pos)
    (last : ∀ d ∈ defs, ∀ t ∈ v.number?, d < t) :
    Recorded (defTmp lifetimes v pos) (defs ++ v.number?.toList) pos := by
  cases v with
  | tmp t => exact recorded.addDef fun d known => last d known t rfl
  | _ => simpa [Regalloc.defTmp, Val.isTmp, Val.number?] using recorded

/-- Block arguments that are defined are collected. -/
theorem Recorded.collectArgs {args : List Val} {i : Nat} (recorded : Recorded lifetimes defs pos)
    (temps : ∀ a ∈ args, a.isTmp) (known : ∀ t ∈ tempsOf args, t ∈ defs) :
    ∃ lifetimes', collectArgs lifetimes args i = .ok lifetimes' ∧
      Recorded lifetimes' defs pos := by
  induction args generalizing lifetimes with
  | nil => exact ⟨lifetimes, rfl, recorded⟩
  | cons a rest ih =>
    rw [List.forall_mem_cons] at temps
    obtain ⟨t, rfl⟩ := Val.isTmp_iff.mp temps.1
    obtain ⟨next, added, recorded⟩ := recorded.addUse (i := i) (known t (by simp))
    obtain ⟨last, others, recorded⟩ := ih recorded temps.2 fun u member =>
      known u (by simp only [mem_tempsOf, List.mem_cons] at member ⊢; exact Or.inr member)
    refine ⟨last, ?_, recorded⟩
    rw [Regalloc.collectArgs, List.foldlM_cons, added]
    exact others

private theorem recorded_params {params : List Val} (recorded : Recorded lifetimes defs 0)
    (temps : ∀ p ∈ params, p.isTmp)
    (increasing : (defs ++ params.filterMap Val.number?).Pairwise (· < ·)) :
    Recorded (params.foldl (fun lifetimes v => addDef lifetimes v 0) lifetimes)
      (defs ++ params.filterMap Val.number?) 0 := by
  induction params generalizing lifetimes defs with
  | nil => simpa using recorded
  | cons p rest ih =>
    rw [List.forall_mem_cons] at temps
    obtain ⟨t, rfl⟩ := Val.isTmp_iff.mp temps.1
    have same : defs ++ (Val.tmp t :: rest).filterMap Val.number? =
        defs ++ [t] ++ rest.filterMap Val.number? := by simp [Val.number?]
    rw [same] at increasing ⊢
    have last : ∀ d ∈ defs, d < t := fun d known =>
      (List.pairwise_append.mp (List.pairwise_append.mp increasing).1).2.2 d known t (by simp)
    exact ih (recorded.addDef last) temps.2 increasing

end Recorded

/-- Hints can always be recorded. -/
theorem collectHints_total (c : Collected) (n : Insn) : ∃ c', collectHints c n = .ok c' := by
  unfold collectHints
  split
  · rename_i out in0
    rw [out, in0]
    exact ⟨_, rfl⟩
  · rename_i out in0
    rw [out, in0]
    exact ⟨_, rfl⟩
  · exact ⟨c, rfl⟩

section Blocks

variable {c : Collected} {defs : List Nat} {pos : Nat}

/-- An instruction that reads what is defined is collected. -/
theorem Recorded.collectInsn {n : Insn} (recorded : Recorded c.lifetimes defs pos)
    (known : ∀ t ∈ n.reads, t ∈ defs) (last : ∀ d ∈ defs, ∀ t ∈ n.out.number?, d < t) :
    ∃ c', collectInsn c n pos = .ok c' ∧
      Recorded c'.lifetimes (defs ++ n.out.number?.toList) pos := by
  obtain ⟨first, used0, recorded⟩ := recorded.useTmp (i := pos) fun t read => known t (Or.inl read)
  obtain ⟨second, used1, recorded⟩ := recorded.useTmp (i := pos) fun t read => known t (Or.inr read)
  obtain ⟨next, hinted⟩ :=
    collectHints_total { c with lifetimes := Regalloc.defTmp second n.out pos } n
  refine ⟨_,
    by rw [Regalloc.collectInsn, used0, Result.ok_bind, used1, Result.ok_bind, hinted]; rfl,
    ?_⟩
  rw [show next.lifetimes = Regalloc.defTmp second n.out pos from
    (collectHints_lifetimes hinted).1]
  exact recorded.defTmp last

/-- Instructions that read what is defined in front of them are collected. -/
theorem Recorded.collectInsns {insns : List Insn} (recorded : Recorded c.lifetimes defs pos)
    (increasing : (defs ++ insns.filterMap (·.out.number?)).Pairwise (· < ·))
    (known : ∀ before n after, insns = before ++ n :: after →
      ∀ t ∈ n.reads, t ∈ defs ++ before.filterMap (·.out.number?)) :
    ∃ c', collectInsns c insns pos = .ok c' ∧
      Recorded c'.lifetimes (defs ++ insns.filterMap (·.out.number?)) (pos + insns.length) := by
  induction insns generalizing c defs pos with
  | nil => exact ⟨c, rfl, by simpa using recorded⟩
  | cons n rest ih =>
    have split (before : List Insn) : defs ++ (n :: before).filterMap (·.out.number?) =
        defs ++ n.out.number?.toList ++ before.filterMap (·.out.number?) := by
      rw [List.filterMap_cons]
      cases n.out.number? <;> simp
    rw [split] at increasing ⊢
    have last : ∀ d ∈ defs, ∀ t ∈ n.out.number?, d < t := fun d old t new =>
      (List.pairwise_append.mp (List.pairwise_append.mp increasing).1).2.2 d old t
        (Option.mem_toList.mpr new)
    have reads : ∀ t ∈ n.reads, t ∈ defs := fun t read => by
      simpa using known [] n rest rfl t read
    obtain ⟨next, first, recorded⟩ := recorded.collectInsn reads last
    obtain ⟨c', others, recorded⟩ := ih (recorded.mono (Nat.le_succ pos)) increasing
      fun before m after same t read => by
        rw [← split]
        exact known (n :: before) m after (by rw [same]; rfl) t read
    refine ⟨c', ?_, recorded.mono (by rw [List.length_cons]; omega)⟩
    rw [Regalloc.collectInsns, first]
    exact others

theorem mem_numbers {vals : List Val} {t : Nat} :
    t ∈ vals.filterMap Val.number? ↔ t ∈ tempsOf vals := by
  rw [List.mem_filterMap, mem_tempsOf]
  constructor
  · rintro ⟨v, member, number⟩
    rwa [← Val.mem_number?.mp number]
  · exact fun member => ⟨_, member, rfl⟩

theorem mem_outNumbers {insns : List Insn} {t : Nat} :
    t ∈ insns.filterMap (·.out.number?) ↔ t ∈ definedIn insns := by
  rw [List.mem_filterMap]
  constructor
  · rintro ⟨n, listed, number⟩
    exact ⟨n, listed, Val.mem_number?.mp number⟩
  · rintro ⟨n, listed, written⟩
    exact ⟨n, listed, Val.mem_number?.mpr written⟩

/-- The temporaries a block defines are its parameters and outputs. -/
theorem mem_defs {b : Blk} {t : Nat} : t ∈ b.defs ↔ t ∈ tempsOf b.params ∪ b.defined := by
  rw [Blk.defs, List.mem_append, mem_numbers, mem_outNumbers]
  exact Iff.rfl

/-- What `collect_lifetimes` records for a block in the form of `ssa`. -/
theorem collectLifetimes_recorded {b : Blk} (hints rmap : List Val) (uses : b.UsesDefined)
    (increasing : b.defs.Pairwise (· < ·)) (before : BeforeAlloc b) :
    ∃ c, collectLifetimes b hints rmap = .ok c ∧
      Recorded c.lifetimes b.defs (b.insns.length + 1) := by
  have known {t : Nat} (member : t ∈ tempsOf b.params ∪ b.defined) : t ∈ b.defs :=
    mem_defs.mpr member
  have params := recorded_params Recorded.nil before.params
    (by rw [List.nil_append]; exact (List.pairwise_append.mp increasing).1)
  rw [List.nil_append] at params
  obtain ⟨c, insns, recorded⟩ := Recorded.collectInsns
    (c := { hints, lifetimes := _, rmap, calls := [] }) (params.mono (Nat.zero_le 1)) increasing
    fun front n after split t read => List.mem_append.mpr
      ((uses.reads front n after split read).imp mem_numbers.mpr mem_outNumbers.mpr)
  have recorded : Recorded c.lifetimes b.defs (1 + b.insns.length) := recorded
  obtain ⟨l0, cmp0, recorded⟩ := recorded.useTmp (v := b.cmp0) (i := b.insns.length + 1)
    fun t read => known (uses.compared (Or.inl read))
  obtain ⟨l1, cmp1, recorded⟩ := recorded.useTmp (v := b.cmp1) (i := b.insns.length + 1)
    fun t read => known (uses.compared (Or.inr read))
  obtain ⟨l2, args1, recorded⟩ := recorded.collectArgs (i := b.insns.length + 1) before.args1
    fun t read => known (uses.args1 read)
  obtain ⟨l3, args2, recorded⟩ := recorded.collectArgs (i := b.insns.length + 1) before.args2
    fun t read => known (uses.args2 read)
  refine ⟨{ c with lifetimes := l3 }, ?_, recorded.mono (by omega)⟩
  simp only [collectLifetimes, insns, Result.ok_bind, cmp0, cmp1, args1, args2]
  rfl

end Blocks

end Qbt.Regalloc
