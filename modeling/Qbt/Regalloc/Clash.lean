import Qbt.Regalloc.Optimize

/-!
# Clashes

Two temporaries clash when their lifetimes overlap and they get the same register. What
`build_rmap` reserves leaves out temporaries that received their hint and temporaries
that moves reserve a register for, unless the active lifetimes it has kept happen to
list them.
-/

namespace Qbt.Regalloc

/-- The lifetime recorded for a temporary. -/
def lifetimeOf (lifetimes : List Lifetime) (t : Nat) : Lifetime := lifetimes.getD t {}

/-- The register a rule gives to a temporary. -/
def ruleOf (rmap : List Val) (t : Nat) : Val := rmap.getD t .noclass

/-- Both are live at some point. -/
def Lifetime.Overlaps (l m : Lifetime) : Prop := l.start < m.finish ∧ m.start < l.finish

/-- Overlapping does not depend on the order. -/
theorem Lifetime.Overlaps.symm {l m : Lifetime} (overlaps : l.Overlaps m) : m.Overlaps l :=
  ⟨overlaps.2, overlaps.1⟩

/-- The entries in use are numbered by the parameter or temporary they are about. -/
def Indexed (params : List Val) (lifetimes : List Lifetime) : Prop :=
  ∀ t, (lifetimeOf lifetimes t).used ≠ 0 →
    (lifetimeOf lifetimes t).v.num = t ∧
      ((lifetimeOf lifetimes t).v.isTmp ∨ (lifetimeOf lifetimes t).v ∈ params)

section Indexed

variable {params : List Val} {lifetimes lifetimes' : List Lifetime} {v : Val} {i : Nat}

/-- A definition starts the lifetime of its temporary anew. -/
theorem lifetimeOf_addDef (t : Nat) : lifetimeOf (addDef lifetimes v i) t =
    if t = v.num then { v, start := i, finish := i, used := 1 } else lifetimeOf lifetimes t :=
  Padded.getD_write lifetimes v.num t _

/-- A use is recorded for its own temporary, which must be in use. -/
theorem addUse_eq_ok : addUse lifetimes v i = .ok lifetimes' ↔
    (lifetimeOf lifetimes v.num).used ≠ 0 ∧ lifetimes' = lifetimes.set v.num
      { lifetimeOf lifetimes v.num with
        used := (lifetimeOf lifetimes v.num).used + 1, finish := i } := by
  unfold addUse lifetimeOf
  rw [List.getD_eq_getElem?_getD]
  cases found : lifetimes[v.num]? with
  | none => simp
  | some l =>
    simp only [Result.bind_eq_ok, Result.check_eq_ok, Result.pure_eq, Except.ok.injEq,
      decide_eq_true_eq, exists_const, Option.getD_some, eq_comm (b := lifetimes')]

/-- A use extends the lifetime of its temporary. -/
theorem lifetimeOf_addUse (added : addUse lifetimes v i = .ok lifetimes') (t : Nat) :
    lifetimeOf lifetimes' t =
      if t = v.num then { lifetimeOf lifetimes t with
        used := (lifetimeOf lifetimes t).used + 1, finish := i }
      else lifetimeOf lifetimes t := by
  obtain ⟨used, rfl⟩ := addUse_eq_ok.mp added
  have inside : v.num < lifetimes.length := by
    by_contra outside
    rw [lifetimeOf, List.getD_eq_getElem?_getD,
      List.getElem?_eq_none (Nat.le_of_not_lt outside)] at used
    exact used rfl
  unfold lifetimeOf
  by_cases same : t = v.num
  · subst t
    simp [List.getD_eq_getElem?_getD, inside]
  · simp [List.getD_eq_getElem?_getD, same, List.getElem?_set_ne (Ne.symm same)]

theorem Indexed.addDef (indexed : Indexed params lifetimes) (known : v.isTmp ∨ v ∈ params) :
    Indexed params (addDef lifetimes v i) := by
  intro t used
  rw [lifetimeOf_addDef] at used ⊢
  by_cases same : t = v.num
  · rw [if_pos same]
    exact ⟨same.symm, known⟩
  · rw [if_neg same] at used ⊢
    exact indexed t used

theorem Indexed.addUse (indexed : Indexed params lifetimes)
    (added : addUse lifetimes v i = .ok lifetimes') : Indexed params lifetimes' := by
  intro t used
  have before := (addUse_eq_ok.mp added).1
  rw [lifetimeOf_addUse added] at used ⊢
  by_cases same : t = v.num
  · subst t
    rw [if_pos rfl]
    exact indexed _ before
  · rw [if_neg same] at used ⊢
    exact indexed t used

theorem Indexed.useTmp (indexed : Indexed params lifetimes)
    (added : useTmp lifetimes v i = .ok lifetimes') : Indexed params lifetimes' := by
  unfold Regalloc.useTmp at added
  split at added
  · exact indexed.addUse added
  · cases added
    exact indexed

theorem Indexed.defTmp (indexed : Indexed params lifetimes) :
    Indexed params (defTmp lifetimes v i) := by
  unfold Regalloc.defTmp
  split
  · exact indexed.addDef (Or.inl ‹_›)
  · exact indexed

/-- Hints leave the lifetimes alone. -/
theorem collectHints_lifetimes {c c' : Collected} {n : Insn}
    (collected : collectHints c n = .ok c') : c'.lifetimes = c.lifetimes ∧ c'.calls = c.calls := by
  unfold collectHints at collected
  split at collected <;>
    simp only [Result.bind_eq_ok, Result.pure_eq, Except.ok.injEq] at collected
  · obtain ⟨_, _, _, _, rfl⟩ := collected
    exact ⟨rfl, rfl⟩
  · obtain ⟨_, _, rfl⟩ := collected
    exact ⟨rfl, rfl⟩
  · rw [← collected]
    exact ⟨rfl, rfl⟩

theorem Indexed.collectInsn {c c' : Collected} {n : Insn} {pos : Nat}
    (indexed : Indexed params c.lifetimes) (collected : collectInsn c n pos = .ok c') :
    Indexed params c'.lifetimes := by
  simp only [Regalloc.collectInsn, Result.bind_eq_ok, Result.pure_eq, Except.ok.injEq]
    at collected
  obtain ⟨_, use0, _, use1, next, hinted, rfl⟩ := collected
  rw [show next.lifetimes = _ from (collectHints_lifetimes hinted).1]
  exact ((indexed.useTmp use0).useTmp use1).defTmp

/-- Reading the instructions keeps the table numbered. -/
theorem Indexed.collectInsns {c c' : Collected} {insns : List Insn} {pos : Nat}
    (indexed : Indexed params c.lifetimes) (collected : collectInsns c insns pos = .ok c') :
    Indexed params c'.lifetimes := by
  induction insns generalizing c pos with
  | nil =>
    cases collected
    exact indexed
  | cons n rest ih =>
    simp only [Regalloc.collectInsns, Result.bind_eq_ok] at collected
    obtain ⟨next, first, others⟩ := collected
    exact ih (indexed.collectInsn first) others

/-- Reading block arguments keeps the table numbered. -/
theorem Indexed.collectArgs {args : List Val} (indexed : Indexed params lifetimes)
    (collected : collectArgs lifetimes args i = .ok lifetimes') : Indexed params lifetimes' := by
  induction args generalizing lifetimes with
  | nil =>
    cases collected
    exact indexed
  | cons v rest ih =>
    simp only [Regalloc.collectArgs, List.foldlM_cons, Result.bind_eq_ok] at collected
    obtain ⟨next, first, others⟩ := collected
    exact ih (indexed.addUse first) others

private theorem indexed_params (params rest : List Val) (inside : ∀ v ∈ rest, v ∈ params)
    (indexed : Indexed params lifetimes) :
    Indexed params (rest.foldl (fun lifetimes v => addDef lifetimes v 0) lifetimes) := by
  induction rest generalizing lifetimes with
  | nil => exact indexed
  | cons v rest ih =>
    exact ih (fun w member => inside w (List.mem_cons_of_mem _ member))
      (indexed.addDef (Or.inr (inside v List.mem_cons_self)))

/-- The lifetimes of a block are about its parameters and temporaries. -/
theorem collectLifetimes_indexed {b : Blk} {hints rmap : List Val} {c : Collected}
    (collected : collectLifetimes b hints rmap = .ok c) : Indexed b.params c.lifetimes := by
  simp only [collectLifetimes, Result.bind_eq_ok, Result.pure_eq, Except.ok.injEq] at collected
  obtain ⟨_, insns, _, cmp0, _, cmp1, _, args1, _, args2, rfl⟩ := collected
  have empty : Indexed b.params [] := fun t used => absurd rfl used
  have params := indexed_params b.params b.params (fun _ member => member) empty
  exact ((((Indexed.collectInsns params insns).useTmp cmp0).useTmp cmp1).collectArgs
    args1).collectArgs args2

end Indexed

section Rules

variable {rmap rmap' : List Val} {v r : Val} {t : Nat}

/-- There is a rule if the table has a value. -/
theorem hasRewriteRule_iff : hasRewriteRule rmap v ↔ ruleOf rmap v.num ≠ .noclass := by
  unfold hasRewriteRule ruleOf
  generalize rmap.getD v.num .noclass = rule
  cases rule <;> simp [Val.hasclass]

/-- Temporaries are rewritten if there is a rule. -/
theorem rewriteTmp_eq_ok : rewriteTmp rmap v = .ok r ↔
    ∃ t, v = .tmp t ∧ ruleOf rmap t = r ∧ r ≠ .noclass := by
  cases v with
  | tmp t =>
    simp only [rewriteTmp, ruleOf, Val.tmp.injEq, exists_eq_left', List.getD_eq_getElem?_getD]
    cases rmap[t]? with
    | none => simp [eq_comm]
    | some rule =>
      cases rule with
      | noclass => simp [eq_comm]
      | _ => exact ⟨fun same => ⟨Except.ok.inj same, by simp [← Except.ok.inj same]⟩,
          fun found => congrArg _ found.1⟩
  | _ => simp [rewriteTmp]

/-- A temporary with a rule is rewritten to what the rule says. -/
theorem rewriteTmp_of_rule (rule : ruleOf rmap t ≠ .noclass) :
    rewriteTmp rmap (.tmp t) = .ok (ruleOf rmap t) :=
  rewriteTmp_eq_ok.mpr ⟨t, rfl, rfl, rule⟩

/-- Rules lead from temporaries to registers. -/
theorem addRewriteRule_eq_ok : addRewriteRule rmap v r = .ok rmap' ↔
    ∃ t k, v = .tmp t ∧ r = .reg k ∧ rmap' = Padded.write .noclass rmap t (.reg k) := by
  unfold addRewriteRule
  split
  · simp [eq_comm]
  · rename_i other
    refine ⟨(fun added => by cases added), ?_⟩
    rintro ⟨t, k, rfl, rfl, _⟩
    exact (other t k rfl rfl).elim

/-- Adding a rule changes that of one temporary. -/
theorem ruleOf_addRewriteRule (added : addRewriteRule rmap v r = .ok rmap') (t : Nat) :
    ruleOf rmap' t = if t = v.num then r else ruleOf rmap t := by
  obtain ⟨u, k, rfl, rfl, rfl⟩ := addRewriteRule_eq_ok.mp added
  exact Padded.getD_write rmap u t _

end Rules

/-- The register `build_rmap` prefers when `reserved` is reserved: the hint if it is
free, or else the first free register. -/
def Preferred (hint : Val) (reserved : List Val) (r : Val) : Prop :=
  if hint.hasclass ∧ regFree reserved hint then r = hint
  else findFreeReg reserved = .ok r

/-- The register that is found is in the table and free. -/
theorem findFreeReg_eq_ok {reserved : List Val} {r : Val} (found : findFreeReg reserved = .ok r) :
    ∃ k ∈ trMap, r = .reg k ∧ regFree reserved r := by
  unfold findFreeReg at found
  split at found
  · rename_i k first
    cases found
    have free : regFree reserved (.reg k) = true := by
      simpa using List.find?_some first
    exact ⟨k, List.mem_of_find?_eq_some first, rfl, free⟩
  · cases found

/-- What is free is not reserved. -/
theorem not_mem_of_regFree {reserved : List Val} {r : Val} (free : regFree reserved r) :
    r ∉ reserved := by
  intro member
  have differs := List.all_eq_true.mp free _ member
  cases r <;> simp [Val.same] at differs

/-- What is reserved are the registers of the temporaries collected. -/
theorem mem_buildReserved {active : List Lifetime} {rmap reserved : List Val}
    (built : buildReserved active rmap = .ok reserved) {l : Lifetime} (member : l ∈ active)
    (used : l.used ≠ 0) (rule : hasRewriteRule rmap l.v) :
    ∃ r ∈ reserved, rewriteTmp rmap l.v = .ok r := by
  have listed : l ∈ active.filter fun l => l.used ≠ 0 ∧ hasRewriteRule rmap l.v := by
    simp [member, used, rule]
  have paired := Result.mapM_eq_ok.mp built
  obtain ⟨i, inside, rfl⟩ := List.mem_iff_getElem.mp listed
  have inside' : i < reserved.length := by rwa [← paired.length_eq]
  exact ⟨reserved[i], List.getElem_mem inside', List.Forall₂.get paired inside inside'⟩

section Step

variable {hints : List Val} {lifetimes : List Lifetime} {a a' : Assignment} {t : Nat} {l : Lifetime}

/-- A lifetime that needs a register gets the preferred one. -/
theorem chooseReg_eq_ok (chosen : chooseReg hints lifetimes a t l = .ok a') :
    ∃ reserved r, reservedFor lifetimes a t l = .ok reserved ∧
      Preferred (getHint hints l.v) reserved r ∧ addRewriteRule a.rmap l.v r = .ok a'.rmap := by
  simp only [chooseReg, Result.bind_eq_ok] at chosen
  obtain ⟨reserved, built, chosen⟩ := chosen
  refine ⟨reserved, ?_⟩
  unfold Preferred
  split at chosen
  · rename_i free
    simp only [Result.bind_eq_ok, Result.pure_eq, Except.ok.injEq] at chosen
    obtain ⟨rmap, added, rfl⟩ := chosen
    exact ⟨_, built, by rw [if_pos free], added⟩
  · rename_i taken
    simp only [Result.bind_eq_ok, Result.pure_eq, Except.ok.injEq] at chosen
    obtain ⟨f, found, rmap, added, rfl⟩ := chosen
    exact ⟨f, built, by rwa [if_neg taken], added⟩

/-- The active lifetimes are kept with a hint, and replaced with a free register. -/
theorem chooseReg_prevActive (chosen : chooseReg hints lifetimes a t l = .ok a') :
    ∃ reserved, reservedFor lifetimes a t l = .ok reserved ∧ a'.prevActive =
      if (getHint hints l.v).hasclass ∧ regFree reserved (getHint hints l.v) then a.prevActive
      else buildActive a.prevActive lifetimes t l := by
  simp only [chooseReg, Result.bind_eq_ok] at chosen
  obtain ⟨reserved, built, chosen⟩ := chosen
  refine ⟨reserved, built, ?_⟩
  split at chosen
  · rename_i accepted
    simp only [Result.bind_eq_ok, Result.pure_eq, Except.ok.injEq] at chosen
    obtain ⟨_, _, rfl⟩ := chosen
    rw [if_pos accepted]
  · rename_i refused
    simp only [Result.bind_eq_ok, Result.pure_eq, Except.ok.injEq] at chosen
    obtain ⟨_, _, _, _, rfl⟩ := chosen
    rw [if_neg refused]

/-- The loop body leaves the rules alone or gives a register to the lifetime's own
temporary, which had none. -/
theorem assignOne_eq_ok (assigned : assignOne hints lifetimes a t l = .ok a') :
    (a' = a ∧ (l.used = 0 ∨ hasRewriteRule a.rmap l.v)) ∨
      (l.used ≠ 0 ∧ ¬ hasRewriteRule a.rmap l.v ∧
        chooseReg hints lifetimes a t l = .ok a') := by
  unfold assignOne at assigned
  split at assigned
  · rename_i skipped
    cases assigned
    exact Or.inl ⟨rfl, skipped⟩
  · rename_i needs
    simp only [not_or] at needs
    exact Or.inr ⟨needs.1, needs.2, assigned⟩

/-- Rules are not changed any more. -/
theorem assignOne_keeps (assigned : assignOne hints lifetimes a t l = .ok a') {u : Nat}
    (rule : ruleOf a.rmap u ≠ .noclass) : ruleOf a'.rmap u = ruleOf a.rmap u := by
  obtain ⟨rfl, _⟩ | ⟨_, fresh, chosen⟩ := assignOne_eq_ok assigned
  · rfl
  · obtain ⟨_, r, _, _, added⟩ := chooseReg_eq_ok chosen
    rw [ruleOf_addRewriteRule added]
    by_cases same : u = l.v.num
    · rw [hasRewriteRule_iff, ← same, not_not] at fresh
      exact absurd fresh rule
    · rw [if_neg same]

private theorem assignFrom_append (first second : List Lifetime) :
    assignFrom hints lifetimes a t (first ++ second) =
      assignFrom hints lifetimes a t first >>= fun a' =>
        assignFrom hints lifetimes a' (t + first.length) second := by
  induction first generalizing a t with
  | nil => rfl
  | cons l rest ih =>
    simp only [List.cons_append, assignFrom, List.length_cons]
    cases assignOne hints lifetimes a t l with
    | error fault => rfl
    | ok next =>
      simp only [Result.ok_bind, ih]
      rw [show t + 1 + rest.length = t + (rest.length + 1) by omega]

/-- Rules that are there stay. -/
theorem assignFrom_keeps {rest : List Lifetime}
    (assigned : assignFrom hints lifetimes a t rest = .ok a') {u : Nat}
    (rule : ruleOf a.rmap u ≠ .noclass) : ruleOf a'.rmap u = ruleOf a.rmap u := by
  induction rest generalizing a t with
  | nil =>
    cases assigned
    rfl
  | cons l rest ih =>
    simp only [assignFrom, Result.bind_eq_ok] at assigned
    obtain ⟨next, first, others⟩ := assigned
    have kept := assignOne_keeps first rule
    rw [ih others (by rwa [kept]), kept]

end Step

/-- `build_rmap` is in the state `a` when it comes to the temporary `t`. -/
def StateBefore (c : Collected) (t : Nat) (a : Assignment) : Prop :=
  assignFrom c.hints c.lifetimes { rmap := c.rmap } 0 (c.lifetimes.take t) = .ok a

/-- Temporaries of a block that are live together. -/
structure Rivals (c : Collected) (t u : Nat) : Prop where
  differ : t ≠ u
  used : (lifetimeOf c.lifetimes t).used ≠ 0
  used' : (lifetimeOf c.lifetimes u).used ≠ 0
  overlaps : (lifetimeOf c.lifetimes t).Overlaps (lifetimeOf c.lifetimes u)

/-- Being live together does not depend on the order. -/
theorem Rivals.symm {c : Collected} {t u : Nat} (rivals : Rivals c t u) : Rivals c u t :=
  ⟨rivals.differ.symm, rivals.used', rivals.used, rivals.overlaps.symm⟩

/-- Temporaries that are live together are rewritten to different registers. -/
def ClashFree (c : Collected) (rmap : List Val) : Prop :=
  ∀ t u, Rivals c t u → rewriteTmp rmap (.tmp t) ≠ rewriteTmp rmap (.tmp u)

/-- A rival `u` of `t` already has a register, but `build_active` does not collect it. -/
structure Missed (c : Collected) (a : Assignment) (t u : Nat) : Prop where
  rivals : Rivals c t u
  rule : ruleOf a.rmap u ≠ .noclass
  absent : lifetimeOf c.lifetimes u ∉
    buildActive a.prevActive c.lifetimes t (lifetimeOf c.lifetimes t)

/-- The register an operand is in. -/
def registerOf (rmap : List Val) : Val → Val
  | .tmp t => ruleOf rmap t
  | v => v

/-- A relation between different operands that are registers or temporaries of the block. -/
structure Relates (c : Collected) (related : Val → Val → Prop) : Prop where
  symm : ∀ v w, related v w → related w v
  differ : ∀ v w, related v w → v ≠ w
  place : ∀ v w, related v w →
    v.isReg ∨ ∃ t, v = .tmp t ∧ (lifetimeOf c.lifetimes t).used ≠ 0

/-- Operands that are related and have registers from the start have different ones, and no
temporary prefers the register of an operand it is related to. -/
structure KeepsApart (c : Collected) (related : Val → Val → Prop) : Prop where
  fixed : ∀ v w, related v w → registerOf c.rmap v ≠ .noclass →
    registerOf c.rmap v ≠ registerOf c.rmap w
  chosen : ∀ t w a reserved, StateBefore c t a → ruleOf a.rmap t = .noclass →
    related (.tmp t) w → registerOf a.rmap w ≠ .noclass →
      reservedFor c.lifetimes a t (lifetimeOf c.lifetimes t) = .ok reserved →
        ¬ Preferred (getHint c.hints (.tmp t)) reserved (registerOf a.rmap w)

/-- Rivals that registers are reserved for have different ones, and no temporary is
missed whose register is preferred for the temporary at hand. -/
structure Foresees (c : Collected) : Prop where
  reserved : ∀ t u, Rivals c t u → ruleOf c.rmap t ≠ .noclass → ruleOf c.rmap t ≠ ruleOf c.rmap u
  missed : ∀ t u a reserved, StateBefore c t a → ruleOf a.rmap t = .noclass → Missed c a t u →
    reservedFor c.lifetimes a t (lifetimeOf c.lifetimes t) = .ok reserved →
      ¬ Preferred (getHint c.hints (.tmp t)) reserved (ruleOf a.rmap u)

section Block

variable {c : Collected} {r : Assignment} {params : List Val}

/-- A lifetime in use is inside the table. -/
theorem inside_of_used {lifetimes : List Lifetime} {t : Nat}
    (used : (lifetimeOf lifetimes t).used ≠ 0) : t < lifetimes.length := by
  by_contra outside
  rw [lifetimeOf, List.getD_eq_getElem?_getD,
    List.getElem?_eq_none (Nat.le_of_not_lt outside)] at used
  exact used rfl

/-- The state behind a temporary follows from the state before it. -/
theorem StateBefore.succ {t : Nat} {a' : Assignment} (inside : t < c.lifetimes.length)
    (state : StateBefore c (t + 1) a') :
    ∃ a, StateBefore c t a ∧
      assignOne c.hints c.lifetimes a t (lifetimeOf c.lifetimes t) = .ok a' := by
  have current : c.lifetimes.take (t + 1) = c.lifetimes.take t ++ [lifetimeOf c.lifetimes t] := by
    rw [List.take_add_one]
    simp [lifetimeOf, List.getD_eq_getElem?_getD, inside]
  unfold StateBefore at state
  rw [current, assignFrom_append] at state
  obtain ⟨a, before, last⟩ := Result.bind_eq_ok.mp state
  refine ⟨a, before, ?_⟩
  simp only [Nat.zero_add, List.length_take, Nat.min_eq_left (Nat.le_of_lt inside), assignFrom,
    Result.bind_eq_ok, Result.pure_eq, Except.ok.injEq, exists_eq_right] at last
  exact last

/-- What is returned is the state behind the last temporary. -/
theorem StateBefore.last (assigned : buildRmap c.hints c.lifetimes c.rmap = .ok r) :
    StateBefore c c.lifetimes.length r := by
  unfold StateBefore
  rw [List.take_length]
  exact assigned

/-- The rest of the run starts in the state before a temporary. -/
theorem StateBefore.rest (assigned : buildRmap c.hints c.lifetimes c.rmap = .ok r) {t : Nat}
    {a : Assignment} (inside : t < c.lifetimes.length) (state : StateBefore c t a) :
    ∃ a', assignOne c.hints c.lifetimes a t (lifetimeOf c.lifetimes t) = .ok a' ∧
      assignFrom c.hints c.lifetimes a' (t + 1) (c.lifetimes.drop (t + 1)) = .ok r := by
  have whole : assignFrom c.hints c.lifetimes { rmap := c.rmap } 0
      (c.lifetimes.take t ++ lifetimeOf c.lifetimes t :: c.lifetimes.drop (t + 1)) = .ok r := by
    have current : lifetimeOf c.lifetimes t = c.lifetimes[t] := by
      simp [lifetimeOf, List.getD_eq_getElem?_getD, inside]
    rw [current, ← List.drop_eq_getElem_cons inside, List.take_append_drop]
    exact assigned
  rw [assignFrom_append, state] at whole
  simpa only [Result.ok_bind, Nat.zero_add, List.length_take, assignFrom,
    Nat.min_eq_left (Nat.le_of_lt inside), Result.bind_eq_ok] using whole

/-- There is one preferred register. -/
theorem Preferred.unique {hint r r' : Val} {reserved : List Val}
    (preferred : Preferred hint reserved r) (preferred' : Preferred hint reserved r') :
    r = r' := by
  unfold Preferred at preferred preferred'
  split at preferred
  · rename_i free
    rw [if_pos free] at preferred'
    rw [preferred, preferred']
  · rename_i taken
    rw [if_neg taken, preferred, Except.ok.injEq] at preferred'
    exact preferred'

/-- The preferred register is not reserved. -/
theorem Preferred.not_mem {hint r : Val} {reserved : List Val}
    (preferred : Preferred hint reserved r) : r ∉ reserved := by
  unfold Preferred at preferred
  split at preferred
  · rename_i free
    rw [← preferred] at free
    exact not_mem_of_regFree free.2
  · obtain ⟨_, _, _, free⟩ := findFreeReg_eq_ok preferred
    exact not_mem_of_regFree free

private theorem registerOf_addRewriteRule {rmap rmap' : List Val} {t : Nat} {q : Val}
    (added : addRewriteRule rmap (.tmp t) q = .ok rmap') (v : Val) :
    registerOf rmap' v = if v = .tmp t then q else registerOf rmap v := by
  cases v with
  | tmp u =>
    have rule : ruleOf rmap' u = if u = t then q else ruleOf rmap u :=
      ruleOf_addRewriteRule added u
    rw [registerOf, rule, registerOf]
    by_cases same : u = t
    · rw [if_pos same, if_pos (by rw [same])]
    · rw [if_neg same, if_neg (by simpa using same)]
  | _ => rfl

/-- Temporaries that are live together. -/
private def RivalTemps (c : Collected) (v w : Val) : Prop :=
  ∃ t u, v = .tmp t ∧ w = .tmp u ∧ Rivals c t u

private theorem relates_rivalTemps (c : Collected) : Relates c (RivalTemps c) where
  symm := by
    rintro _ _ ⟨t, u, rfl, rfl, rivals⟩
    exact ⟨u, t, rfl, rfl, rivals.symm⟩
  differ := by
    rintro _ _ ⟨t, u, rfl, rfl, rivals⟩ same
    exact rivals.differ (Val.tmp.inj same)
  place := by
    rintro _ _ ⟨t, u, rfl, rfl, rivals⟩
    exact Or.inr ⟨t, rfl, rivals.used⟩

variable (indexed : Indexed params c.lifetimes) (temps : ∀ p ∈ params, p.isTmp)
include indexed temps

/-- The lifetimes in use are those of temporaries. -/
private theorem lifetime_v {t : Nat} (used : (lifetimeOf c.lifetimes t).used ≠ 0) :
    (lifetimeOf c.lifetimes t).v = .tmp t := by
  obtain ⟨number, known⟩ := indexed t used
  obtain ⟨u, same⟩ := Val.isTmp_iff.mp (known.elim id (temps _))
  rw [same] at number ⊢
  rw [show u = t from number]

/-- A loop body that gives a register to a temporary keeps related operands apart, if none of
them has the register that is preferred. -/
private theorem apart_chooseReg {related : Val → Val → Prop} (relates : Relates c related)
    {t : Nat} {a a' : Assignment}
    (chosen : chooseReg c.hints c.lifetimes a t (lifetimeOf c.lifetimes t) = .ok a')
    (used : (lifetimeOf c.lifetimes t).used ≠ 0)
    (apart : ∀ v w, related v w → registerOf a.rmap v ≠ .noclass →
      registerOf a.rmap v ≠ registerOf a.rmap w)
    (unwanted : ∀ w reserved, related (.tmp t) w → registerOf a.rmap w ≠ .noclass →
      reservedFor c.lifetimes a t (lifetimeOf c.lifetimes t) = .ok reserved →
        ¬ Preferred (getHint c.hints (.tmp t)) reserved (registerOf a.rmap w)) :
    ∀ v w, related v w → registerOf a'.rmap v ≠ .noclass →
      registerOf a'.rmap v ≠ registerOf a'.rmap w := by
  obtain ⟨reserved, q, built, preferred, added⟩ := chooseReg_eq_ok chosen
  rw [lifetime_v indexed temps used] at preferred added
  have rules := registerOf_addRewriteRule added
  obtain ⟨_, k, _, rfl, _⟩ := addRewriteRule_eq_ok.mp added
  have others (w : Val) (relation : related (.tmp t) w) : registerOf a.rmap w ≠ .reg k :=
    fun same => unwanted w reserved relation (by simp [same]) built (by rwa [same])
  intro v w relation rule
  rw [rules] at rule ⊢
  rw [rules]
  by_cases first : v = .tmp t
  · subst v
    rw [if_pos rfl, if_neg (relates.differ _ _ relation).symm]
    exact (others w relation).symm
  · rw [if_neg first] at rule ⊢
    by_cases second : w = .tmp t
    · subst w
      rw [if_pos rfl]
      exact others v (relates.symm _ _ relation)
    · rw [if_neg second]
      exact apart v w relation rule

/-- In every state of `build_rmap` related operands are apart and the temporaries that have had
their turn have rules. -/
private theorem StateBefore.apart {related : Val → Val → Prop} (relates : Relates c related)
    (keeps : KeepsApart c related) {t : Nat} (bounded : t ≤ c.lifetimes.length) {a : Assignment}
    (state : StateBefore c t a) :
    (∀ v w, related v w → registerOf a.rmap v ≠ .noclass →
      registerOf a.rmap v ≠ registerOf a.rmap w) ∧
      ∀ u < t, (lifetimeOf c.lifetimes u).used ≠ 0 → ruleOf a.rmap u ≠ .noclass := by
  induction t generalizing a with
  | zero =>
    obtain rfl : { rmap := c.rmap } = a := Except.ok.inj state
    exact ⟨keeps.fixed, fun u less => absurd less (Nat.not_lt_zero u)⟩
  | succ t ih =>
    obtain ⟨before, previous, last⟩ := state.succ bounded
    obtain ⟨apart, done⟩ := ih (Nat.le_of_succ_le bounded) previous
    have kept (u : Nat) (less : u < t) (used : (lifetimeOf c.lifetimes u).used ≠ 0) :
        ruleOf a.rmap u ≠ .noclass := by
      rw [assignOne_keeps last (done u less used)]
      exact done u less used
    obtain ⟨rfl, skipped⟩ | ⟨used, fresh, chosen⟩ := assignOne_eq_ok last
    · refine ⟨apart, fun u less used => ?_⟩
      by_cases same : u = t
      · subst u
        have rule := skipped.resolve_left used
        rwa [hasRewriteRule_iff, lifetime_v indexed temps used] at rule
      · exact kept u (by omega) used
    · rw [hasRewriteRule_iff, lifetime_v indexed temps used, not_not] at fresh
      refine ⟨apart_chooseReg indexed temps relates chosen used apart
        fun w reserved => keeps.chosen t w before reserved previous fresh, fun u less used' => ?_⟩
      by_cases same : u = t
      · subst u
        obtain ⟨_, r, _, _, added⟩ := chooseReg_eq_ok chosen
        obtain ⟨_, k, _, rfl, _⟩ := addRewriteRule_eq_ok.mp added
        rw [ruleOf_addRewriteRule added, lifetime_v indexed temps used]
        simp [Val.num]
      · exact kept u (by omega) used'

/-- Behind `build_rmap` every temporary of the block has a register. -/
private theorem ruled_of_used (assigned : buildRmap c.hints c.lifetimes c.rmap = .ok r) {t : Nat}
    (used : (lifetimeOf c.lifetimes t).used ≠ 0) : ruleOf r.rmap t ≠ .noclass := by
  have nothing : Relates c fun _ _ => False := ⟨nofun, nofun, nofun⟩
  exact (StateBefore.apart indexed temps nothing ⟨nofun, nofun⟩ (Nat.le_refl _)
    (StateBefore.last assigned)).2 t (inside_of_used used) used

/-- Related operands end up in different registers exactly if `build_rmap` keeps them apart
whenever it has a choice. -/
theorem keepsApart_iff {related : Val → Val → Prop} (relates : Relates c related)
    (assigned : buildRmap c.hints c.lifetimes c.rmap = .ok r) :
    (∀ v w, related v w → registerOf r.rmap v ≠ registerOf r.rmap w) ↔
      KeepsApart c related := by
  constructor
  · intro apart
    have kept {a : Assignment} {t : Nat} {rest : List Lifetime} {w : Val}
        (others : assignFrom c.hints c.lifetimes a t rest = .ok r)
        (rule : registerOf a.rmap w ≠ .noclass) : registerOf r.rmap w = registerOf a.rmap w := by
      cases w with
      | tmp u => exact assignFrom_keeps others rule
      | _ => rfl
    refine ⟨fun v w relation rule same => ?_, ?_⟩
    · exact apart v w relation (by rw [kept assigned rule, kept assigned (same ▸ rule), same])
    · intro t w a reserved state fresh relation rule built preferred
      have used : (lifetimeOf c.lifetimes t).used ≠ 0 := by
        obtain isReg | ⟨_, same, used⟩ := relates.place _ _ relation
        · cases isReg
        · exact Val.tmp.inj same ▸ used
      have number := lifetime_v indexed temps used
      obtain ⟨a', last, rest⟩ := state.rest assigned (inside_of_used used)
      obtain ⟨_, skipped⟩ | ⟨_, _, chosen⟩ := assignOne_eq_ok last
      · rcases skipped with unused | held
        · exact used unused
        · rw [hasRewriteRule_iff, number] at held
          exact held fresh
      · obtain ⟨reserved', q, built', preferred', added⟩ := chooseReg_eq_ok chosen
        obtain rfl : reserved = reserved' := Except.ok.inj (built.symm.trans built')
        rw [number] at preferred' added
        -- `t` is given the register of `w`, and both keep it.
        have given : registerOf a'.rmap (.tmp t) = registerOf a.rmap w := by
          rw [registerOf_addRewriteRule added, if_pos rfl, preferred'.unique preferred]
        have keptOne : registerOf a'.rmap w = registerOf a.rmap w := by
          rw [registerOf_addRewriteRule added, if_neg (relates.differ _ _ relation).symm]
        refine apart (.tmp t) w relation ?_
        rw [kept rest (given ▸ rule), kept rest (keptOne ▸ rule), given, keptOne]
  · intro keeps v w relation
    obtain ⟨apart, -⟩ := StateBefore.apart indexed temps relates keeps (Nat.le_refl _)
      (StateBefore.last assigned)
    refine apart v w relation ?_
    obtain isReg | ⟨t, rfl, used⟩ := relates.place v w relation
    · cases v <;> simp [Val.isReg, registerOf] at isReg ⊢
    · exact ruled_of_used indexed temps assigned used

/-- What `build_active` collects is not preferred, so only what it misses matters. -/
private theorem foresees_iff : Foresees c ↔ KeepsApart c (RivalTemps c) := by
  constructor
  · intro foresees
    refine ⟨?_, ?_⟩
    · rintro _ _ ⟨t, u, rfl, rfl, rivals⟩
      exact foresees.reserved t u rivals
    · rintro t _ a reserved state fresh ⟨_, u, same, rfl, rivals⟩ rule built preferred
      obtain rfl := Val.tmp.inj same
      by_cases collected : lifetimeOf c.lifetimes u ∈
          buildActive a.prevActive c.lifetimes t (lifetimeOf c.lifetimes t)
      · have number := lifetime_v indexed temps rivals.used'
        have held : hasRewriteRule a.rmap (lifetimeOf c.lifetimes u).v := by
          rw [hasRewriteRule_iff, number]
          exact rule
        obtain ⟨q, member, rewritten⟩ := mem_buildReserved built collected rivals.used' held
        rw [number, rewriteTmp_of_rule rule, Except.ok.injEq] at rewritten
        rw [← rewritten] at member
        exact preferred.not_mem member
      · exact foresees.missed t u a reserved state fresh ⟨rivals, rule, collected⟩ built preferred
  · intro keeps
    refine ⟨fun t u rivals => keeps.fixed _ _ ⟨t, u, rfl, rfl, rivals⟩, ?_⟩
    intro t u a reserved state fresh missed
    exact keeps.chosen t (.tmp u) a reserved state fresh ⟨t, u, rfl, rfl, missed.rivals⟩ missed.rule

/-- The temporaries of a block are free of clashes exactly if none is missed. -/
theorem clashFree_iff_foresees (assigned : buildRmap c.hints c.lifetimes c.rmap = .ok r) :
    ClashFree c r.rmap ↔ Foresees c := by
  rw [foresees_iff indexed temps, ← keepsApart_iff indexed temps (relates_rivalTemps c) assigned]
  have rewritten {t : Nat} (used : (lifetimeOf c.lifetimes t).used ≠ 0) :
      rewriteTmp r.rmap (.tmp t) = .ok (registerOf r.rmap (.tmp t)) :=
    rewriteTmp_of_rule (ruled_of_used indexed temps assigned used)
  constructor
  · rintro free _ _ ⟨t, u, rfl, rfl, rivals⟩ same
    exact free t u rivals (by rw [rewritten rivals.used, rewritten rivals.used', same])
  · intro apart t u rivals same
    rw [rewritten rivals.used, rewritten rivals.used', Except.ok.injEq] at same
    exact apart _ _ ⟨t, u, rfl, rfl, rivals⟩ same

end Block

/-- A block whose operands are rewritten has temporaries for parameters. -/
theorem Allocates.params {a : Allocation} {b b' : Blk} {c : Collected} {r : Assignment}
    (allocates : Allocates a b c r b') : ∀ p ∈ b.params, p.isTmp := by
  intro p member
  have rewritten := allocates.rewritten
  simp only [doRewrites, Result.bind_eq_ok] at rewritten
  obtain ⟨params, mapped, _⟩ := rewritten
  obtain ⟨i, inside, rfl⟩ := List.mem_iff_getElem.mp member
  have paired := Result.mapM_eq_ok.mp mapped
  have first := List.Forall₂.get paired inside (by rwa [← paired.length_eq])
  obtain ⟨t, temp, _⟩ := rewriteTmp_eq_ok.mp first
  exact Val.isTmp_iff.mpr ⟨t, temp⟩

/-- Register allocation is free of clashes exactly if it misses no temporary: in every
block, temporaries that are live together do not have the same register reserved for
them, and whenever `build_rmap` comes to a temporary, no temporary live together with it
holds the register it prefers without being collected by `build_active`. -/
theorem clashFree_iff (k : Fn) :
    (∀ b c r b', Visits (.start k) k.blks b c r b' → ClashFree c r.rmap) ↔
      ∀ b c r b', Visits (.start k) k.blks b c r b' → Foresees c := by
  have each {b : Blk} {c : Collected} {r : Assignment} {b' : Blk}
      (visits : Visits (.start k) k.blks b c r b') : ClashFree c r.rmap ↔ Foresees c := by
    obtain ⟨_, _, allocates⟩ := visits.allocates
    exact clashFree_iff_foresees (collectLifetimes_indexed allocates.collected)
      allocates.params allocates.assigned
  constructor
  · exact fun free b c r b' visits => (each visits).mp (free b c r b' visits)
  · exact fun foresees b c r b' visits => (each visits).mpr (foresees b c r b' visits)

/-- A parameter that is passed on behind another argument. -/
def passedSecond : Frontend.Function where
  name := "main"
  params := [(.i27, "x")]
  body := {
    items := [
      { stmt := .plain (.immInt .i27 "y" 1) },
      { stmt := .call (.symbol "f") [.id "y", .id "x"] [] },
      { stmt := .leave [.id "x"] }] }

/-- `x` comes in `RA0`, which is also the hint of `y`, and no free register was handed out
before `x`: both are given `RA0`, while `x` lives from position 1 to 6 and `y` from 2 to 3. -/
theorem passedSecond_clashes :
    ∃ f g h k m, Frontend.buildFunction 0 passedSecond = .ok f ∧ Optimizes f g h k m ∧
      ∃ b c r b', Visits (.start k) k.blks b c r b' ∧ ¬ ClashFree c r.rmap := by
  have ran : ∃ f g ri h n k m, Frontend.buildFunction 0 passedSecond = .ok f ∧
      correct 20 f f.ntmp = .ok (g, ri) ∧ ssa { g with ntmp := ri } = .ok (h, n) ∧
        abi0 h = .ok k ∧ regalloc k = .ok m ∧
        ∃ b rest c r b', k.blks = b :: rest ∧ collectLifetimes b [] [] = .ok c ∧
          buildRmap c.hints c.lifetimes c.rmap = .ok r ∧ doRewrites b r.rmap = .ok b' ∧
          c.lifetimes = [⟨.tmp 0, 1, 6, 4⟩, ⟨.tmp 1, 2, 3, 2⟩] ∧
          r.rmap = [.reg (ra 0), .reg (ra 0)] :=
    ⟨_, _, _, _, _, _, _, by rfl, by rfl, by rfl, by rfl, by rfl,
      _, _, _, _, _, by rfl, by rfl, by rfl, by rfl, by rfl, by rfl⟩
  obtain ⟨f, g, ri, h, n, k, m, parsed, corrected, converted, merged, allocated,
    b, rest, c, r, b', blks, collected, assigned, rewritten, lifetimes, rmap⟩ := ran
  refine ⟨f, _, h, k, m, parsed, ⟨⟨20, g, ri, corrected, rfl⟩, ⟨n, converted⟩, merged, allocated⟩,
    b, c, r, b', ?_, ?_⟩
  · rw [blks]
    exact .here ⟨collected, assigned, rewritten⟩
  · intro free
    have rivals : Rivals c 0 1 := by
      refine ⟨by simp, ?_, ?_, ?_⟩ <;>
        simp [lifetimes, lifetimeOf, Lifetime.Overlaps]
    exact free 0 1 rivals (by simp [rmap, rewriteTmp])

end Qbt.Regalloc
