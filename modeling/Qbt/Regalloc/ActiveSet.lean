import Qbt.Regalloc.CallSaves

/-!
# The active set of `build_rmap`

`build_active` scans what it collected for the temporary that last received a free register, and
the lifetimes from the current one on. `do_call_saves` scans the whole table instead. The two
agree as long as everything that overlaps the current lifetime has overlapped the lifetime of
that last temporary; a temporary that receives its hint, or has a register from the start,
leaves the active lifetimes as they were.
-/

namespace Qbt.Regalloc

open IntervalScan (Carries)

/-- `build_rmap` comes to the temporary `t` in the state `a` and consults `build_active`. -/
structure Consults (c : Collected) (t : Nat) (a : Assignment) : Prop where
  state : StateBefore c t a
  used : (lifetimeOf c.lifetimes t).used ≠ 0
  fresh : ¬ hasRewriteRule a.rmap (lifetimeOf c.lifetimes t).v

/-- What `build_active` collects for a temporary. -/
def activeFor (c : Collected) (t : Nat) (a : Assignment) : List Lifetime :=
  buildActive a.prevActive c.lifetimes t (lifetimeOf c.lifetimes t)

/-- Apart from the lifetime itself exactly those that overlap it in the whole table are
collected, and so the registers that overlapping temporaries have are reserved. -/
structure ScansAll (c : Collected) (t : Nat) (a : Assignment) : Prop where
  covers : ∀ l, (l ∈ activeFor c t a ∧ l ≠ lifetimeOf c.lifetimes t) ↔
    ∃ u, Rivals c t u ∧ lifetimeOf c.lifetimes u = l
  reserves : ∀ reserved, reservedFor c.lifetimes a t (lifetimeOf c.lifetimes t) = .ok reserved →
    ∀ u, Rivals c t u → ruleOf a.rmap u ≠ .noclass → ruleOf a.rmap u ∈ reserved

/-- Whenever it is consulted, `build_active` agrees with a scan of the whole table. -/
def AgreesWithScan (c : Collected) : Prop := ∀ t a, Consults c t a → ScansAll c t a

/-- The temporary receives a register from `find_free_reg`: its hint is not accepted. -/
def TakesFree (c : Collected) (t : Nat) : Prop :=
  ∃ a reserved, Consults c t a ∧
    reservedFor c.lifetimes a t (lifetimeOf c.lifetimes t) = .ok reserved ∧
    ¬ ((getHint c.hints (lifetimeOf c.lifetimes t).v).hasclass ∧
      regFree reserved (getHint c.hints (lifetimeOf c.lifetimes t).v))

/-- `j` is the last temporary in front of `t` that receives a register from `find_free_reg`. -/
structure LastFree (c : Collected) (t j : Nat) : Prop where
  before : j < t
  takes : TakesFree c j
  last : ∀ i, j < i → i < t → ¬ TakesFree c i

/-- Whenever `build_active` is consulted, every earlier lifetime that overlaps the current one
overlaps that of the last temporary that has received a free register. -/
def CarriedOver (c : Collected) : Prop :=
  ∀ t a u, Consults c t a → u < t → Rivals c t u →
    ∃ j, LastFree c t j ∧ (lifetimeOf c.lifetimes u).Overlaps (lifetimeOf c.lifetimes j)

section States

variable {c : Collected} {t : Nat} {a a' : Assignment}

/-- `build_rmap` comes to a temporary in one state. -/
theorem StateBefore.unique (state : StateBefore c t a) (state' : StateBefore c t a') : a = a' :=
  Except.ok.inj (state.symm.trans state')

/-- There is one last temporary. -/
theorem LastFree.unique {j j' : Nat} (last : LastFree c t j) (last' : LastFree c t j') :
    j = j' := by
  by_contra differ
  rcases Nat.lt_or_gt_of_ne differ with less | greater
  · exact last.last j' less last'.before last'.takes
  · exact last'.last j greater last.before last.takes

/-- What is kept of the active lifetimes in front of a temporary. -/
inductive Kept (c : Collected) (t : Nat) : List Lifetime → Prop where
  | none (never : ∀ i < t, ¬ TakesFree c i) : Kept c t []
  | from' {j : Nat} {a : Assignment} (last : LastFree c t j) (consults : Consults c j a) :
      Kept c t (activeFor c j a)

/-- A temporary that takes no free register leaves what is kept as it is. -/
theorem Kept.skip {kept : List Lifetime} (keeps : Kept c t kept) (skips : ¬ TakesFree c t) :
    Kept c (t + 1) kept := by
  have others {j : Nat} (before : ∀ i, j ≤ i → i < t → ¬ TakesFree c i) :
      ∀ i, j ≤ i → i < t + 1 → ¬ TakesFree c i := by
    intro i from' less
    rcases Nat.lt_succ_iff_lt_or_eq.mp less with less | rfl
    · exact before i from' less
    · exact skips
  cases keeps with
  | none never =>
    exact .none fun i less => others (j := 0) (fun i _ => never i) i (Nat.zero_le i) less
  | from' last consults =>
    exact .from' ⟨Nat.lt_succ_of_lt last.before, last.takes, others last.last⟩ consults

/-- The active lifetimes are those collected for the last temporary that has received a free
register. -/
theorem StateBefore.kept (bounded : t ≤ c.lifetimes.length) (state : StateBefore c t a) :
    Kept c t a.prevActive := by
  induction t generalizing a with
  | zero =>
    obtain rfl : { rmap := c.rmap } = a := Except.ok.inj state
    exact .none fun i less => absurd less (Nat.not_lt_zero i)
  | succ t ih =>
    obtain ⟨before, previous, last⟩ := state.succ bounded
    have keeps := ih (Nat.le_of_succ_le bounded) previous
    obtain ⟨rfl, skipped⟩ | ⟨used, fresh, chosen⟩ := assignOne_eq_ok last
    · refine keeps.skip ?_
      rintro ⟨before', _, consults, _⟩
      obtain rfl := consults.state.unique previous
      exact skipped.elim consults.used consults.fresh
    · obtain ⟨reserved, built, same⟩ := chooseReg_prevActive chosen
      have consults : Consults c t before := ⟨previous, used, fresh⟩
      rw [same]
      split
      · rename_i accepted
        refine keeps.skip ?_
        rintro ⟨before', reserved', consults', built', refused⟩
        obtain rfl := consults'.state.unique previous
        obtain rfl : reserved' = reserved := Except.ok.inj (built'.symm.trans built)
        exact refused accepted
      · rename_i refused
        exact .from' ⟨Nat.lt_succ_self t, ⟨before, reserved, consults, built, refused⟩,
          fun i behind less => absurd (Nat.le_of_lt_succ less) (Nat.not_le_of_lt behind)⟩ consults

end States

/-- The lifetimes in use. -/
def inUse (c : Collected) : Set Lifetime :=
  {l | ∃ u, (lifetimeOf c.lifetimes u).used ≠ 0 ∧ lifetimeOf c.lifetimes u = l}

/-- The part of the table `build_active` scans. -/
def tableFrom (c : Collected) (t : Nat) : List Lifetime :=
  (c.lifetimes.drop t).filter (·.used ≠ 0)

section Blocks

variable {c : Collected} {t : Nat} {a : Assignment}

private theorem activeFor_eq_scan : activeFor c t a =
    IntervalScan.scan Lifetime.start Lifetime.finish (lifetimeOf c.lifetimes t).start
        (lifetimeOf c.lifetimes t).finish a.prevActive ++
      IntervalScan.scan Lifetime.start Lifetime.finish (lifetimeOf c.lifetimes t).start
        (lifetimeOf c.lifetimes t).finish (tableFrom c t) := by
  rw [← activeAmong_eq_scan, ← activeAmong_eq_scan]
  rfl

/-- What is collected for a lifetime overlaps it. -/
theorem overlaps_of_mem_activeFor {l : Lifetime} (member : l ∈ activeFor c t a) :
    l.Overlaps (lifetimeOf c.lifetimes t) := by
  rw [activeFor_eq_scan] at member
  rcases List.mem_append.mp member with member | member
  · obtain ⟨_, lasts, starts⟩ := IntervalScan.mem_of_mem_scan member
    exact ⟨starts, lasts⟩
  · obtain ⟨_, lasts, starts⟩ := IntervalScan.mem_of_mem_scan member
    exact ⟨starts, lasts⟩

private theorem mem_tableFrom {l : Lifetime} : l ∈ tableFrom c t ↔
    ∃ u, t ≤ u ∧ (lifetimeOf c.lifetimes u).used ≠ 0 ∧ lifetimeOf c.lifetimes u = l := by
  rw [tableFrom, List.mem_filter, decide_eq_true_iff]
  constructor
  · rintro ⟨member, used⟩
    obtain ⟨i, inside, rfl⟩ := List.mem_iff_getElem.mp member
    rw [List.getElem_drop] at used ⊢
    have inside' : t + i < c.lifetimes.length := by
      rw [List.length_drop] at inside
      omega
    have same := lifetimeOf_eq_getElem inside'
    exact ⟨t + i, Nat.le_add_right t i, by rwa [same], same⟩
  · rintro ⟨u, from', used, rfl⟩
    have inside := inside_of_used used
    refine ⟨List.mem_iff_getElem.mpr ⟨u - t, by rw [List.length_drop]; omega, ?_⟩, used⟩
    rw [lifetimeOf_eq_getElem inside, List.getElem_drop]
    congr 1
    omega

variable {defs : List Nat} {last : Nat} (recorded : Recorded c.lifetimes defs last)
include recorded

private theorem Recorded.tableFrom_sorted (t : Nat) :
    (tableFrom c t).Pairwise (·.start ≤ ·.start) :=
  recorded.sorted.sublist ((List.drop_sublist t _).filter _)

/-- Lifetimes in use are those of different temporaries. -/
theorem Recorded.lifetimeOf_inj {t u : Nat} (used : (lifetimeOf c.lifetimes t).used ≠ 0)
    (used' : (lifetimeOf c.lifetimes u).used ≠ 0)
    (same : lifetimeOf c.lifetimes t = lifetimeOf c.lifetimes u) : t = u := by
  have number := recorded.v t ((recorded.used t).mp used)
  rw [same, recorded.v u ((recorded.used u).mp used')] at number
  exact (Val.tmp.inj number).symm

/-- Whenever it is consulted, `build_active` collects what overlaps, each lifetime in front of
those that start later. -/
theorem Recorded.carries (carried : CarriedOver c) (consults : Consults c t a) :
    Carries Lifetime.start Lifetime.finish (inUse c) (lifetimeOf c.lifetimes t)
      (activeFor c t a) := by
  induction t using Nat.strong_induction_on generalizing a with
  | _ t ih =>
    have within : ∀ l ∈ tableFrom c t, l ∈ inUse c := by
      intro l member
      obtain ⟨u, _, known⟩ := mem_tableFrom.mp member
      exact ⟨u, known⟩
    have keeps := consults.state.kept (inside_of_used consults.used).le
    rw [activeFor_eq_scan]
    generalize kept : a.prevActive = active at keeps
    cases keeps with
    | none never =>
      refine IntervalScan.carries_scan (recorded.tableFrom_sorted t) (by simpa using within)
        (fun k _ _ before e after split => by simp at split) ?_
      rintro _ ⟨u, used, rfl⟩ overlaps
      by_cases less : u < t
      · have rivals : Rivals c t u := ⟨less.ne', consults.used, used, overlaps.2, overlaps.1⟩
        obtain ⟨j, free, _⟩ := carried t a u consults less rivals
        exact absurd free.takes (never j free.before)
      · exact Or.inr (mem_tableFrom.mpr ⟨u, Nat.le_of_not_lt less, used, rfl⟩)
    | from' free before =>
      rename_i j a'
      have later : (lifetimeOf c.lifetimes j).start ≤ (lifetimeOf c.lifetimes t).start :=
        recorded.ascending j ((recorded.used j).mp before.used) t
          ((recorded.used t).mp consults.used) free.before
      refine (ih j free.before before).refresh later (recorded.tableFrom_sorted t) within ?_
      rintro _ ⟨u, used, rfl⟩ overlaps
      by_cases less : u < t
      · have rivals : Rivals c t u := ⟨less.ne', consults.used, used, overlaps.2, overlaps.1⟩
        obtain ⟨j', free', both⟩ := carried t a u consults less rivals
        obtain rfl := free'.unique free
        exact Or.inl both
      · exact Or.inr (mem_tableFrom.mpr ⟨u, Nat.le_of_not_lt less, used, rfl⟩)

/-- The active set agrees with a scan of the whole table exactly if what overlaps a lifetime is
carried over to it. -/
theorem Recorded.agrees_iff : AgreesWithScan c ↔ CarriedOver c := by
  constructor
  · intro agrees t a u consults less rivals
    have collected : lifetimeOf c.lifetimes u ∈ activeFor c t a :=
      (((agrees t a consults).covers _).mpr ⟨u, rivals, rfl⟩).1
    rw [activeFor_eq_scan] at collected
    rcases List.mem_append.mp collected with kept | listed
    · have keeps := consults.state.kept (inside_of_used consults.used).le
      have member := (IntervalScan.mem_of_mem_scan kept).1
      generalize a.prevActive = active at keeps member
      cases keeps with
      | none => cases member
      | from' free before => exact ⟨_, free, overlaps_of_mem_activeFor member⟩
    · obtain ⟨w, from', used, same⟩ := mem_tableFrom.mp (IntervalScan.mem_of_mem_scan listed).1
      obtain rfl := recorded.lifetimeOf_inj used rivals.used' same
      exact absurd less (Nat.not_lt_of_le from')
  · intro carried t a consults
    have carries := recorded.carries carried consults
    have member {u : Nat} (rivals : Rivals c t u) : lifetimeOf c.lifetimes u ∈ activeFor c t a :=
      carries.all _ ⟨u, rivals.used', rfl⟩ rivals.overlaps.symm
    refine ⟨fun l => ⟨?_, ?_⟩, fun reserved built u rivals rule => ?_⟩
    · rintro ⟨collected, other⟩
      obtain ⟨⟨u, used, rfl⟩, overlaps⟩ := carries.only l collected
      have differ : t ≠ u := fun same => other (by rw [same])
      exact ⟨u, ⟨differ, consults.used, used, overlaps.2, overlaps.1⟩, rfl⟩
    · rintro ⟨u, rivals, rfl⟩
      exact ⟨member rivals, fun same =>
        rivals.differ (recorded.lifetimeOf_inj rivals.used' rivals.used same).symm⟩
    · have number := recorded.v u ((recorded.used u).mp rivals.used')
      have held : hasRewriteRule a.rmap (lifetimeOf c.lifetimes u).v := by
        rw [hasRewriteRule_iff, number]
        exact rule
      obtain ⟨r, listed, rewritten⟩ := mem_buildReserved built (member rivals) rivals.used' held
      rw [number, rewriteTmp_of_rule rule, Except.ok.injEq] at rewritten
      rwa [rewritten]

end Blocks

/-- In every block in the form `ssa` leaves behind, whatever hints and rules there are from
earlier blocks: the active set agrees with a scan of the whole table exactly if, whenever
`build_active` is consulted, what overlaps the current lifetime overlaps that of the last
temporary that has received a free register. -/
theorem agreesWithScan_iff {b : Blk} {hints rmap : List Val} {c : Collected}
    (uses : b.UsesDefined) (increasing : b.defs.Pairwise (· < ·)) (before : BeforeAlloc b)
    (collected : collectLifetimes b hints rmap = .ok c) : AgreesWithScan c ↔ CarriedOver c := by
  obtain ⟨c', collected', recorded⟩ := collectLifetimes_recorded hints rmap uses increasing before
  obtain rfl : c' = c := Except.ok.inj (collected'.symm.trans collected)
  exact recorded.agrees_iff

/-- The lifetimes of `passedSecond`, and the state in which `build_rmap` comes to `y`. -/
private theorem passedSecond_collected :
    ∃ f g h n k m b rest c r b', Frontend.buildFunction 0 passedSecond = .ok f ∧
      Corrected f g ∧ ssa g = .ok (h, n) ∧ abi0 h = .ok k ∧ regalloc k = .ok m ∧
        k.blks = b :: rest ∧ Allocates (.start k) b c r b' ∧
        c.lifetimes = [⟨.tmp 0, 1, 6, 4⟩, ⟨.tmp 1, 2, 3, 2⟩] ∧
        c.rmap = [.reg (ra 0)] ∧ StateBefore c 1 { rmap := [.reg (ra 0)] } := by
  have ran : ∃ f g ri h n k m, Frontend.buildFunction 0 passedSecond = .ok f ∧
      correct 20 f f.ntmp = .ok (g, ri) ∧ ssa { g with ntmp := ri } = .ok (h, n) ∧
        abi0 h = .ok k ∧ regalloc k = .ok m ∧
        ∃ b rest c r b', k.blks = b :: rest ∧ collectLifetimes b [] [] = .ok c ∧
          buildRmap c.hints c.lifetimes c.rmap = .ok r ∧ doRewrites b r.rmap = .ok b' ∧
          c.lifetimes = [⟨.tmp 0, 1, 6, 4⟩, ⟨.tmp 1, 2, 3, 2⟩] ∧ c.rmap = [.reg (ra 0)] ∧
          assignFrom c.hints c.lifetimes { rmap := c.rmap } 0 (c.lifetimes.take 1) =
            .ok { rmap := [.reg (ra 0)] } :=
    ⟨_, _, _, _, _, _, _, by rfl, by rfl, by rfl, by rfl, by rfl,
      _, _, _, _, _, by rfl, by rfl, by rfl, by rfl, by rfl, by rfl, by rfl⟩
  obtain ⟨f, g, ri, h, n, k, m, parsed, corrected, converted, merged, allocated,
    b, rest, c, r, b', blks, collected, assigned, rewritten, lifetimes, rules, state⟩ := ran
  exact ⟨f, _, h, n, k, m, b, rest, c, r, b', parsed, ⟨20, g, ri, corrected, rfl⟩, converted,
    merged, allocated, blks, ⟨collected, assigned, rewritten⟩, lifetimes, rules, state⟩

/-- In the block of `passedSecond` nothing is carried over to `y`: `x` has its register from the
start. So the active set is not that of a scan of the whole table. -/
theorem agreesWithScan_iff_passedSecond :
    ∃ f g h n k b rest c, Frontend.buildFunction 0 passedSecond = .ok f ∧ Corrected f g ∧
      ssa g = .ok (h, n) ∧ abi0 h = .ok k ∧ k.blks = b :: rest ∧
        collectLifetimes b [] [] = .ok c ∧ ¬ CarriedOver c ∧ ¬ AgreesWithScan c := by
  obtain ⟨f, g, h, n, k, m, b, rest, c, r, b', parsed, corrected, converted, merged, _, blks,
    allocates, lifetimes, rules, state⟩ := passedSecond_collected
  have input := Abi.abi0_input ⟨0, _, parsed⟩ corrected converted merged
  have member : b ∈ k.blks := by simp [blks]
  have same := agreesWithScan_iff (input.uses b member) (input.increasing b member)
    (input.before b member) allocates.collected
  have lost : ¬ CarriedOver c := by
    intro carried
    have consults : Consults c 1 { rmap := [.reg (ra 0)] } := by
      refine ⟨state, ?_, ?_⟩ <;> rw [lifetimes] <;> decide
    have rivals : Rivals c 1 0 := by
      refine ⟨by simp, ?_, ?_, ?_⟩ <;> simp [lifetimes, lifetimeOf, Lifetime.Overlaps]
    obtain ⟨j, last, -⟩ := carried 1 _ 0 consults Nat.one_pos rivals
    obtain rfl : j = 0 := Nat.lt_one_iff.mp last.before
    obtain ⟨a, _, first, -⟩ := last.takes
    obtain rfl : { rmap := c.rmap } = a := Except.ok.inj first.state
    exact first.fresh (by rw [lifetimes, rules]; decide)
  exact ⟨f, g, h, n, k, b, rest, c, parsed, corrected, converted, merged, blks,
    allocates.collected, lost, fun agrees => lost (same.mp agrees)⟩

/-- `x` has a register from the start and lives from position 1 to 6. No free register has been
handed out when `build_rmap` comes to `y`, which lives from 2 to 3, so `x` is not collected. -/
theorem passedSecond_notCollected :
    ∃ f g h k m, Frontend.buildFunction 0 passedSecond = .ok f ∧ Optimizes f g h k m ∧
      ∃ b c r b', Visits (.start k) k.blks b c r b' ∧ ¬ AgreesWithScan c := by
  obtain ⟨f, g, h, n, k, m, b, rest, c, r, b', parsed, corrected, converted, merged, allocated,
    blks, allocates, lifetimes, -, state⟩ := passedSecond_collected
  refine ⟨f, g, h, k, m, parsed, ⟨corrected, ⟨n, converted⟩, merged, allocated⟩, b, c, r, b',
    ?_, fun agrees => ?_⟩
  · rw [blks]
    exact .here allocates
  · have consults : Consults c 1 { rmap := [.reg (ra 0)] } := by
      refine ⟨state, ?_, ?_⟩ <;> rw [lifetimes] <;> decide
    have rivals : Rivals c 1 0 := by
      refine ⟨by simp, ?_, ?_, ?_⟩ <;> simp [lifetimes, lifetimeOf, Lifetime.Overlaps]
    have collected := (((agrees 1 _ consults).covers _).mpr ⟨0, rivals, rfl⟩).1
    rw [activeFor, lifetimes] at collected
    exact absurd collected (by decide)

end Qbt.Regalloc
