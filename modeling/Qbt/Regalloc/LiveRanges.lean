import Qbt.Regalloc.CallSaves

/-!
# Lifetimes are exact

`collect_lifetimes` goes through a block once. What it records of a temporary is the position of
its definition, the position of its last use, and how often it is used.
-/

namespace Qbt

/-- What `f` lists for the instructions from position `pos` on, each with its position. -/
def positions (f : Insn → List Nat) (pos : Nat) : List Insn → List (Nat × Nat)
  | [] => []
  | n :: rest => (f n).map (·, pos) ++ positions f (pos + 1) rest

private theorem Val.number?_eq_some {v : Val} {t : Nat} : v.number? = some t ↔ v = .tmp t :=
  Val.mem_number?

namespace Insn

/-- The number of the temporary an instruction writes. -/
def outs (n : Insn) : List Nat := n.out.number?.toList

/-- The numbers of the temporaries an instruction reads. -/
def ins (n : Insn) : List Nat := n.in0.number?.toList ++ n.in1.number?.toList

private theorem mem_outs {n : Insn} {t : Nat} : t ∈ n.outs ↔ t ∈ n.writes := by
  rw [outs, Option.mem_toList, Val.number?_eq_some]
  exact Iff.rfl

private theorem mem_ins {n : Insn} {t : Nat} : t ∈ n.ins ↔ t ∈ n.reads := by
  rw [ins, List.mem_append, Option.mem_toList, Option.mem_toList, Val.number?_eq_some,
    Val.number?_eq_some]
  exact Iff.rfl

end Insn

namespace Blk

/-- What a block defines. The parameters are at position 0. -/
def defPositions (b : Blk) : List (Nat × Nat) :=
  (b.params.filterMap Val.number?).map (·, 0) ++ positions Insn.outs 1 b.insns

/-- What is read behind the instructions of a block. -/
def atEnd (b : Blk) : List Nat :=
  b.cmp0.number?.toList ++ b.cmp1.number?.toList ++ b.args1.filterMap Val.number? ++
    b.args2.filterMap Val.number?

/-- What a block uses. The comparison and the arguments are behind the instructions. -/
def usePositions (b : Blk) : List (Nat × Nat) :=
  positions Insn.ins 1 b.insns ++ b.atEnd.map (·, b.insns.length + 1)

/-- The temporaries that are used behind an instruction, where `after` follows it. -/
def usedBehind (b : Blk) (after : List Insn) : Set Nat :=
  { t | ∃ n ∈ after, t ∈ n.reads } ∪ b.compared ∪ tempsOf b.args1 ∪ tempsOf b.args2

end Blk

section Positions

variable {f : Insn → List Nat} {insns before after : List Insn} {n : Insn} {pos t p : Nat}

private theorem positions_append (first second : List Insn) : positions f pos (first ++ second) =
    positions f pos first ++ positions f (pos + first.length) second := by
  induction first generalizing pos with
  | nil => rfl
  | cons n rest ih =>
    rw [List.cons_append, positions, positions, ih, List.append_assoc, List.length_cons]
    rw [show pos + 1 + rest.length = pos + (rest.length + 1) by omega]

private theorem position_bounds (member : (t, p) ∈ positions f pos insns) :
    pos ≤ p ∧ p < pos + insns.length := by
  induction insns generalizing pos with
  | nil => cases member
  | cons n rest ih =>
    rw [List.length_cons]
    rcases List.mem_append.mp member with here | later
    · obtain ⟨_, _, same⟩ := List.mem_map.mp here
      obtain rfl := (Prod.mk.inj same).2
      omega
    · have := ih later
      omega

private theorem exists_position :
    (∃ p, (t, p) ∈ positions f pos insns) ↔ ∃ n ∈ insns, t ∈ f n := by
  induction insns generalizing pos with
  | nil => simp [positions]
  | cons n rest ih =>
    rw [List.exists_mem_cons_iff, ← @ih (pos + 1)]
    simp only [positions, List.mem_append, List.mem_map, Prod.mk.injEq, exists_or]
    simp

/-- What is in front of a position belongs to the instructions in front. -/
theorem mem_positions_before (less : p < pos + before.length) :
    (t, p) ∈ positions f pos (before ++ after) ↔ (t, p) ∈ positions f pos before := by
  rw [positions_append, List.mem_append, or_iff_left]
  exact fun member => absurd (position_bounds member).1 (Nat.not_le_of_lt less)

/-- What is behind a position belongs to the instructions behind. -/
theorem mem_positions_after (greater : pos + before.length < p) :
    (t, p) ∈ positions f pos (before ++ n :: after) ↔
      (t, p) ∈ positions f (pos + before.length + 1) after := by
  rw [List.append_cons, positions_append, List.mem_append, or_iff_right, List.length_append,
    List.length_singleton, Nat.add_assoc]
  intro member
  have := (position_bounds member).2
  rw [List.length_append, List.length_singleton] at this
  omega

/-- The first components of the definitions are what the block defines. -/
theorem map_fst_positions (f : Insn → List Nat) (pos : Nat) (insns : List Insn) :
    (positions f pos insns).map Prod.fst = insns.flatMap f := by
  induction insns generalizing pos with
  | nil => rfl
  | cons n rest ih =>
    rw [positions, List.map_append, ih, List.flatMap_cons, List.map_map]
    congr 1
    exact List.map_id _

private theorem Blk.map_fst_defPositions (b : Blk) : b.defPositions.map Prod.fst = b.defs := by
  rw [Blk.defPositions, List.map_append, map_fst_positions, List.map_map, Blk.defs,
    List.filterMap_eq_flatMap_toList fun n : Insn => n.out.number?]
  congr 1
  exact List.map_id _

/-- Where a temporary is defined once, its position is unique. -/
theorem Blk.defPosition_unique {b : Blk} (distinct : b.defs.Nodup) {q : Nat}
    (first : (t, p) ∈ b.defPositions) (second : (t, q) ∈ b.defPositions) : p = q := by
  rw [← b.map_fst_defPositions] at distinct
  exact (Prod.mk.inj (List.inj_on_of_nodup_map distinct first second rfl)).2

private theorem Blk.mem_atEnd {b : Blk} :
    t ∈ b.atEnd ↔ t ∈ b.compared ∪ tempsOf b.args1 ∪ tempsOf b.args2 := by
  simp only [atEnd, List.mem_append, Option.mem_toList, Val.number?_eq_some, List.mem_filterMap,
    Set.mem_union, compared, Val.mem_temps, mem_tempsOf, exists_eq_right]

end Positions

namespace Regalloc

/-- What the table says of definitions and uses up to the position `last`: where a temporary is
defined, where it is used last, and how often it is used. -/
structure Ranges (lifetimes : List Lifetime) (defs uses : List (Nat × Nat)) (last : Nat) :
    Prop where
  used : ∀ t, (lifetimeOf lifetimes t).used ≠ 0 → t ∈ defs.map Prod.fst
  known : ∀ u ∈ uses, u.1 ∈ defs.map Prod.fst
  start : ∀ d ∈ defs, (lifetimeOf lifetimes d.1).start = d.2
  covers : ∀ u ∈ uses, u.2 ≤ (lifetimeOf lifetimes u.1).finish
  reached : ∀ d ∈ defs, (d.1, (lifetimeOf lifetimes d.1).finish) ∈ uses ∨
    (lifetimeOf lifetimes d.1).finish = d.2
  count : ∀ d ∈ defs, (lifetimeOf lifetimes d.1).used = uses.countP (·.1 = d.1) + 1
  ordered : ∀ d ∈ defs, d.2 ≤ (lifetimeOf lifetimes d.1).finish
  defsBelow : ∀ d ∈ defs, d.2 ≤ last
  usesBelow : ∀ u ∈ uses, u.2 ≤ last

namespace Ranges

variable {lifetimes lifetimes' : List Lifetime} {defs uses : List (Nat × Nat)} {last pos t : Nat}

/-- The table of no instructions says nothing. -/
theorem nil : Ranges [] [] [] 0 := by
  constructor <;> simp [lifetimeOf]

theorem mono (ranges : Ranges lifetimes defs uses last) (le : last ≤ pos) :
    Ranges lifetimes defs uses pos :=
  { ranges with
    defsBelow := fun d member => Nat.le_trans (ranges.defsBelow d member) le
    usesBelow := fun u member => Nat.le_trans (ranges.usesBelow u member) le }

/-- A new definition starts and ends at its own position. -/
theorem addDef (ranges : Ranges lifetimes defs uses last) (new : t ∉ defs.map Prod.fst) :
    Ranges (addDef lifetimes (.tmp t) last) (defs ++ [(t, last)]) uses last := by
  have own : lifetimeOf (Regalloc.addDef lifetimes (.tmp t) last) t =
      { v := .tmp t, start := last, finish := last, used := 1 } := by
    rw [lifetimeOf_addDef]
    exact if_pos rfl
  have other {u : Nat} (differs : u ≠ t) :
      lifetimeOf (Regalloc.addDef lifetimes (.tmp t) last) u = lifetimeOf lifetimes u := by
    rw [lifetimeOf_addDef]
    exact if_neg differs
  have old {u : Nat} (listed : u ∈ defs.map Prod.fst) : u ≠ t := fun same => new (same ▸ listed)
  have oldDef {d : Nat × Nat} (member : d ∈ defs) : d.1 ≠ t := old (List.mem_map_of_mem member)
  have unused : uses.countP (·.1 = t) = 0 := by
    rw [List.countP_eq_zero]
    exact fun u member => by simpa using old (ranges.known u member)
  have each {P : Nat × Nat → Prop} (olds : ∀ d ∈ defs, P d) (newest : P (t, last)) :
      ∀ d ∈ defs ++ [(t, last)], P d :=
    List.forall_mem_append.mpr ⟨olds, by simpa using newest⟩
  exact {
    used := by
      intro u used
      rw [List.map_append, List.mem_append]
      by_cases same : u = t
      · exact Or.inr (by simp [same])
      · rw [other same] at used
        exact Or.inl (ranges.used u used)
    known := fun u member => by
      rw [List.map_append]
      exact List.mem_append_left _ (ranges.known u member)
    start := each (fun d member => by rw [other (oldDef member), ranges.start d member])
      (by rw [own])
    covers := fun u member => by
      rw [other (old (ranges.known u member))]
      exact ranges.covers u member
    reached := each (fun d member => by
      rw [other (oldDef member)]
      exact ranges.reached d member) (by simp [own])
    count := each (fun d member => by rw [other (oldDef member), ranges.count d member])
      (by rw [own, unused])
    ordered := each (fun d member => by
      rw [other (oldDef member)]
      exact ranges.ordered d member) (by rw [own])
    defsBelow := each ranges.defsBelow (Nat.le_refl last)
    usesBelow := ranges.usesBelow }

/-- A use at the last position ends the lifetime there. -/
theorem addUse (ranges : Ranges lifetimes defs uses last)
    (added : addUse lifetimes (.tmp t) last = .ok lifetimes') :
    Ranges lifetimes' defs (uses ++ [(t, last)]) last := by
  have known : t ∈ defs.map Prod.fst := ranges.used t (addUse_eq_ok.mp added).1
  have table (u : Nat) := lifetimeOf_addUse added u
  have own : lifetimeOf lifetimes' t = { lifetimeOf lifetimes t with
      used := (lifetimeOf lifetimes t).used + 1, finish := last } := by
    rw [table]
    exact if_pos rfl
  have other {u : Nat} (differs : u ≠ t) : lifetimeOf lifetimes' u = lifetimeOf lifetimes u := by
    rw [table]
    exact if_neg differs
  have count (u : Nat) : (uses ++ [(t, last)]).countP (·.1 = u) =
      uses.countP (·.1 = u) + if t = u then 1 else 0 := by
    rw [List.countP_append, List.countP_singleton]
    simp
  exact {
    used := by
      intro u used
      by_cases same : u = t
      · exact same ▸ known
      · rw [other same] at used
        exact ranges.used u used
    known := List.forall_mem_append.mpr ⟨ranges.known, by simpa using known⟩
    start := by
      intro d member
      by_cases same : d.1 = t
      · rw [same, own, ← same]
        exact ranges.start d member
      · rw [other same, ranges.start d member]
    covers := by
      refine List.forall_mem_append.mpr ⟨fun u member => ?_, by simp [own]⟩
      by_cases same : u.1 = t
      · rw [same, own]
        exact ranges.usesBelow u member
      · rw [other same]
        exact ranges.covers u member
    reached := by
      intro d member
      by_cases same : d.1 = t
      · rw [same, own]
        exact Or.inl (by simp)
      · rw [other same]
        exact (ranges.reached d member).imp (List.mem_append_left _) id
    count := by
      intro d member
      rw [count]
      by_cases same : d.1 = t
      · rw [same, own, if_pos rfl, ← same]
        exact congrArg (· + 1) (ranges.count d member)
      · rw [other same, ranges.count d member, if_neg (Ne.symm same), Nat.add_zero]
    ordered := by
      intro d member
      by_cases same : d.1 = t
      · rw [same, own]
        exact ranges.defsBelow d member
      · rw [other same]
        exact ranges.ordered d member
    defsBelow := ranges.defsBelow
    usesBelow := List.forall_mem_append.mpr ⟨ranges.usesBelow, by simp⟩ }

/-- A use is added at the last position. -/
theorem useTmp {v : Val} (ranges : Ranges lifetimes defs uses last)
    (added : useTmp lifetimes v last = .ok lifetimes') :
    Ranges lifetimes' defs (uses ++ v.number?.toList.map (·, last)) last := by
  cases v with
  | tmp t => exact ranges.addUse added
  | _ =>
    cases added
    simpa [Val.number?] using ranges

/-- A new definition is added at the last position. -/
theorem defTmp {v : Val} (ranges : Ranges lifetimes defs uses last)
    (new : ∀ t ∈ v.number?, t ∉ defs.map Prod.fst) :
    Ranges (defTmp lifetimes v last) (defs ++ v.number?.toList.map (·, last)) uses last := by
  cases v with
  | tmp t => exact ranges.addDef (new t rfl)
  | _ => simpa [Regalloc.defTmp, Val.isTmp, Val.number?] using ranges

/-- Block arguments are uses at the last position. -/
theorem collectArgs {args : List Val} (temps : ∀ a ∈ args, a.isTmp)
    (ranges : Ranges lifetimes defs uses last)
    (collected : collectArgs lifetimes args last = .ok lifetimes') :
    Ranges lifetimes' defs (uses ++ (args.filterMap Val.number?).map (·, last)) last := by
  induction args generalizing lifetimes uses with
  | nil =>
    cases collected
    simpa using ranges
  | cons a rest ih =>
    rw [List.forall_mem_cons] at temps
    obtain ⟨t, rfl⟩ := Val.isTmp_iff.mp temps.1
    rw [Regalloc.collectArgs, List.foldlM_cons, Result.bind_eq_ok] at collected
    obtain ⟨next, added, others⟩ := collected
    have behind := ih temps.2 (ranges.addUse added) others
    simpa [Val.number?] using behind

/-- The parameters are defined first. -/
theorem params {params : List Val} (temps : ∀ p ∈ params, p.isTmp)
    (ranges : Ranges lifetimes defs [] 0)
    (distinct : (defs.map Prod.fst ++ params.filterMap Val.number?).Nodup) :
    Ranges (params.foldl (fun lifetimes v => Regalloc.addDef lifetimes v 0) lifetimes)
      (defs ++ (params.filterMap Val.number?).map (·, 0)) [] 0 := by
  induction params generalizing lifetimes defs with
  | nil => simpa using ranges
  | cons p rest ih =>
    rw [List.forall_mem_cons] at temps
    obtain ⟨t, rfl⟩ := Val.isTmp_iff.mp temps.1
    have new : t ∉ defs.map Prod.fst := fun listed =>
      (List.nodup_append.mp distinct).2.2 t listed t (by simp [Val.number?]) rfl
    have behind := ih temps.2 (ranges.addDef new) (by simpa [Val.number?] using distinct)
    simpa [Val.number?] using behind

/-- Instructions add their definitions and uses at their positions. -/
theorem collectInsns {c c' : Collected} {insns : List Insn}
    (ranges : Ranges c.lifetimes defs uses pos)
    (distinct : (defs.map Prod.fst ++ insns.filterMap (·.out.number?)).Nodup)
    (collected : collectInsns c insns (pos + 1) = .ok c') :
    Ranges c'.lifetimes (defs ++ positions Insn.outs (pos + 1) insns)
      (uses ++ positions Insn.ins (pos + 1) insns) (pos + insns.length) := by
  induction insns generalizing c defs uses pos with
  | nil =>
    cases collected
    simpa [positions] using ranges
  | cons n rest ih =>
    simp only [Regalloc.collectInsns, Result.bind_eq_ok] at collected
    obtain ⟨next, first, others⟩ := collected
    simp only [collectInsn, Result.bind_eq_ok, Result.pure_eq, Except.ok.injEq] at first
    obtain ⟨_, used0, _, used1, hinted, hints, rfl⟩ := first
    have split : (n :: rest).filterMap (·.out.number?) =
        n.out.number?.toList ++ rest.filterMap (·.out.number?) := by
      rw [List.filterMap_cons]
      cases n.out.number? <;> rfl
    rw [split, ← List.append_assoc] at distinct
    have own : n.out.number?.toList.map (fun t => (t, pos + 1).1) = n.out.number?.toList :=
      List.map_id _
    have ranges := ((ranges.mono (Nat.le_succ pos)).useTmp used0).useTmp used1
    have ranges := ranges.defTmp (v := n.out) fun t out listed =>
      (List.nodup_append.mp (List.nodup_append.mp distinct).1).2.2 t listed t
        (Option.mem_toList.mpr out) rfl
    rw [show Regalloc.defTmp _ n.out (pos + 1) = hinted.lifetimes from
      (collectHints_lifetimes hints).1.symm] at ranges
    have behind := ih (by exact ranges)
      (by rwa [List.map_append, List.map_map, Function.comp_def, own]) others
    rw [positions, positions, Insn.outs, Insn.ins, List.map_append, List.length_cons]
    rw [show pos + (rest.length + 1) = pos + 1 + rest.length by omega]
    simpa only [List.append_assoc] using behind

end Ranges

/-- The lifetime `l` of a temporary of a block: it runs from the definition to the last use, or is
empty if there is none, and the uses are counted. -/
structure LiveRange (b : Blk) (t : Nat) (l : Lifetime) : Prop where
  start : (t, l.start) ∈ b.defPositions
  covers : ∀ p, (t, p) ∈ b.usePositions → p ≤ l.finish
  reached : (t, l.finish) ∈ b.usePositions ∨ l.finish = l.start
  ordered : l.start ≤ l.finish
  count : l.used = b.usePositions.countP (·.1 = t) + 1

section LiveRange

variable {b : Blk} {c : Collected} {hints rmap : List Val}

/-- The table of a block in which every temporary is defined once. -/
theorem collectLifetimes_ranges (before : BeforeAlloc b) (distinct : b.defs.Nodup)
    (collected : collectLifetimes b hints rmap = .ok c) :
    Ranges c.lifetimes b.defPositions b.usePositions (b.insns.length + 1) := by
  simp only [collectLifetimes, Result.bind_eq_ok, Result.pure_eq, Except.ok.injEq] at collected
  obtain ⟨next, insns, _, cmp0, _, cmp1, _, args1, _, args2, rfl⟩ := collected
  have params := Ranges.nil.params before.params
    (by simpa using (List.nodup_append.mp distinct).1)
  have ranges := params.collectInsns (c := { hints, lifetimes := _, rmap, calls := [] })
    (by simpa [Function.comp_def, Blk.defs] using distinct) insns
  have ranges := ranges.mono (Nat.le_of_eq (Nat.zero_add _)) |>.mono (Nat.le_succ _)
  have ranges := (ranges.useTmp cmp0).useTmp cmp1
  have ranges := (ranges.collectArgs before.args1 args1).collectArgs before.args2 args2
  rw [Blk.defPositions, Blk.usePositions, Blk.atEnd]
  simpa using ranges

private theorem Ranges.liveRange {lifetimes : List Lifetime} {last t : Nat}
    (ranges : Ranges lifetimes b.defPositions b.usePositions last) (defined : t ∈ b.defs) :
    LiveRange b t (lifetimeOf lifetimes t) := by
  rw [← b.map_fst_defPositions] at defined
  obtain ⟨⟨u, p⟩, listed, rfl⟩ := List.mem_map.mp defined
  have start := ranges.start _ listed
  exact {
    start := by rwa [start]
    covers := fun p used => ranges.covers _ used
    reached := by
      rw [start]
      exact ranges.reached _ listed
    ordered := by
      rw [start]
      exact ranges.ordered _ listed
    count := ranges.count _ listed }

/-- A temporary lives across an instruction if it is defined in front of it and used behind it. -/
theorem LiveRange.across_iff {l : Lifetime} {t : Nat} {before after : List Insn} {n : Insn}
    (range : LiveRange b t l) (distinct : b.defs.Nodup) (split : b.insns = before ++ n :: after) :
    l.start < before.length + 1 ∧ before.length + 1 < l.finish ↔
      t ∈ tempsOf b.params ∪ definedIn before ∧ t ∈ b.usedBehind after := by
  have inFront (p : Nat) (less : p < before.length + 1) :
      (t, p) ∈ b.defPositions → t ∈ tempsOf b.params ∪ definedIn before := by
    intro listed
    rcases List.mem_append.mp listed with param | out
    · obtain ⟨u, member, same⟩ := List.mem_map.mp param
      obtain ⟨rfl, -⟩ := Prod.mk.inj same
      exact Or.inl (mem_numbers.mp member)
    · rw [split, mem_positions_before (by omega)] at out
      obtain ⟨m, member, written⟩ := exists_position.mp ⟨p, out⟩
      exact Or.inr ⟨m, member, Insn.mem_outs.mp written⟩
  have length : b.insns.length = before.length + (after.length + 1) := by
    rw [split, List.length_append, List.length_cons]
  have behind : (∃ p, before.length + 1 < p ∧ (t, p) ∈ b.usePositions) ↔
      t ∈ b.usedBehind after := by
    constructor
    · rintro ⟨p, greater, used⟩
      rcases List.mem_append.mp used with read | last
      · rw [split, mem_positions_after (by omega)] at read
        obtain ⟨m, member, mentioned⟩ := exists_position.mp ⟨p, read⟩
        exact Or.inl (Or.inl (Or.inl ⟨m, member, Insn.mem_ins.mp mentioned⟩))
      · obtain ⟨u, member, same⟩ := List.mem_map.mp last
        obtain ⟨rfl, -⟩ := Prod.mk.inj same
        rcases Blk.mem_atEnd.mp member with (compared | args) | args
        · exact Or.inl (Or.inl (Or.inr compared))
        · exact Or.inl (Or.inr args)
        · exact Or.inr args
    · intro used
      have ending (member : t ∈ b.compared ∪ tempsOf b.args1 ∪ tempsOf b.args2) :
          ∃ p, before.length + 1 < p ∧ (t, p) ∈ b.usePositions :=
        ⟨b.insns.length + 1, by omega, List.mem_append_right _
          (List.mem_map.mpr ⟨t, Blk.mem_atEnd.mpr member, rfl⟩)⟩
      rcases used with ((⟨m, member, read⟩ | compared) | args) | args
      · obtain ⟨p, found⟩ := (exists_position :
          (∃ p, (t, p) ∈ positions Insn.ins (1 + before.length + 1) after) ↔ _).mpr
            ⟨m, member, Insn.mem_ins.mpr read⟩
        have greater := (position_bounds found).1
        refine ⟨p, by omega, List.mem_append_left _ ?_⟩
        rw [split, mem_positions_after (by omega)]
        exact found
      · exact ending (Or.inl (Or.inl compared))
      · exact ending (Or.inl (Or.inr args))
      · exact ending (Or.inr args)
  rw [← behind]
  constructor
  · rintro ⟨less, greater⟩
    refine ⟨inFront _ less range.start, l.finish, greater, ?_⟩
    exact range.reached.resolve_right fun same => by omega
  · rintro ⟨defined, p, greater, used⟩
    refine ⟨?_, Nat.lt_of_lt_of_le greater (range.covers p used)⟩
    have found : ∃ q, q < before.length + 1 ∧ (t, q) ∈ b.defPositions := by
      rcases defined with param | ⟨m, member, written⟩
      · exact ⟨0, Nat.succ_pos _, List.mem_append_left _
          (List.mem_map.mpr ⟨t, mem_numbers.mpr param, rfl⟩)⟩
      · obtain ⟨q, found⟩ := (exists_position :
          (∃ q, (t, q) ∈ positions Insn.outs 1 before) ↔ _).mpr
            ⟨m, member, Insn.mem_outs.mpr written⟩
        have less := (position_bounds found).2
        refine ⟨q, by omega, List.mem_append_right _ ?_⟩
        rw [split, mem_positions_before less]
        exact found
    obtain ⟨q, less, listed⟩ := found
    rwa [Blk.defPosition_unique distinct range.start listed]

end LiveRange

/-- The lifetimes of a block: `collect_lifetimes` knows what the block defines, and across its call
lives what is defined in front of it and used behind it. -/
structure ExactLifetimes (b : Blk) (lifetimes : List Lifetime) : Prop where
  used : ∀ t, (lifetimeOf lifetimes t).used ≠ 0 ↔ t ∈ b.defs
  range : ∀ t ∈ b.defs, LiveRange b t (lifetimeOf lifetimes t)
  across : ∀ before n after, b.insns = before ++ n :: after → ∀ t,
    LivesAcross lifetimes (before.length + 1) t ↔
      t ∈ tempsOf b.params ∪ definedIn before ∧ t ∈ b.usedBehind after

/-- What is recorded to the end of a block are its exact lifetimes. -/
theorem Recorded.exactLifetimes {b : Blk} {lifetimes : List Lifetime} {last last' : Nat}
    (recorded : Recorded lifetimes b.defs last) (distinct : b.defs.Nodup)
    (ranges : Ranges lifetimes b.defPositions b.usePositions last') :
    ExactLifetimes b lifetimes where
  used := recorded.used
  range _ defined := ranges.liveRange defined
  across before n after split t := by
    have inside : tempsOf b.params ∪ definedIn before ⊆ tempsOf b.params ∪ b.defined :=
      Set.union_subset_union_right _ fun u ⟨m, listed, written⟩ =>
        ⟨m, by rw [split]; exact List.mem_append_left _ listed, written⟩
    constructor
    · rintro ⟨used, start, finish⟩
      have range := ranges.liveRange ((recorded.used t).mp used)
      exact (range.across_iff distinct split).mp ⟨start, finish⟩
    · intro lives
      have defined := mem_defs.mpr (inside lives.1)
      obtain ⟨start, finish⟩ := ((ranges.liveRange defined).across_iff distinct split).mpr lives
      exact ⟨(recorded.used t).mpr defined, start, finish⟩

/-- The lifetimes of an allocated block are exact. -/
theorem Allocates.exactLifetimes {k : Fn} {n : Nat} {now : Allocation} {b b' : Blk} {c : Collected}
    {r : Assignment} (allocates : Allocates now b c r b') (input : AllocInput k n)
    (member : b ∈ k.blks) : ExactLifetimes b c.lifetimes := by
  have increasing := input.increasing b member
  obtain ⟨c', collected, recorded⟩ := collectLifetimes_recorded now.hints now.rmap
    (input.uses b member) increasing (input.before b member)
  obtain rfl : c' = c := Except.ok.inj (collected.symm.trans allocates.collected)
  have distinct : b.defs.Nodup := increasing.imp Nat.ne_of_lt
  exact recorded.exactLifetimes distinct
    (collectLifetimes_ranges (input.before b member) distinct collected)

/-- In every block that `regalloc` visits the lifetimes are exact. -/
theorem exactLifetimes_of_visits {f g h k : Fn} {n : Nat} (built : Frontend.ParserBuilt f)
    (corrected : Corrected f g) (converted : ssa g = .ok (h, n)) (merged : abi0 h = .ok k)
    {b b' : Blk} {c : Collected} {r : Assignment} (visits : Visits (.start k) k.blks b c r b') :
    ExactLifetimes b c.lifetimes := by
  obtain ⟨member, now, allocates⟩ := visits.allocates
  exact allocates.exactLifetimes (Abi.abi0_input built corrected converted merged) member

/-- In `passedSecond` the parameter `x` lives across the call. -/
theorem exactLifetimes_passedSecond :
    ∃ f g h n k b c r b', Frontend.buildFunction 0 passedSecond = .ok f ∧ Corrected f g ∧
      ssa g = .ok (h, n) ∧ abi0 h = .ok k ∧ Visits (.start k) k.blks b c r b' ∧
        LivesAcross c.lifetimes 5 0 ∧ ExactLifetimes b c.lifetimes := by
  have ran : ∃ f g ri h n k, Frontend.buildFunction 0 passedSecond = .ok f ∧
      correct 20 f f.ntmp = .ok (g, ri) ∧ ssa { g with ntmp := ri } = .ok (h, n) ∧
        abi0 h = .ok k ∧
        ∃ b rest c r b', k.blks = b :: rest ∧ collectLifetimes b [] [] = .ok c ∧
          buildRmap c.hints c.lifetimes c.rmap = .ok r ∧ doRewrites b r.rmap = .ok b' ∧
            lifetimeOf c.lifetimes 0 = ⟨.tmp 0, 1, 6, 4⟩ :=
    ⟨_, _, _, _, _, _, by rfl, by rfl, by rfl, by rfl,
      _, _, _, _, _, by rfl, by rfl, by rfl, by rfl, by rfl⟩
  obtain ⟨f, g, ri, h, n, k, parsed, corrected, converted, merged, b, rest, c, r, b', blks,
    collected, assigned, rewritten, lifetime⟩ := ran
  have corrected : Corrected f { g with ntmp := ri } := ⟨20, g, ri, corrected, rfl⟩
  have visits : Visits (.start k) k.blks b c r b' := by
    rw [blks]
    exact .here ⟨collected, assigned, rewritten⟩
  have exact' := exactLifetimes_of_visits ⟨0, _, parsed⟩ corrected converted merged visits
  have across : LivesAcross c.lifetimes 5 0 := by
    refine ⟨?_, ?_, ?_⟩ <;> rw [lifetime] <;> decide
  exact ⟨f, _, h, n, k, b, c, r, b', parsed, corrected, converted, merged, visits, across, exact'⟩

end Regalloc

end Qbt
