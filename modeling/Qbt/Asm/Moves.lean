import Qbt.Asm.Asm
import Qbt.Std.ParallelMove

/-!
# What `output_moves` prints

Every move that is needed is printed once, and beside them there are only moves to the
scratch register, one for every move that would close a cycle. Without cycles no move
reads what an earlier one has written.
-/

namespace Qbt.Asm

open ParallelMove (Feeds Acyclic Implements)

/-- The values are `n` registers that can be printed. -/
structure Names (vals : List Val) (n : Nat) (r : Nat → Nat) : Prop where
  length : vals.length = n
  get : ∀ i < n, vals[i]? = some (.reg (r i))
  bound : ∀ i < n, r i ≤ 80

/-- The moves from the arguments `a` to the parameters `p`. -/
def pairs (n : Nat) (p a : Nat → Nat) : List (Nat × Nat) := (List.range n).map fun i => (p i, a i)

private theorem mem_pairs {n : Nat} {p a : Nat → Nat} {m : Nat × Nat} :
    m ∈ pairs n p a ↔ ∃ i < n, (p i, a i) = m := by
  simp [pairs]

/-- What `move_one` prints: the move of an argument, or the rescue of an argument that is
about to be overwritten. -/
inductive Made where
  | move (i : Nat)
  | scratch (i : Nat)

/-- The index `move_one` prints it for. -/
def Made.index : Made → Nat
  | .move i => i
  | .scratch i => i

/-- The registers of what is printed. -/
def Made.pair (p a : Nat → Nat) : Made → Nat × Nat
  | .move i => (p i, a i)
  | .scratch i => (rtmp0, a i)

/-- A move as it is printed. -/
def mvLine (m : Nat × Nat) : Line := .mv m.1 m.2

private theorem outputMove_reg {dst src : Nat} (differ : dst ≠ src) (dstBound : dst ≤ 80)
    (srcBound : src ≤ 80) : outputMove (insnCreate .move .notype (.reg dst) (.reg src) .noclass 0) =
      .ok [mvLine (dst, src)] := by
  simp [outputMove, insnCreate, Val.same, differ, rname, dstBound, srcBound, mvLine]

section Moves

variable {n : Nat} {p a : Nat → Nat}

/-- What `move_one` keeps true, with what it has printed so far. -/
structure Keeps (n : Nat) (p a : Nat → Nat) (m : Moving) (made : List Made) : Prop where
  lines : m.lines = made.map fun x => mvLine (x.pair p a)
  length : m.status.length = n
  args : m.args.length = n
  arg : ∀ j < n, Made.scratch j ∉ made → m.args[j]? = some (.reg (a j))
  scratched : ∀ j < n, Made.scratch j ∈ made → m.args[j]? = some (.reg rtmp0)
  moved : ∀ i, Made.move i ∈ made ↔ m.status[i]? = some .moved
  needed : ∀ i, m.status[i]? ≠ some .toMove → i < n → p i ≠ a i
  waits : ∀ j, Made.scratch j ∈ made → j < n ∧ m.status[j]? ≠ some .toMove
  readers : ∀ i, Made.move i ∈ made → ∀ j < n, p j ≠ a j → a j = p i →
    Made.move j ∈ made ∨ Made.scratch j ∈ made
  loops : ∀ j, Made.scratch j ∈ made → ¬ Acyclic (pairs n p a)
  order : (∀ j, Made.scratch j ∉ made) →
    (made.map (Made.pair p a)).Pairwise fun x y => y.2 ≠ x.1
  once : made.Nodup

/-- Moves are printed for the given arguments only. -/
theorem Keeps.index_lt {m : Moving} {made : List Made} (keeps : Keeps n p a m made) {x : Made}
    (printed : x ∈ made) : x.index < n := by
  cases x with
  | move i =>
    rw [← keeps.length]
    exact (List.getElem?_eq_some_iff.mp ((keeps.moved i).mp printed)).1
  | scratch i => exact (keeps.waits i printed).1

/-- What `move_one` may change: arguments that were to be moved have been moved. -/
structure Progress (m m' : Moving) : Prop where
  status : ∀ i : Nat, m'.status[i]? = m.status[i]? ∨
    (m.status[i]? = some MoveStatus.toMove ∧ m'.status[i]? = some MoveStatus.moved)
  left : m'.status.count MoveStatus.toMove ≤ m.status.count MoveStatus.toMove

theorem Progress.refl (m : Moving) : Progress m m := ⟨fun _ => Or.inl rfl, Nat.le_refl _⟩

theorem Progress.trans {m m' m'' : Moving} (first : Progress m m') (second : Progress m' m'') :
    Progress m m'' := by
  refine ⟨fun i => ?_, second.left.trans first.left⟩
  rcases second.status i with same | ⟨before, after⟩
  · rw [same]
    exact first.status i
  · rcases first.status i with same' | ⟨_, after'⟩
    · exact Or.inr ⟨same' ▸ before, after⟩
    · rw [after'] at before
      cases before

/-- What is being moved or has been moved stays so. -/
theorem Progress.keeps {m m' : Moving} (progress : Progress m m') {i : Nat} {s : MoveStatus}
    (status : m.status[i]? = some s) (other : s ≠ .toMove) : m'.status[i]? = some s := by
  rcases progress.status i with same | ⟨before, _⟩
  · rw [same, status]
  · rw [status, Option.some.injEq] at before
    exact absurd before other

/-- What is being moved afterwards has been so before. -/
theorem Progress.being {m m' : Moving} (progress : Progress m m') {i : Nat}
    (status : m'.status[i]? = some .beingMoved) : m.status[i]? = some .beingMoved := by
  rcases progress.status i with same | ⟨_, after⟩
  · rw [← same, status]
  · rw [status] at after
    cases after

/-- What a call of `move_one` for `pi` has to achieve. -/
def Moves (n : Nat) (p a : Nat → Nat) (moveOne : Moving → Nat → Result Moving) (fuel : Nat) :
    Prop :=
  ∀ m made pi, Keeps n p a m made → m.status[pi]? = some .toMove →
    m.status.count .toMove < fuel →
    (p pi ≠ a pi → ∀ b, m.status[b]? = some .beingMoved →
      Relation.TransGen (Feeds (pairs n p a)) (p b) (p pi)) →
    ∃ m' made', moveOne m pi = .ok m' ∧ Keeps n p a m' (made ++ made') ∧ Progress m m' ∧
      (p pi ≠ a pi → m'.status[pi]? = some .moved)

private theorem feeds_of_reader {i j : Nat} (inside : j < n) (needed : p j ≠ a j)
    (reads : a j = p i) : Feeds (pairs n p a) (p i) (p j) := by
  rw [← reads]
  exact ⟨mem_pairs.mpr ⟨j, inside, rfl⟩, needed⟩

/-- The rescue of an argument keeps what has to be kept. -/
private theorem keeps_scratch {pi ai : Nat} {m : Moving} {made : List Made}
    (keeps : Keeps n p a m made) (insideAi : ai < n) (fresh : Made.scratch ai ∉ made)
    (being : m.status[ai]? = some .beingMoved) (reads : a ai = p pi)
    (path : Relation.ReflTransGen (Feeds (pairs n p a)) (p ai) (p pi)) :
    Keeps n p a { m with
        args := m.args.set ai (.reg rtmp0)
        lines := m.lines ++ [mvLine (rtmp0, a ai)] } (made ++ [.scratch ai]) := by
  have needed : p ai ≠ a ai := keeps.needed ai (by simp [being]) insideAi
  have cyclic : ¬ Acyclic (pairs n p a) := fun acyclic =>
    acyclic (p ai) (Relation.TransGen.tail' path (feeds_of_reader insideAi needed reads))
  refine {
    lines := by simp [keeps.lines, Made.pair]
    length := keeps.length
    args := by simp [keeps.args]
    arg := fun j inside fresh => ?_
    scratched := fun j inside member => ?_
    moved := fun i => by simpa using keeps.moved i
    needed := keeps.needed
    waits := fun j member => ?_
    readers := fun i member j inside needed reads => ?_
    loops := fun j member => ?_
    order := fun none => absurd (by simp) (none ai)
    once := List.concat_eq_append ▸ keeps.once.concat fresh }
  · simp only [List.mem_append, List.mem_singleton, Made.scratch.injEq, not_or] at fresh
    rw [List.getElem?_set_ne (Ne.symm fresh.2)]
    exact keeps.arg j inside fresh.1
  · by_cases same : ai = j
    · subst j
      rw [List.getElem?_set_self (by rwa [keeps.args])]
    · rw [List.getElem?_set_ne same]
      refine keeps.scratched j inside ?_
      simpa [Ne.symm same] using member
  · simp only [List.mem_append, List.mem_singleton, Made.scratch.injEq] at member
    rcases member with old | rfl
    · exact keeps.waits j old
    · exact ⟨insideAi, by simp [being]⟩
  · have old : Made.move i ∈ made := by simpa using member
    exact (keeps.readers i old j inside needed reads).imp (List.mem_append_left _)
      (List.mem_append_left _)
  · simp only [List.mem_append, List.mem_singleton, Made.scratch.injEq] at member
    rcases member with old | rfl
    · exact keeps.loops j old
    · exact cyclic

/-- The loop body deals with an argument that reads the parameter. -/
private theorem moveReaders_step {rec : Moving → Nat → Result Moving} {fuel pi ai : Nat}
    (moves : Moves n p a rec fuel) (noScratch : p pi ≠ rtmp0) (bound : p pi ≤ 80)
    {m : Moving} {made : List Made} (keeps : Keeps n p a m made) (inside : ai < n)
    (left : m.status.count .toMove < fuel)
    (path : ∀ b, m.status[b]? = some .beingMoved →
      Relation.ReflTransGen (Feeds (pairs n p a)) (p b) (p pi)) :
    ∃ m' made', moveReaders rec (.reg (p pi)) m ai = .ok m' ∧
      Keeps n p a m' (made ++ made') ∧ Progress m m' ∧
      (p ai ≠ a ai → a ai = p pi →
        Made.move ai ∈ made ++ made' ∨ Made.scratch ai ∈ made ++ made') := by
  by_cases scratched : Made.scratch ai ∈ made
  · -- The argument has been rescued and is no longer in the way.
    refine ⟨m, [], ?_, by simpa using keeps, .refl m, fun _ _ => Or.inr (by simpa using scratched)⟩
    simp [moveReaders, blkParamAt, keeps.scratched ai inside scratched, Val.same, noScratch.symm]
  have arg := keeps.arg ai inside scratched
  by_cases reads : a ai = p pi
  · have entry : moveReaders rec (.reg (p pi)) m ai = moveReader rec m ai (.reg (a ai)) := by
      simp [moveReaders, blkParamAt, arg, Val.same, reads]
    rw [entry]
    obtain ⟨status, found⟩ : ∃ status, m.status[ai]? = some status := by
      rw [← keeps.length] at inside
      exact ⟨_, List.getElem?_eq_getElem inside⟩
    cases status with
    | toMove =>
      obtain ⟨m', made', returned, keeps', progress, done⟩ := moves m made ai keeps found left
        fun needed b being =>
          Relation.TransGen.tail' (path b being) (feeds_of_reader inside needed reads)
      refine ⟨m', made', by simp [moveReader, found, returned], keeps', progress, ?_⟩
      exact fun needed _ => Or.inl ((keeps'.moved ai).mpr (done needed))
    | beingMoved =>
      refine ⟨_, [.scratch ai], ?_, keeps_scratch keeps inside scratched found reads
        (path ai found), ⟨fun _ => Or.inl rfl, Nat.le_refl _⟩, fun _ _ => Or.inr (by simp)⟩
      have printed : outputMove (insnCreate .move .notype (.reg rtmp0) (.reg (a ai)) .noclass 0) =
          .ok [mvLine (rtmp0, a ai)] :=
        outputMove_reg (by rw [reads]; exact noScratch.symm) (by decide)
          (by rw [reads]; exact bound)
      simp [moveReader, found, printed]
    | moved =>
      exact ⟨m, [], by simp [moveReader, found], by simpa using keeps, .refl m,
        fun _ _ => Or.inl (by simpa using (keeps.moved ai).mpr found)⟩
  · refine ⟨m, [], ?_, by simpa using keeps, .refl m, fun _ reads' => absurd reads' reads⟩
    simp [moveReaders, blkParamAt, arg, Val.same, reads]

/-- The loop over the arguments deals with everything that reads the parameter. -/
private theorem moveReaders_spec {rec : Moving → Nat → Result Moving} {fuel pi : Nat}
    (moves : Moves n p a rec fuel) (noScratch : p pi ≠ rtmp0) (bound : p pi ≤ 80)
    {m : Moving} {made : List Made} (keeps : Keeps n p a m made)
    (left : m.status.count .toMove < fuel)
    (path : ∀ b, m.status[b]? = some .beingMoved →
      Relation.ReflTransGen (Feeds (pairs n p a)) (p b) (p pi))
    (indices : List Nat) (insides : ∀ ai ∈ indices, ai < n) :
    ∃ m' made', indices.foldlM (moveReaders rec (.reg (p pi))) m = .ok m' ∧
      Keeps n p a m' (made ++ made') ∧ Progress m m' ∧
      ∀ ai ∈ indices, p ai ≠ a ai → a ai = p pi →
        Made.move ai ∈ made ++ made' ∨ Made.scratch ai ∈ made ++ made' := by
  induction indices generalizing m made with
  | nil => exact ⟨m, [], rfl, by simpa using keeps, .refl m, by simp⟩
  | cons ai rest ih =>
    obtain ⟨m₁, made₁, first, keeps₁, progress₁, done⟩ := moveReaders_step moves noScratch bound
      keeps (insides ai List.mem_cons_self) left path
    obtain ⟨m₂, made₂, others, keeps₂, progress₂, dones⟩ := ih keeps₁
      (Nat.lt_of_le_of_lt progress₁.left left) (fun b being => path b (progress₁.being being))
      (fun b member => insides b (List.mem_cons_of_mem _ member))
    refine ⟨m₂, made₁ ++ made₂, ?_, by rwa [← List.append_assoc], progress₁.trans progress₂, ?_⟩
    · rw [List.foldlM_cons, first]
      exact others
    · rw [← List.append_assoc]
      intro b member needed reads
      rcases List.mem_cons.mp member with rfl | member
      · exact (done needed reads).imp (List.mem_append_left _) (List.mem_append_left _)
      · exact dones b member needed reads

/-- Turning to an argument keeps what has to be kept. -/
private theorem keeps_being {pi : Nat} {m : Moving} {made : List Made}
    (keeps : Keeps n p a m made) (status : m.status[pi]? = some .toMove) (needed : p pi ≠ a pi) :
    Keeps n p a { m with status := m.status.set pi .beingMoved } made := by
  have inside : pi < m.status.length := (List.getElem?_eq_some_iff.mp status).1
  have others (i : Nat) (differs : i ≠ pi) :
      (m.status.set pi .beingMoved)[i]? = m.status[i]? := List.getElem?_set_ne differs.symm
  have current : (m.status.set pi .beingMoved)[pi]? = some .beingMoved :=
    List.getElem?_set_self inside
  exact {
    keeps with
    length := by simp [keeps.length]
    moved := fun i => by
      by_cases same : i = pi
      · subst i
        rw [keeps.moved, status, current]
        simp
      · rw [others i same]
        exact keeps.moved i
    needed := fun i touched insideI => by
      by_cases same : i = pi
      · rwa [same]
      · rw [others i same] at touched
        exact keeps.needed i touched insideI
    waits := fun j member => by
      obtain ⟨insideJ, touched⟩ := keeps.waits j member
      refine ⟨insideJ, ?_⟩
      by_cases same : j = pi
      · rw [same, current]
        simp
      · rwa [others j same] }

/-- The move of an argument keeps what has to be kept, once everything that reads its
destination has been dealt with. -/
private theorem keeps_move {pi : Nat} {m : Moving} {made : List Made}
    (keeps : Keeps n p a m made) (status : m.status[pi]? = some .beingMoved)
    (dealt : ∀ ai < n, p ai ≠ a ai → a ai = p pi →
      Made.move ai ∈ made ∨ Made.scratch ai ∈ made) :
    Keeps n p a { m with
        status := m.status.set pi .moved
        lines := m.lines ++ [mvLine (p pi, a pi)] } (made ++ [.move pi]) := by
  have inside : pi < m.status.length := (List.getElem?_eq_some_iff.mp status).1
  have inside' : pi < n := by rwa [← keeps.length]
  have needed := keeps.needed pi (by simp [status]) inside'
  have others (i : Nat) (differs : i ≠ pi) :
      (m.status.set pi .moved)[i]? = m.status[i]? := List.getElem?_set_ne differs.symm
  have current : (m.status.set pi .moved)[pi]? = some .moved := List.getElem?_set_self inside
  refine {
    lines := by simp [keeps.lines, Made.pair]
    length := by simp [keeps.length]
    args := keeps.args
    arg := fun j insideJ fresh => keeps.arg j insideJ fun old => fresh (by simp [old])
    scratched := fun j insideJ member => keeps.scratched j insideJ (by simpa using member)
    moved := fun i => ?_
    needed := fun i touched insideI => ?_
    waits := fun j member => ?_
    readers := fun i member j insideJ neededJ reads => ?_
    loops := fun j member => keeps.loops j (by simpa using member)
    order := fun none => ?_
    once := List.concat_eq_append ▸ keeps.once.concat fun old => ?_ }
  · by_cases same : i = pi
    · subst i
      simp [current]
    · rw [others i same, ← keeps.moved]
      simp [same]
  · by_cases same : i = pi
    · rwa [same]
    · rw [others i same] at touched
      exact keeps.needed i touched insideI
  · obtain ⟨insideJ, touched⟩ := keeps.waits j (by simpa using member)
    refine ⟨insideJ, ?_⟩
    by_cases same : j = pi
    · rw [same, current]
      simp
    · rwa [others j same]
  · have before : Made.move j ∈ made ∨ Made.scratch j ∈ made := by
      simp only [List.mem_append, List.mem_singleton, Made.move.injEq] at member
      rcases member with old | rfl
      · exact keeps.readers i old j insideJ neededJ reads
      · exact dealt j insideJ neededJ reads
    exact before.imp (List.mem_append_left _) (List.mem_append_left _)
  · have none' : ∀ j, Made.scratch j ∉ made := fun j old => none j (by simp [old])
    rw [List.map_append, List.pairwise_append]
    refine ⟨keeps.order none', by simp, ?_⟩
    intro x member y last
    obtain rfl : y = (p pi, a pi) := by simpa [Made.pair] using last
    obtain ⟨earlier, old, rfl⟩ := List.mem_map.mp member
    cases earlier with
    | scratch j => exact absurd old (none' j)
    | move i =>
      -- What reads the destination of an earlier move has been moved before it.
      intro reads
      rcases keeps.readers i old pi inside' needed reads with again | rescued
      · rw [keeps.moved, status] at again
        cases again
      · exact none' pi rescued
  · -- It has been turned to, but not been moved.
    rw [keeps.moved, status] at old
    cases old

/-- `move_one` moves its argument behind everything that reads the destination. -/
theorem moveOne_spec {params : List Val} (names : Names params n p)
    (noScratch : ∀ i < n, p i ≠ rtmp0) (bound : ∀ i < n, a i ≤ 80) (fuel : Nat) :
    Moves n p a (moveOne params fuel) fuel := by
  induction fuel with
  | zero => exact fun m _ _ _ _ left => absurd left (Nat.not_lt_zero _)
  | succ fuel ih =>
    intro m made pi keeps status left path
    have inside : pi < m.status.length := (List.getElem?_eq_some_iff.mp status).1
    have inside' : pi < n := by rwa [← keeps.length]
    have param : blkParamAt params pi = .ok (.reg (p pi)) := by
      simp [blkParamAt, names.get pi inside']
    have arg : blkParamAt m.args pi = .ok (.reg (a pi)) := by
      have fresh : Made.scratch pi ∉ made := fun rescued => (keeps.waits pi rescued).2 status
      simp [blkParamAt, keeps.arg pi inside' fresh]
    by_cases needed : p pi = a pi
    · refine ⟨m, [], ?_, by simpa using keeps, .refl m, fun differ => absurd needed differ⟩
      simp [moveOne, param, arg, Val.same, needed]
    have current : (m.status.set pi .beingMoved)[pi]? = some .beingMoved :=
      List.getElem?_set_self inside
    have dropped : (m.status.set pi .beingMoved).count .toMove + 1 = m.status.count .toMove := by
      have entry : m.status[pi] = .toMove := by
        rwa [List.getElem?_eq_getElem inside, Option.some.injEq] at status
      have positive : 0 < m.status.count .toMove :=
        List.count_pos_iff.mpr (entry ▸ List.getElem_mem inside)
      rw [List.count_set inside, entry]
      simp
      omega
    have fewer : (m.status.set pi .beingMoved).count .toMove < fuel := by omega
    obtain ⟨m', made', looped, keeps', progress, dealt⟩ := moveReaders_spec ih
      (noScratch pi inside') (names.bound pi inside') (keeps_being keeps status needed) fewer
      (fun b being => by
        by_cases same : b = pi
        · rw [same]
        · have before : m.status[b]? = some .beingMoved := by
            rwa [List.getElem?_set_ne (Ne.symm same)] at being
          exact (path needed b before).to_reflTransGen)
      (List.range m.args.length) (fun ai member => by
        rw [← keeps.args]
        exact List.mem_range.mp member)
    have current' := progress.keeps current (by simp)
    have printed := outputMove_reg needed (names.bound pi inside') (bound pi inside')
    have inside'' : pi < m'.status.length := (List.getElem?_eq_some_iff.mp current').1
    refine ⟨{ m' with
        status := m'.status.set pi .moved
        lines := m'.lines ++ [mvLine (p pi, a pi)] }, made' ++ [.move pi], ?_, ?_, ?_, ?_⟩
    · simp only [moveOne, param, arg, Result.ok_bind]
      simp [Val.same, needed, looped, printed]
    · rw [← List.append_assoc]
      refine keeps_move keeps' current' fun ai insideAi neededAi reads => ?_
      exact dealt ai (List.mem_range.mpr (by rwa [keeps.args])) neededAi reads
    · refine ⟨fun i => ?_, ?_⟩
      · by_cases same : i = pi
        · subst i
          exact Or.inr ⟨status, List.getElem?_set_self inside''⟩
        · rw [List.getElem?_set_ne (Ne.symm same)]
          have others := progress.status i
          rwa [List.getElem?_set_ne (Ne.symm same)] at others
      · have entry : m'.status[pi] = .beingMoved := by
          rwa [List.getElem?_eq_getElem inside'', Option.some.injEq] at current'
        have fewer' : m'.status.count .toMove ≤ (m.status.set pi .beingMoved).count .toMove :=
          progress.left
        rw [List.count_set inside'', entry]
        simp
        omega
    · exact fun _ => List.getElem?_set_self inside''

/-- The loop of `output_moves` moves every argument that has to be moved. -/
private theorem moveParams_spec {params : List Val} (names : Names params n p)
    (noScratch : ∀ i < n, p i ≠ rtmp0) (bound : ∀ i < n, a i ≤ 80) {m : Moving}
    {made : List Made} (keeps : Keeps n p a m made)
    (idle : ∀ b : Nat, m.status[b]? ≠ some .beingMoved) (indices : List Nat)
    (insides : ∀ pi ∈ indices, pi < n) :
    ∃ m' made', indices.foldlM (moveParam params) m = .ok m' ∧ Keeps n p a m' made' ∧
      (∀ i, Made.move i ∈ made → Made.move i ∈ made') ∧
      ∀ pi ∈ indices, p pi ≠ a pi → Made.move pi ∈ made' := by
  induction indices generalizing m made with
  | nil => exact ⟨m, made, rfl, keeps, fun _ old => old, by simp⟩
  | cons pi rest ih =>
    have others := fun pi' member => insides pi' (List.mem_cons_of_mem pi member)
    have inside : pi < m.status.length := by
      rw [keeps.length]
      exact insides pi List.mem_cons_self
    by_cases status : m.status[pi]? = some .toMove
    · have left : m.status.count .toMove < params.length + 1 := by
        have bounded := List.count_le_length (a := MoveStatus.toMove) (l := m.status)
        rw [keeps.length, ← names.length] at bounded
        omega
      obtain ⟨m₁, made₁, returned, keeps₁, progress, done⟩ :=
        moveOne_spec names noScratch bound (params.length + 1) m made pi keeps status left
          fun _ b being => absurd being (idle b)
      obtain ⟨m₂, made₂, looped, keeps₂, kept, dones⟩ := ih keeps₁
        (fun b being => idle b (progress.being being)) others
      refine ⟨m₂, made₂, ?_, keeps₂, fun i old => kept i (List.mem_append_left _ old), ?_⟩
      · rw [List.foldlM_cons, moveParam, if_pos status, returned]
        exact looped
      · intro i member needed
        rcases List.mem_cons.mp member with rfl | member
        · exact kept i ((keeps₁.moved i).mpr (done needed))
        · exact dones i member needed
    · obtain ⟨m₂, made₂, looped, keeps₂, kept, dones⟩ := ih keeps idle others
      refine ⟨m₂, made₂, ?_, keeps₂, kept, ?_⟩
      · rw [List.foldlM_cons, moveParam, if_neg status]
        exact looped
      · intro i member needed
        rcases List.mem_cons.mp member with rfl | member
        · refine kept i ((keeps.moved i).mpr ?_)
          obtain ⟨s, found⟩ : ∃ s, m.status[i]? = some s :=
            ⟨_, List.getElem?_eq_getElem inside⟩
          cases s with
          | toMove => exact absurd found status
          | beingMoved => exact absurd found (idle i)
          | moved => exact found
        · exact dones i member needed

/-- `output_moves` returns, and moves every argument that has to be moved. -/
theorem outputMoves_keeps {params args : List Val} (paramNames : Names params n p)
    (argNames : Names args n a) (noScratch : ∀ i < n, p i ≠ rtmp0) :
    ∃ m made, outputMoves params args = .ok (made.map fun x => mvLine (x.pair p a)) ∧
      Keeps n p a m made ∧ ∀ i < n, p i ≠ a i → Made.move i ∈ made := by
  have idle {i : Nat} {s : MoveStatus}
      (status : (params.map fun _ => MoveStatus.toMove)[i]? = some s) : s = .toMove := by
    obtain ⟨_, _, same⟩ := List.mem_map.mp (List.mem_of_getElem? status)
    exact same.symm
  have start : Keeps n p a { args, status := params.map fun _ => .toMove } [] := {
    lines := rfl
    length := by simp [paramNames.length]
    args := argNames.length
    arg := fun j inside _ => argNames.get j inside
    scratched := by simp
    moved := fun i => ⟨by simp, fun status => by cases idle status⟩
    needed := fun i touched inside => by
      rw [List.getElem?_map, paramNames.get i inside] at touched
      exact absurd rfl touched
    waits := by simp
    readers := by simp
    loops := by simp
    order := by simp
    once := List.nodup_nil }
  obtain ⟨m, made, looped, keeps, _, done⟩ := moveParams_spec paramNames noScratch argNames.bound
    start (fun b being => by cases idle being) (List.range n) (by simp)
  refine ⟨m, made, ?_, keeps, fun i inside => done i (List.mem_range.mpr inside)⟩
  have lengths : params.length = args.length := by rw [paramNames.length, argNames.length]
  simp only [outputMoves, lengths, decide_true, Result.check, if_true, Result.ok_bind]
  rw [argNames.length, looped]
  simp [keeps.lines]

/-- What `output_moves` prints are the moves that are needed, each of them, and moves to
the scratch register. Without cycles there are only the former, in an order in which no
move reads what an earlier one has written. -/
theorem outputMoves_spec {params args : List Val} (paramNames : Names params n p)
    (argNames : Names args n a) (noScratch : ∀ i < n, p i ≠ rtmp0) :
    ∃ made : List (Nat × Nat), outputMoves params args = .ok (made.map mvLine) ∧
      Implements rtmp0 (pairs n p a) made := by
  obtain ⟨m, made, returned, keeps, done⟩ := outputMoves_keeps paramNames argNames noScratch
  have member {i : Nat} (moved : Made.move i ∈ made) : (p i, a i) ∈ pairs n p a :=
    mem_pairs.mpr ⟨i, keeps.index_lt moved, rfl⟩
  refine ⟨made.map (Made.pair p a), ?_, ?_, ?_, ?_, ?_⟩
  · rw [returned, List.map_map]
    rfl
  · intro x printed
    obtain ⟨step, listed, rfl⟩ := List.mem_map.mp printed
    cases step with
    | move i => exact Or.inl (member listed)
    | scratch i => exact Or.inr rfl
  · intro x listed differ
    obtain ⟨i, inside, rfl⟩ := mem_pairs.mp listed
    exact List.mem_map.mpr ⟨.move i, done i inside differ, rfl⟩
  · intro acyclic
    have none : ∀ j, Made.scratch j ∉ made := fun j rescued => keeps.loops j rescued acyclic
    refine ⟨fun x printed => ?_, keeps.order none⟩
    obtain ⟨step, listed, rfl⟩ := List.mem_map.mp printed
    cases step with
    | move i => exact member listed
    | scratch i => exact absurd listed (none i)
  · intro x listed
    obtain ⟨i, inside, rfl⟩ := mem_pairs.mp listed
    exact noScratch i inside

/-- What is printed at most once for every index, in two ways, is bounded by twice the
number of indices. -/
theorem length_le_of_once {made : List Made} (once : made.Nodup)
    (inside : ∀ x ∈ made, x.index < n) : made.length ≤ 2 * n := by
  have listed : made ⊆ (List.range n).map Made.move ++ (List.range n).map Made.scratch := by
    intro x printed
    have index := List.mem_range.mpr (inside x printed)
    cases x with
    | move i => exact List.mem_append_left _ (List.mem_map_of_mem index)
    | scratch i => exact List.mem_append_right _ (List.mem_map_of_mem index)
  calc made.length
      ≤ ((List.range n).map Made.move ++ (List.range n).map Made.scratch).length :=
        once.length_le_of_subset listed
    _ = 2 * n := by simp [Nat.two_mul]

end Moves

end Qbt.Asm
