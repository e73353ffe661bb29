import Mathlib.Data.Set.Basic

/-!
# Interference

Places of straight-line code are to be put in colours. A line interferes with the places that are
live behind it and that it does not write itself, unless it only copies their value. Where no two
places that interfere have one colour, the coloured code computes what the original computes.
-/

namespace Qbt.Interference

/-- What a line reads, the place it writes, and the place whose value it copies there. -/
structure Line (α : Type) where
  reads : Set α
  write : Option α
  copied : Option α

variable {α β W : Type}

/-- The places that are live in front of a line. -/
def Line.liveBefore (n : Line α) (live : Set α) : Set α := n.reads ∪ { v ∈ live | n.write ≠ some v }

/-- The places that are live in front of some lines, where `out` are live behind them. -/
def live (lines : List (Line α)) (out : Set α) : Set α := lines.foldr Line.liveBefore out

@[simp] theorem live_nil (out : Set α) : live [] out = out := rfl

@[simp] theorem live_cons (n : Line α) (rest : List (Line α)) (out : Set α) :
    live (n :: rest) out = n.liveBefore (live rest out) := rfl

theorem mem_live_cons {n : Line α} {rest : List (Line α)} {out : Set α} {v : α} :
    v ∈ live (n :: rest) out ↔ v ∈ n.reads ∨ (v ∈ live rest out ∧ n.write ≠ some v) := Iff.rfl

/-- What is live is read, or live at the end. -/
theorem read_of_live {lines : List (Line α)} {out : Set α} {v : α} (member : v ∈ live lines out) :
    (∃ n ∈ lines, v ∈ n.reads) ∨ v ∈ out := by
  induction lines with
  | nil => exact Or.inr member
  | cons n rest ih =>
    rcases mem_live_cons.mp member with read | ⟨later, -⟩
    · exact Or.inl ⟨n, List.mem_cons_self, read⟩
    · exact (ih later).imp (fun ⟨m, listed, read⟩ => ⟨m, List.mem_cons_of_mem _ listed, read⟩) id

/-- What is live in front of some lines is not written in them before it is read. -/
theorem not_written_of_live {lines : List (Line α)} {out : Set α} {v : α}
    (member : v ∈ live lines out) : (∃ before n after, lines = before ++ n :: after ∧
      v ∈ n.reads ∧ ∀ m ∈ before, m.write ≠ some v) ∨
        (v ∈ out ∧ ∀ m ∈ lines, m.write ≠ some v) := by
  induction lines with
  | nil => exact Or.inr ⟨member, by simp⟩
  | cons n rest ih =>
    rcases mem_live_cons.mp member with read | ⟨later, unwritten⟩
    · exact Or.inl ⟨[], n, rest, rfl, read, by simp⟩
    · rcases ih later with ⟨before, m, after, rfl, read, others⟩ | ⟨atEnd, others⟩
      · exact Or.inl ⟨n :: before, m, after, rfl, read,
          List.forall_mem_cons.mpr ⟨unwritten, others⟩⟩
      · exact Or.inr ⟨atEnd, List.forall_mem_cons.mpr ⟨unwritten, others⟩⟩

/-- What is not written stays live. -/
theorem live_of_unwritten {lines : List (Line α)} {out : Set α} {v : α} (member : v ∈ out)
    (unwritten : ∀ n ∈ lines, n.write ≠ some v) : v ∈ live lines out := by
  induction lines with
  | nil => exact member
  | cons n rest ih =>
    rw [List.forall_mem_cons] at unwritten
    exact mem_live_cons.mpr (Or.inr ⟨ih unwritten.2, unwritten.1⟩)

/-- A line writes `w` while `v` is live behind it. -/
def Interferes (lines : List (Line α)) (out : Set α) (v w : α) : Prop :=
  ∃ before n after, lines = before ++ n :: after ∧ n.write = some w ∧ v ∈ live after out ∧
    v ≠ w ∧ n.copied ≠ some v

/-- Nothing interferes with itself. -/
theorem Interferes.differ {lines : List (Line α)} {out : Set α} {v w : α}
    (interferes : Interferes lines out v w) : v ≠ w := by
  obtain ⟨_, _, _, _, _, _, differ, _⟩ := interferes
  exact differ

theorem not_interferes_nil {out : Set α} {v w : α} : ¬ Interferes [] out v w := by
  rintro ⟨before, n, after, split, -⟩
  simp at split

/-- Interference of the first line, or of the others. -/
theorem interferes_cons {n : Line α} {rest : List (Line α)} {out : Set α} {v w : α} :
    Interferes (n :: rest) out v w ↔ (n.write = some w ∧ v ∈ live rest out ∧ v ≠ w ∧
      n.copied ≠ some v) ∨ Interferes rest out v w := by
  constructor
  · rintro ⟨before, m, after, split, found⟩
    rcases List.cons_eq_append_iff.mp split with ⟨rfl, same⟩ | ⟨before', rfl, rfl⟩
    · obtain ⟨rfl, rfl⟩ := List.cons.inj same
      exact Or.inl found
    · exact Or.inr ⟨before', m, after, rfl, found⟩
  · rintro (found | ⟨before, m, after, rfl, found⟩)
    · exact ⟨[], n, rest, rfl, found⟩
    · exact ⟨n :: before, m, after, rfl, found⟩

theorem Interferes.tail {n : Line α} {rest : List (Line α)} {out : Set α} {v w : α}
    (interferes : Interferes rest out v w) : Interferes (n :: rest) out v w :=
  interferes_cons.mpr (Or.inr interferes)

/-- No two places that interfere have one colour. -/
def Coloured (colour : α → β) (lines : List (Line α)) (out : Set α) : Prop :=
  ∀ v w, Interferes lines out v w → colour v ≠ colour w

theorem Coloured.tail {colour : α → β} {n : Line α} {rest : List (Line α)} {out : Set α}
    (coloured : Coloured colour (n :: rest) out) : Coloured colour rest out :=
  fun v w interferes => coloured v w interferes.tail

/-- Every place of a set has the value of its colour. -/
def Agree (colour : α → β) (places : Set α) (state : α → W) (state' : β → W) : Prop :=
  ∀ v ∈ places, state' (colour v) = state v

/-- A write of one value on both sides. -/
structure Writes (colour : α → β) (n : Line α) (w : W) (state next : α → W) (state' next' : β → W) :
    Prop where
  place : ∀ v, n.write = some v → next v = w ∧ next' (colour v) = w
  others : ∀ v, n.write ≠ some v → next v = state v
  others' : ∀ x, (∀ v, n.write = some v → colour v ≠ x) → next' x = state' x
  copied : ∀ v, n.copied = some v → w = state v

/-- A line keeps the values of the places that are live. -/
theorem Agree.step {colour : α → β} {n : Line α} {rest : List (Line α)} {out : Set α} {w : W}
    {state next : α → W} {state' next' : β → W}
    (agree : Agree colour (live (n :: rest) out) state state')
    (coloured : Coloured colour (n :: rest) out)
    (writes : Writes colour n w state next state' next') :
    Agree colour (live rest out) next next' := by
  intro v member
  by_cases written : n.write = some v
  · rw [(writes.place v written).1, (writes.place v written).2]
  · have before : state' (colour v) = state v := agree v (Or.inr ⟨member, written⟩)
    rw [writes.others v written]
    by_cases shared : ∃ u, n.write = some u ∧ colour u = colour v
    · obtain ⟨u, place, same⟩ := shared
      have differ : v ≠ u := fun equal => written (equal ▸ place)
      -- Only a copy of `v` may share the colour.
      have copied : n.copied = some v := by
        by_contra other
        exact coloured v u ⟨[], n, rest, rfl, place, member, differ, other⟩ same.symm
      rw [← same, (writes.place u place).2, writes.copied v copied]
    · rw [writes.others' _ fun u place same => shared ⟨u, place, same⟩, before]

private theorem coloured_nil (colour : α → β) (out : Set α) : Coloured colour [] out :=
  fun _ _ interferes => absurd interferes not_interferes_nil

/-- A line keeps the colours of the places that are live behind it. -/
def Line.Clear (colour : α → β) (n : Line α) (live : Set α) : Prop :=
  ∀ w, n.write = some w → ∀ v ∈ live, v ≠ w → n.copied ≠ some v → colour v ≠ colour w

private theorem coloured_cons {colour : α → β} {n : Line α} {rest : List (Line α)} {out : Set α} :
    Coloured colour (n :: rest) out ↔
      n.Clear colour (live rest out) ∧ Coloured colour rest out := by
  constructor
  · exact fun coloured => ⟨fun w write v member differ other =>
      coloured v w (interferes_cons.mpr (Or.inl ⟨write, member, differ, other⟩)), coloured.tail⟩
  · rintro ⟨clear, rest⟩ v w interferes
    rcases interferes_cons.mp interferes with ⟨write, member, differ, other⟩ | later
    · exact clear w write v member differ other
    · exact rest v w later

/-- Less is live where less is live behind the lines. -/
theorem live_mono {out out' : Set α} (lines : List (Line α)) (subset : out' ⊆ out) :
    live lines out' ⊆ live lines out := by
  induction lines with
  | nil => exact subset
  | cons n rest ih =>
    rintro v (read | ⟨later, unwritten⟩)
    · exact Or.inl read
    · exact Or.inr ⟨ih later, unwritten⟩

/-- With less live behind the lines a colouring stays one. -/
theorem Coloured.mono {colour : α → β} {lines : List (Line α)} {out out' : Set α}
    (coloured : Coloured colour lines out) (subset : out' ⊆ out) : Coloured colour lines out' := by
  rintro v w ⟨before, n, after, split, write, member, differ⟩
  exact coloured v w ⟨before, n, after, split, write, live_mono after subset member, differ⟩

section Scan

variable [DecidableEq α] [DecidableEq β]

/-- A line whose reads are listed. -/
structure Listed (α : Type) where
  reads : List α
  write : Option α
  copied : Option α

/-- The line. -/
def Listed.line (n : Listed α) : Line α where
  reads := { v | v ∈ n.reads }
  write := n.write
  copied := n.copied

/-- A line writes no colour of a place that is live behind it. -/
def Listed.clear (colour : α → β) (n : Listed α) (live : List α) : Bool :=
  match n.write with
  | none => true
  | some w => live.all fun v => v = w || n.copied = some v || colour v ≠ colour w

/-- Go through lines from the last one to the first with what is live, as long as no colour is
written that is needed. -/
def scan (colour : α → β) (out : List α) : List (Listed α) → Option (List α)
  | [] => some out
  | n :: rest => do
    let behind ← scan colour out rest
    if n.clear colour behind then
      some (n.reads ++ behind.filter fun v => n.write ≠ some v)
    else none

private theorem Listed.clear_iff (colour : α → β) {n : Listed α} {behind : List α} {live : Set α}
    (same : ∀ v, v ∈ behind ↔ v ∈ live) :
    n.clear colour behind = true ↔ n.line.Clear colour live := by
  unfold clear Line.Clear Listed.line
  cases n.write with
  | none => simp
  | some w =>
    simp only [List.all_eq_true, Bool.or_eq_true, decide_eq_true_eq, same, Option.some.injEq]
    constructor
    · rintro all w' rfl v member differ other
      exact ((all v member).resolve_left fun either => either.elim differ other)
    · intro clear v member
      by_cases either : v = w ∨ n.copied = some v
      · exact Or.inl either
      · rw [not_or] at either
        exact Or.inr (clear w rfl v member either.1 either.2)

/-- A scan goes through exactly if the lines are coloured, and then it knows what is live. -/
theorem scan_coloured_iff (colour : α → β) {out : List α} {places : Set α}
    (same : ∀ v, v ∈ out ↔ v ∈ places) (lines : List (Listed α)) :
    ((scan colour out lines).isSome ↔ Coloured colour (lines.map Listed.line) places) ∧
      ∀ found, scan colour out lines = some found →
        ∀ v, v ∈ found ↔ v ∈ live (lines.map Listed.line) places := by
  induction lines with
  | nil =>
    refine ⟨by simpa [scan] using coloured_nil colour places, fun found scanned v => ?_⟩
    obtain rfl := Option.some.inj scanned
    exact same v
  | cons n rest ih =>
    rw [List.map_cons, coloured_cons, ← ih.1, scan]
    cases scanned : scan colour out rest with
    | none => simp
    | some behind =>
      have clear := Listed.clear_iff colour (n := n) (ih.2 behind scanned)
      rw [Option.bind_eq_bind, Option.bind_some, ← clear]
      by_cases passes : n.clear colour behind
      · rw [if_pos passes]
        refine ⟨by simp [passes], fun found scanned' v => ?_⟩
        obtain rfl := Option.some.inj scanned'
        rw [List.mem_append, List.mem_filter, ih.2 behind scanned, mem_live_cons]
        simp [Listed.line]
      · rw [if_neg passes]
        simp [passes]

end Scan

end Qbt.Interference
