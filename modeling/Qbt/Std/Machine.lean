import Mathlib.Data.List.Basic

/-!
# Deterministic machines and their traces

A machine either halts or takes a step that emits finitely many events. Runs are
bounded by a step count, so the statements about all counts cover diverging
executions as well. `LockstepWhile` compares two machines step by step;
`Machine.Macro` lets one step of the second machine stand for several steps of
the first.
-/

namespace Qbt

/-- A deterministic machine with states `σ` and events `ε`. -/
structure Machine (σ ε : Type) where
  step : σ → Option (List ε × σ)

namespace Machine

variable {σ τ ε : Type}

/-- At most `count` steps from `state`: the events emitted and the state reached. -/
def run (m : Machine σ ε) : Nat → σ → List ε × σ
  | 0, state => ([], state)
  | count + 1, state =>
    match m.step state with
    | none => ([], state)
    | some (events, next) => (events ++ (m.run count next).1, (m.run count next).2)

@[simp] theorem run_zero (m : Machine σ ε) (state : σ) : m.run 0 state = ([], state) := rfl

/-- A machine that has halted goes no further. -/
theorem run_halted {m : Machine σ ε} {state : σ} (halted : m.step state = none) (count : Nat) :
    m.run count state = ([], state) := by
  cases count with
  | zero => rfl
  | succ count => simp [run, halted]

/-- A run starts with a step. -/
theorem run_succ {m : Machine σ ε} {state next : σ} {events : List ε}
    (stepped : m.step state = some (events, next)) (count : Nat) :
    m.run (count + 1) state = (events ++ (m.run count next).1, (m.run count next).2) := by
  simp [run, stepped]

/-- Runs compose. -/
theorem run_add (m : Machine σ ε) (first second : Nat) (state : σ) :
    m.run (first + second) state =
      ((m.run first state).1 ++ (m.run second (m.run first state).2).1,
        (m.run second (m.run first state).2).2) := by
  induction first generalizing state with
  | zero => simp
  | succ first ih =>
    cases stepped : m.step state with
    | none => simp [run_halted stepped]
    | some result =>
      obtain ⟨events, next⟩ := result
      rw [Nat.add_right_comm, run_succ stepped, run_succ stepped, ih next]
      simp

/-- The events of a longer run extend those of a shorter one. -/
theorem run_mono (m : Machine σ ε) {shorter longer : Nat} (bounded : shorter ≤ longer)
    (state : σ) : (m.run shorter state).1 <+: (m.run longer state).1 := by
  obtain ⟨rest, rfl⟩ := Nat.exists_eq_add_of_le bounded
  rw [run_add]
  exact List.prefix_append _ _

/-- What holds of every event of a step holds of every event of a run. -/
theorem run_events {m : Machine σ ε} {P : ε → Prop}
    (stepped : ∀ {state events next}, m.step state = some (events, next) →
      ∀ event ∈ events, P event)
    (count : Nat) (state : σ) : ∀ event ∈ (m.run count state).1, P event := by
  induction count generalizing state with
  | zero => simp
  | succ count ih =>
    cases result : m.step state with
    | none => simp [run_halted result]
    | some result' =>
      obtain ⟨events, next⟩ := result'
      rw [run_succ result, List.forall_mem_append]
      exact ⟨stepped result, ih next⟩

/-- The machine emits `events` first, whatever it does afterwards. -/
def Performs (m : Machine σ ε) (state : σ) (events : List ε) : Prop :=
  ∃ count, events <+: (m.run count state).1

/-- The machine halts in `final`, having emitted exactly `events`. -/
def Halts (m : Machine σ ε) (state : σ) (events : List ε) (final : σ) : Prop :=
  ∃ count, m.run count state = (events, final) ∧ m.step final = none

/-- A relation under which two machines halt together and otherwise emit the same
events in every step that leaves a good state of the first. -/
structure LockstepWhile (good : σ → Prop) (first : Machine σ ε) (second : Machine τ ε)
    (related : σ → τ → Prop) : Prop where
  halts : ∀ {state other}, related state other →
    (first.step state = none ↔ second.step other = none)
  steps : ∀ {state other events next events' next'}, related state other → good state →
    first.step state = some (events, next) → second.step other = some (events', next') →
      events' = events ∧ related next next'

/-- Related states stay related along runs of equal length, which emit the same
events, as long as the first machine is in good states. -/
theorem LockstepWhile.run {good : σ → Prop} {first : Machine σ ε} {second : Machine τ ε}
    {related : σ → τ → Prop} (lockstep : LockstepWhile good first second related) {state : σ}
    {other : τ} (start : related state other) (count : Nat)
    (goods : ∀ k < count, good (first.run k state).2) :
    (second.run count other).1 = (first.run count state).1 ∧
      related (first.run count state).2 (second.run count other).2 := by
  induction count generalizing state other with
  | zero => exact ⟨rfl, start⟩
  | succ count ih =>
    cases stepped : first.step state with
    | none =>
      have halted := (lockstep.halts start).mp stepped
      rw [run_halted stepped, run_halted halted]
      exact ⟨rfl, start⟩
    | some result =>
      obtain ⟨events, next⟩ := result
      cases stepped' : second.step other with
      | none =>
        have halted := (lockstep.halts start).mpr stepped'
        rw [stepped] at halted
        cases halted
      | some result' =>
        obtain ⟨events', next'⟩ := result'
        obtain ⟨sameEvents, related'⟩ :=
          lockstep.steps start (goods 0 (Nat.succ_pos _)) stepped stepped'
        have goods' : ∀ k < count, good (first.run k next).2 := by
          intro k less
          have later := goods (k + 1) (Nat.succ_lt_succ less)
          rwa [run_succ stepped] at later
        rw [run_succ stepped, run_succ stepped']
        exact ⟨by rw [sameEvents, (ih related' goods').1], (ih related' goods').2⟩

/-- Two machines that keep up with each other from every state. -/
abbrev Lockstep (first : Machine σ ε) (second : Machine τ ε) (related : σ → τ → Prop) : Prop :=
  LockstepWhile (fun _ => True) first second related

/-- Related states stay related along runs of equal length, which emit the same
events. -/
theorem Lockstep.run {first : Machine σ ε} {second : Machine τ ε} {related : σ → τ → Prop}
    (lockstep : Lockstep first second related) {state : σ} {other : τ}
    (start : related state other) (count : Nat) :
    (second.run count other).1 = (first.run count state).1 ∧
      related (first.run count state).2 (second.run count other).2 :=
  LockstepWhile.run lockstep start count fun _ _ => trivial

/-- A relation under which every step of the second machine is matched by one or
more steps of the first that emit the same events. -/
structure Macro (first : Machine σ ε) (second : Machine τ ε) (related : σ → τ → Prop) :
    Prop where
  halts : ∀ {state other}, related state other →
    (first.step state = none ↔ second.step other = none)
  steps : ∀ {state other events next'}, related state other →
    second.step other = some (events, next') →
      ∃ extra next, first.run (extra + 1) state = (events, next) ∧ related next next'

/-- A run of the second machine is a run of the first that is at least as long,
unless it has halted. -/
theorem Macro.run {first : Machine σ ε} {second : Machine τ ε} {related : σ → τ → Prop}
    (simulation : Macro first second related) {state : σ} {other : τ}
    (start : related state other) (count : Nat) :
    ∃ long, (first.run long state).1 = (second.run count other).1 ∧
      related (first.run long state).2 (second.run count other).2 ∧
      (count ≤ long ∨ first.step (first.run long state).2 = none) := by
  induction count generalizing state other with
  | zero => exact ⟨0, rfl, start, Or.inl (Nat.le_refl 0)⟩
  | succ count ih =>
    cases stepped : second.step other with
    | none =>
      have halted := (simulation.halts start).mpr stepped
      rw [run_halted stepped]
      exact ⟨0, rfl, start, Or.inr halted⟩
    | some result =>
      obtain ⟨events, next'⟩ := result
      obtain ⟨extra, next, ran, related'⟩ := simulation.steps start stepped
      obtain ⟨long, sameEvents, relatedEnd, progress⟩ := ih related'
      refine ⟨extra + 1 + long, ?_, ?_, ?_⟩
      · rw [run_add, run_succ stepped, ran, sameEvents]
      · rw [run_add, run_succ stepped, ran]
        exact relatedEnd
      · rw [run_add, ran]
        rcases progress with bounded | halted
        · exact Or.inl (by omega)
        · exact Or.inr halted

/-- Machines related by a macro-step simulation perform the same events. -/
theorem Macro.performs_iff {first : Machine σ ε} {second : Machine τ ε}
    {related : σ → τ → Prop} (simulation : Macro first second related) {state : σ} {other : τ}
    (start : related state other) (events : List ε) :
    first.Performs state events ↔ second.Performs other events := by
  constructor
  · rintro ⟨count, performed⟩
    obtain ⟨long, sameEvents, _, progress⟩ := simulation.run start count
    refine ⟨count, performed.trans ?_⟩
    rw [← sameEvents]
    rcases progress with bounded | halted
    · exact first.run_mono bounded state
    · -- The first machine has halted, so its longer runs emit nothing more.
      rcases Nat.le_total count long with bounded | bounded
      · exact first.run_mono bounded state
      · obtain ⟨rest, rfl⟩ := Nat.exists_eq_add_of_le bounded
        rw [run_add, run_halted halted]
        simp
  · rintro ⟨count, performed⟩
    obtain ⟨long, sameEvents, _⟩ := simulation.run start count
    exact ⟨long, by rwa [sameEvents]⟩

/-- Where the first machine halts, the second halts in a related state, after the
same events. -/
theorem Macro.halts_of_first {first : Machine σ ε} {second : Machine τ ε}
    {related : σ → τ → Prop} (simulation : Macro first second related) {state final : σ}
    {other : τ} (start : related state other) {events : List ε}
    (halted : first.Halts state events final) :
    ∃ final', second.Halts other events final' ∧ related final final' := by
  obtain ⟨count, ran, stopped⟩ := halted
  obtain ⟨long, sameEvents, relatedEnd, progress⟩ := simulation.run start count
  -- By now the first machine has reached its final state.
  have ended : first.run long state = (events, final) := by
    rcases Nat.le_total count long with bounded | bounded
    · obtain ⟨rest, rfl⟩ := Nat.exists_eq_add_of_le bounded
      rw [run_add, ran, run_halted stopped]
      simp
    · obtain ⟨rest, rfl⟩ := Nat.exists_eq_add_of_le bounded
      rcases progress with long' | early
      · have none : rest = 0 := by omega
        subst none
        exact ran
      · rw [run_add, run_halted early] at ran
        simpa [Prod.ext_iff] using ran
  rw [ended] at sameEvents relatedEnd
  exact ⟨_, ⟨count, Prod.ext sameEvents.symm rfl, (simulation.halts relatedEnd).mp stopped⟩,
    relatedEnd⟩

/-- Where the second machine halts, the first halts in a related state, after the
same events. -/
theorem Macro.halts_of_second {first : Machine σ ε} {second : Machine τ ε}
    {related : σ → τ → Prop} (simulation : Macro first second related) {state : σ}
    {other final' : τ} (start : related state other) {events : List ε}
    (halted : second.Halts other events final') :
    ∃ final, first.Halts state events final ∧ related final final' := by
  obtain ⟨count, ran, stopped⟩ := halted
  obtain ⟨long, sameEvents, relatedEnd, _⟩ := simulation.run start count
  rw [ran] at sameEvents relatedEnd
  exact ⟨_, ⟨long, Prod.ext sameEvents rfl, (simulation.halts relatedEnd).mpr stopped⟩,
    relatedEnd⟩

/-- The machine that shows only some of the events. -/
def filter (m : Machine σ ε) (shown : ε → Bool) : Machine σ ε where
  step state := (m.step state).map fun result => (result.1.filter shown, result.2)

theorem filter_step_eq_none {m : Machine σ ε} {shown : ε → Bool} {state : σ} :
    (m.filter shown).step state = none ↔ m.step state = none := by
  simp [filter]

theorem filter_step {m : Machine σ ε} {shown : ε → Bool} {state next : σ} {events : List ε}
    (stepped : m.step state = some (events, next)) :
    (m.filter shown).step state = some (events.filter shown, next) := by
  simp [filter, stepped]

/-- It goes the same way. -/
theorem run_filter (m : Machine σ ε) (shown : ε → Bool) (count : Nat) (state : σ) :
    (m.filter shown).run count state =
      ((m.run count state).1.filter shown, (m.run count state).2) := by
  induction count generalizing state with
  | zero => rfl
  | succ count ih =>
    cases stepped : m.step state with
    | none => rw [run_halted stepped, run_halted (filter_step_eq_none.mpr stepped), List.filter_nil]
    | some result =>
      obtain ⟨events, next⟩ := result
      rw [run_succ stepped, run_succ (filter_step stepped), ih, List.filter_append]

/-- The machine that shows the events as others, or not at all. -/
def project {δ : Type} (m : Machine σ ε) (shown : ε → Option δ) : Machine σ δ where
  step state := (m.step state).map fun result => (result.1.filterMap shown, result.2)

section Project

variable {δ : Type} {m : Machine σ ε} {shown : ε → Option δ} {state next : σ} {events : List ε}

theorem project_step_eq_none : (m.project shown).step state = none ↔ m.step state = none := by
  simp [project]

theorem project_step (stepped : m.step state = some (events, next)) :
    (m.project shown).step state = some (events.filterMap shown, next) := by
  simp [project, stepped]

/-- It goes the same way. -/
theorem run_project (m : Machine σ ε) (shown : ε → Option δ) (count : Nat) (state : σ) :
    (m.project shown).run count state =
      ((m.run count state).1.filterMap shown, (m.run count state).2) := by
  induction count generalizing state with
  | zero => rfl
  | succ count ih =>
    cases stepped : m.step state with
    | none =>
      rw [run_halted stepped, run_halted (project_step_eq_none.mpr stepped), List.filterMap_nil]
    | some result =>
      obtain ⟨events, next⟩ := result
      rw [run_succ stepped, run_succ (project_step stepped), ih, List.filterMap_append]

/-- A machine that shows events as others halts where it halts when it shows them. -/
theorem halts_project_iff {final : σ} {shows : List δ} :
    (m.project shown).Halts state shows final ↔
      ∃ events, m.Halts state events final ∧ events.filterMap shown = shows := by
  simp only [Halts, run_project, project_step_eq_none, Prod.mk.injEq]
  constructor
  · rintro ⟨count, ⟨rfl, rfl⟩, stopped⟩
    exact ⟨_, ⟨count, rfl, stopped⟩, rfl⟩
  · rintro ⟨_, ⟨count, ran, stopped⟩, rfl⟩
    exact ⟨count, by rw [ran]; exact ⟨rfl, rfl⟩, stopped⟩

/-- Machines that perform the same events show the same of them. -/
theorem performs_project_iff {m' : Machine τ ε} {state' : τ}
    (same : ∀ events, m.Performs state events ↔ m'.Performs state' events)
    (shown : ε → Option δ) (shows : List δ) :
    (m.project shown).Performs state shows ↔ (m'.project shown).Performs state' shows := by
  simp only [Performs, run_project]
  constructor
  · rintro ⟨count, performed⟩
    obtain ⟨other, more⟩ := (same _).mp ⟨count, List.prefix_rfl⟩
    exact ⟨other, performed.trans (more.filterMap shown)⟩
  · rintro ⟨count, performed⟩
    obtain ⟨other, more⟩ := (same _).mpr ⟨count, List.prefix_rfl⟩
    exact ⟨other, performed.trans (more.filterMap shown)⟩

end Project

/-- A machine that forgets a part of the states of another, which makes no difference to what
either does. -/
structure Forgets (first : Machine σ ε) (second : Machine τ ε) (forget : σ → τ) : Prop where
  steps : ∀ state, second.step (forget state) = (first.step state).map (Prod.map id forget)

section Forgets

variable {first : Machine σ ε} {second : Machine τ ε} {forget : σ → τ}

/-- Runs correspond step by step. -/
theorem Forgets.run (forgets : Forgets first second forget) (count : Nat) (state : σ) :
    second.run count (forget state) = Prod.map id forget (first.run count state) := by
  induction count generalizing state with
  | zero => rfl
  | succ count ih =>
    have steps := forgets.steps state
    cases stepped : first.step state with
    | none =>
      rw [stepped] at steps
      rw [run_halted stepped, run_halted steps]
      rfl
    | some result =>
      rw [stepped] at steps
      rw [run_succ stepped, run_succ steps, ih]
      rfl

/-- Forgetting does not change what is performed. -/
theorem Forgets.performs_iff (forgets : Forgets first second forget) {state : σ}
    (events : List ε) : second.Performs (forget state) events ↔ first.Performs state events :=
  exists_congr fun count => by rw [forgets.run]; rfl

/-- Forgetting does not change whether the machine halts. -/
theorem Forgets.halts_iff (forgets : Forgets first second forget) {state : σ} {events : List ε}
    {final : τ} : second.Halts (forget state) events final ↔
      ∃ final', first.Halts state events final' ∧ forget final' = final := by
  have stops (final' : σ) : second.step (forget final') = none ↔ first.step final' = none := by
    rw [forgets.steps, Option.map_eq_none_iff]
  constructor
  · rintro ⟨count, ran, stopped⟩
    rw [forgets.run] at ran
    obtain ⟨sameEvents, rfl⟩ := Prod.ext_iff.mp ran
    exact ⟨_, ⟨count, Prod.ext sameEvents rfl, (stops _).mp stopped⟩, rfl⟩
  · rintro ⟨final', ⟨count, ran, stopped⟩, rfl⟩
    exact ⟨count, by rw [forgets.run, ran]; rfl, (stops _).mpr stopped⟩

end Forgets

/-- The machine goes from one state to another and emits `events` on its way. -/
def Goes (m : Machine σ ε) (state : σ) (events : List ε) (next : σ) : Prop :=
  ∃ count, m.run count state = (events, next)

section Goes

variable {m : Machine σ ε} {state middle next : σ} {events events' : List ε}

theorem Goes.refl (m : Machine σ ε) (state : σ) : m.Goes state [] state := ⟨0, rfl⟩

theorem Goes.step (stepped : m.step state = some (events, next)) : m.Goes state events next :=
  ⟨1, by rw [run_succ stepped, run_zero, List.append_nil]⟩

/-- Going on from where a machine has gone to. -/
theorem Goes.trans (first : m.Goes state events middle) (second : m.Goes middle events' next) :
    m.Goes state (events ++ events') next := by
  obtain ⟨count, ran⟩ := first
  obtain ⟨count', ran'⟩ := second
  exact ⟨count + count', by rw [run_add, ran, ran']⟩

/-- A path behind a first step takes one step at least. -/
theorem Goes.behind (stepped : m.step state = some ([], middle))
    (goes : m.Goes middle events next) : ∃ extra, m.run (extra + 1) state = (events, next) := by
  obtain ⟨count, ran⟩ := goes
  exact ⟨count, by rw [run_succ stepped, ran, List.nil_append]⟩

/-- What is emitted on a silent path and behind it is emitted behind it. -/
theorem Goes.performs_iff (goes : m.Goes state [] next) (events : List ε) :
    m.Performs state events ↔ m.Performs next events := by
  obtain ⟨count, ran⟩ := goes
  have behind (more : Nat) : (m.run (count + more) state).1 = (m.run more next).1 := by
    rw [run_add, ran, List.nil_append]
  constructor
  · rintro ⟨more, performed⟩
    refine ⟨more, performed.trans ?_⟩
    rw [← behind more]
    exact m.run_mono (Nat.le_add_left _ _) state
  · rintro ⟨more, performed⟩
    exact ⟨count + more, by rwa [behind]⟩

/-- A machine halts behind a silent path where it halts from its start. -/
theorem Goes.halts_iff (goes : m.Goes state [] next) {final : σ} :
    m.Halts state events final ↔ m.Halts next events final := by
  obtain ⟨count, ran⟩ := goes
  have behind (more : Nat) : m.run (count + more) state = m.run more next := by
    rw [run_add, ran, List.nil_append]
  constructor
  · rintro ⟨more, ended, stopped⟩
    refine ⟨more, ?_, stopped⟩
    rw [← behind more, Nat.add_comm, run_add, ended, run_halted stopped, List.append_nil]
  · rintro ⟨more, ended, stopped⟩
    exact ⟨count + more, by rw [behind, ended], stopped⟩

end Goes

end Machine
end Qbt
