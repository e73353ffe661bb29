import Qbt.Asm.Execution

/-!
# The calling convention

What a caller may rely on is a contract: what the routine at an address may make of the arguments it
is passed and of the world. A contract need not say what is in the registers in which nothing is
returned, nor what is in the memory below the stack pointer, and it may allow anything where a
routine is not passed all it reads. A routine that keeps the convention comes back, with what the
contract allows. What it really leaves may differ from call to call, so a run with such a routine is
a run with one callee for each call.
-/

namespace Qbt.Asm

open Abi Regalloc

variable {T U : Type}

/-- What the routine at an address may make of the arguments and of the world: the results, and the
world behind the call. -/
abbrev Contract (T U : Type) :=
  Int → (Nat → Option Int) → World T U → (Nat → Int) × World T U → Prop

/-- A callee does what a contract allows, whatever it is passed, with a stack below `low`. -/
def Contract.Permits (contract : Contract T U) (low : Int) (call : Callee Int (World T U)) : Prop :=
  ∀ target args world, world.sp ≤ low → contract target args world (call target args world)

/-- What the caller finds behind a call, from its frame between `low` and `high`. The frame is not a
part of the world. -/
def leaves (low high : Int) (world : World T U) (s : MachineState T) (u : U) :
    (Nat → Int) × World T U :=
  (fun k => s.read (ra k),
    { sp := s.read rsp
      mem := fun i => if low ≤ i ∧ i < high then world.mem i else s.mem i
      outside := u })

/-- A routine keeps the convention for callers with a frame between `low` and `high` and the stack
pointer below it: it gives back the registers it has to keep and the frame, and it does what the
contract allows of a call whose arguments it finds in the argument registers. -/
def Conforms (low high : Int) (contract : Contract T U) (routine : Routine T U) : Prop :=
  ∀ (target : Int) (args : Nat → Option Int) (world : World T U) (s : MachineState T) (u : U),
    Finds args s → world.sp ≤ low → SameWorld low high world s u →
      ComesBack low high s (routine target s u).1 ∧
        contract target args world
          (leaves low high world (routine target s u).1 (routine target s u).2)

/-- Callees that take turns. How often something has been called is a part of the world. -/
def inTurn (calls : Nat → Callee Int (World T U)) : Callee Int (World T (U × Nat)) :=
  fun target args world =>
    let called := calls world.outside.2 target args ⟨world.sp, world.mem, world.outside.1⟩
    (called.1, ⟨called.2.sp, called.2.mem, called.2.outside, world.outside.2 + 1⟩)

/-- A routine that counts its calls. -/
def counted (routine : Routine T U) : Routine T (U × Nat) := fun target s u =>
  ((routine target s u.1).1, (routine target s u.1).2, u.2 + 1)

/-- The count is forgotten. -/
def Running.forget (running : Running T (U × Nat)) : Running T U :=
  ⟨running.lines, running.state, running.outside.1⟩

section Counting

variable {E : Encoding T} {symbols : String → Int} {routine : Routine T U} {text : List Line}
  {start : Running T (U × Nat)} {target target' : Int} {s s' : MachineState T} {u u' : U} {n : Nat}

variable (E symbols routine text) in
/-- Counting makes no difference. -/
theorem lineMachine_forgets : Machine.Forgets (lineMachine E symbols (counted routine) text)
    (lineMachine E symbols routine text) Running.forget where
  steps running := by
    obtain ⟨lines, s, u⟩ := running
    cases lines with
    | nil => rfl
    | cons line rest =>
      cases line with
      | branch cond left right id =>
        simp only [lineMachine, stepLine, Running.forget]
        split <;> rfl
      | _ => rfl

/-- A step does not count backwards. -/
private theorem count_step {running next : Running T (U × Nat)} {events : List Visible}
    (stepped : (lineMachine E symbols (counted routine) text).step running = some (events, next)) :
    running.outside.2 ≤ next.outside.2 := by
  obtain ⟨lines, s, u⟩ := running
  cases lines with
  | nil => cases stepped
  | cons line rest =>
    cases line with
    | branch cond left right id =>
      simp only [lineMachine, stepLine] at stepped
      split at stepped <;> cases stepped <;> exact Nat.le_refl _
    | ret => cases stepped
    | call | jalr =>
      cases stepped
      exact Nat.le_succ _
    | _ =>
      cases stepped
      exact Nat.le_refl _

variable (E symbols routine text) in
private theorem count_run (count : Nat) (running : Running T (U × Nat)) : running.outside.2 ≤
    ((lineMachine E symbols (counted routine) text).run count running).2.outside.2 := by
  induction count generalizing running with
  | zero => exact Nat.le_refl _
  | succ count ih =>
    cases stepped : (lineMachine E symbols (counted routine) text).step running with
    | none =>
      rw [Machine.run_halted stepped]
    | some result =>
      rw [Machine.run_succ stepped]
      exact (count_step stepped).trans (ih _)

/-- What is behind a call is counted higher. -/
private theorem count_behind {count : Nat} {events : List Visible} {lines rest : List Line}
    (ran : (lineMachine E symbols (counted routine) text).run count start =
      (events, ⟨lines, s, (u, n)⟩))
    (stepped : (lineMachine E symbols (counted routine) text).step ⟨lines, s, (u, n)⟩ =
      some (Running.called (counted routine) target rest ⟨lines, s, (u, n)⟩))
    (extra : Nat) : n < ((lineMachine E symbols (counted routine) text).run (count + (extra + 1))
      start).2.outside.2 := by
  rw [Machine.run_add, ran, Machine.run_succ stepped]
  have grows := count_run E symbols routine text extra
    (Running.called (counted routine) target rest ⟨lines, s, (u, n)⟩).2
  exact grows

/-- There is one call for each count. -/
private theorem calledFrom_unique
    (called : CalledFrom E symbols (counted routine) text start target s (u, n))
    (called' : CalledFrom E symbols (counted routine) text start target' s' (u', n)) :
    s = s' ∧ u = u' := by
  obtain ⟨_, lines, rest, ⟨count, ran⟩, stepped⟩ := called
  obtain ⟨_, lines', rest', ⟨count', ran'⟩, stepped'⟩ := called'
  rcases Nat.lt_trichotomy count count' with less | rfl | greater
  · obtain ⟨extra, rfl⟩ := Nat.exists_eq_add_of_lt less
    have higher := count_behind ran stepped extra
    rw [← Nat.add_assoc, ran'] at higher
    exact absurd higher (Nat.lt_irrefl n)
  · rw [ran, Prod.mk.injEq, Running.mk.injEq, Prod.mk.injEq] at ran'
    exact ⟨ran'.2.2.1, ran'.2.2.2.1⟩
  · obtain ⟨extra, rfl⟩ := Nat.exists_eq_add_of_lt greater
    have higher := count_behind ran' stepped' extra
    rw [← Nat.add_assoc, ran] at higher
    exact absurd higher (Nat.lt_irrefl n)

end Counting

section Conforms

variable {low high : Int} {contract : Contract T U} {routine : Routine T U}

/-- A contract that a routine keeps allows something of every call. -/
theorem Conforms.exists_outcome (conforms : Conforms low high contract routine) (target : Int)
    (args : Nat → Option Int) (world : World T U) (below : world.sp ≤ low) :
    ∃ outcome, contract target args world outcome := by
  -- It may be called with the arguments in their registers and with the memory of the world.
  let s : MachineState T := {
    regs := afterCall (fun k => (args k).getD 0) fun _ => world.sp
    mem := world.mem }
  have sp : s.read rsp = world.sp := rfl
  refine ⟨_, (conforms target args world s world.outside (fun k inside w passed => ?_)
    below ⟨sp, fun _ _ => rfl, rfl⟩).2⟩
  have real : ra k ≠ rx0 := (special_of_listed (arMap_subset (ra_mem inside))).1
  have found : s.regs (ra k) = (args k).getD 0 :=
    afterCall_ra (fun k => (args k).getD 0) (fun _ => world.sp) inside
  rw [MachineState.read, if_neg real, found, passed, Option.getD_some]

/-- A routine that keeps the convention does exactly what some callees do that take turns, each of
which does what the contract allows. -/
theorem Conforms.exists_inTurn (conforms : Conforms low high contract routine) (E : Encoding T)
    (symbols : String → Int) (text : List Line) (start : Running T (U × Nat)) :
    ∃ calls : Nat → Callee Int (World T U), (∀ n, contract.Permits low (calls n)) ∧
      Serves (CalledFrom E symbols (counted routine) text start) low high (inTurn calls)
        (counted routine) := by
  classical
  -- What the routine leaves behind the call that is counted, if there is one.
  have answered (n : Nat) (target : Int) (args : Nat → Option Int) (world : World T U) :
      ∃ outcome, (world.sp ≤ low → contract target args world outcome) ∧ ∀ s u,
        CalledFrom E symbols (counted routine) text start target s (u, n) → Finds args s →
          world.sp ≤ low → SameWorld low high world s u →
            outcome = leaves low high world (routine target s u).1 (routine target s u).2 := by
    by_cases called : ∃ s u, CalledFrom E symbols (counted routine) text start target s (u, n) ∧
        Finds args s ∧ SameWorld low high world s u
    · obtain ⟨s, u, called, finds, same⟩ := called
      refine ⟨_, fun below => (conforms target args world s u finds below same).2,
        fun s' u' called' _ _ _ => ?_⟩
      obtain ⟨rfl, rfl⟩ := calledFrom_unique called called'
      rfl
    by_cases below : world.sp ≤ low
    · obtain ⟨outcome, allowed⟩ := conforms.exists_outcome target args world below
      exact ⟨outcome, fun _ => allowed, fun s u called' finds _ same =>
        absurd ⟨s, u, called', finds, same⟩ called⟩
    · exact ⟨(fun _ => 0, world), fun inside => absurd inside below,
        fun _ _ _ _ inside _ => absurd inside below⟩
  choose calls allowed exact using answered
  refine ⟨calls, allowed, fun target args world s u called finds below same => ?_⟩
  have same' : SameWorld low high ⟨world.sp, world.mem, world.outside.1⟩ s u.1 :=
    ⟨same.sp, same.mem, congrArg Prod.fst same.outside⟩
  have turn : u.2 = world.outside.2 := congrArg Prod.snd same.outside
  have outcome := exact u.2 target args ⟨world.sp, world.mem, world.outside.1⟩ s u.1 called finds
    below same'
  have back := (conforms target args _ s u.1 finds below same').1
  simp only [inTurn, ← turn, outcome]
  exact {
    results := fun _ _ => rfl
    back := back
    world := {
      sp := rfl
      mem := fun i beside => by
        rw [leaves]
        refine (if_neg ?_).symm
        rcases beside with below | above <;> omega
      outside := rfl } }

end Conforms

end Qbt.Asm
