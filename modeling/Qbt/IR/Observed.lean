import Qbt.IR.Semantics

/-!
# What is observed of runs

What is shown does not change how a function executes: with fewer instructions shown a run shows
some of the same events. And the last thing that a run shows in which the function returns is the
return.
-/

namespace Qbt

/-- The event of an instruction of a shown type, and every event that is none of an instruction. -/
def Event.shown {W : Type} (visible : InsnType → Bool) : Event W → Bool
  | .insn type _ _ _ _ => visible type
  | _ => true

namespace Semantics

variable {W M : Type} {S : Semantics W M} {visible : InsnType → Bool}

private theorem perform_shown (insns : List Insn) (state : State W M) :
    (S.interp visible).perform insns state =
      (((S.interp fun _ => true).perform insns state).1.filter (Event.shown visible),
        ((S.interp fun _ => true).perform insns state).2) := by
  induction insns generalizing state with
  | nil => rfl
  | cons n rest ih =>
    have executed : (S.interp visible).exec n state = (S.interp fun _ => true).exec n state := rfl
    have observed : (S.interp visible).observe n state =
        ((S.interp fun _ => true).observe n state).filter (Event.shown visible) := by
      by_cases here : visible n.type <;> simp [interp, Event.shown, here]
    rw [Interp.perform_cons, Interp.perform_cons, executed, ih, observed, List.filter_append]

private theorem depart_shown (f : Fn) (b : Blk) (state : State W M) :
    (S.interp visible).depart f b state =
      (((S.interp fun _ => true).depart f b state).1.filter (Event.shown visible),
        ((S.interp fun _ => true).depart f b state).2) := by
  by_cases returns : b.btype = .ret
  · rw [Interp.depart_ret returns, Interp.depart_ret returns]
    rfl
  by_cases jump : b.btype = .j
  · rw [Interp.depart_j jump, Interp.depart_j jump]
    rfl
  · rw [Interp.depart_cond returns jump, Interp.depart_cond returns jump]
    rfl

variable (visible) in
/-- With fewer instructions shown a function shows some of the same events. -/
theorem machine_shown (f : Fn) : (S.interp visible).machine f =
    ((S.interp fun _ => true).machine f).filter (Event.shown visible) := by
  refine congrArg Machine.mk (funext fun config => ?_)
  obtain ⟨ctrl, state⟩ := config
  cases ctrl with
  | block id =>
    cases found : f.find? id with
    | none => simp [Interp.machine, found]
    | some b =>
      have stepped : (S.interp visible).stepBlock f b state =
          (((S.interp fun _ => true).stepBlock f b state).1.filter (Event.shown visible),
            ((S.interp fun _ => true).stepBlock f b state).2) := by
        unfold Interp.stepBlock
        rw [perform_shown b.insns state]
        dsimp only
        rw [depart_shown f b, List.filter_append]
      exact (Interp.machine_step_block found state).trans ((congrArg some stepped).trans
        (Machine.filter_step (Interp.machine_step_block found state)).symm)
  | returned => rfl
  | stuck => rfl

end Semantics

namespace Interp

variable {σ ε : Type}

section Events

variable {I : Interp σ ε} {P : ε → Prop}

/-- What holds of all events of instructions holds when they are executed. -/
theorem perform_events {insns : List Insn}
    (observed : ∀ n ∈ insns, ∀ state, ∀ event ∈ I.observe n state, P event) (state : σ) :
    ∀ event ∈ (I.perform insns state).1, P event := by
  induction insns generalizing state with
  | nil => simp
  | cons n rest ih =>
    rw [List.forall_mem_cons] at observed
    rw [perform_cons, List.forall_mem_append]
    exact ⟨observed.1 state, ih observed.2 _⟩

variable (decided : ∀ taken, ∀ event ∈ I.decision taken, P event)
  (left : ∀ state, ∀ event ∈ I.leave state, P event)

include decided left

/-- What is shown at the end of a block has the property. -/
theorem depart_events (f : Fn) (b : Blk) (state : σ) :
    ∀ event ∈ (I.depart f b state).1, P event := by
  by_cases returns : b.btype = .ret
  · rw [depart_ret returns]
    exact left state
  by_cases jump : b.btype = .j
  · rw [depart_j jump]
    simp
  · rw [depart_cond returns jump]
    exact decided _

/-- What holds of all events of the blocks of a function holds in its runs. -/
theorem run_events {f : Fn}
    (observed : ∀ b ∈ f.blks, ∀ n ∈ b.insns, ∀ state, ∀ event ∈ I.observe n state, P event)
    (count : Nat) (config : Ctrl × σ) : ∀ event ∈ ((I.machine f).run count config).1, P event := by
  refine Machine.run_events (fun {config events next} stepped => ?_) count config
  simp only [machine] at stepped
  split at stepped
  · split at stepped
    · cases stepped
      simp
    · rename_i b found
      cases stepped
      rw [List.forall_mem_append]
      exact ⟨perform_events (observed b (Fn.find?_mem found)) _, depart_events decided left f b _⟩
  · cases stepped

end Events

private theorem follow_ne_returned (I : Interp σ ε) (f : Fn) (target : Option Nat) (args : List Val)
    (state : σ) : (I.follow f target args state).1 ≠ .returned := by
  unfold follow
  split <;> simp

/-- A function returns out of a block without a branch. -/
theorem depart_of_returned {I : Interp σ ε} {f : Fn} {b : Blk} {state : σ}
    (returned : (I.depart f b state).2.1 = .returned) :
    I.depart f b state = (I.leave state, (.returned, state)) := by
  by_cases returns : b.btype = .ret
  · exact depart_ret returns state
  by_cases jump : b.btype = .j
  · rw [depart_j jump] at returned
    exact absurd returned (I.follow_ne_returned f _ _ _)
  · rw [depart_cond returns jump] at returned
    dsimp only at returned
    split at returned
    · exact absurd returned (I.follow_ne_returned f _ _ _)
    · exact absurd returned (I.follow_ne_returned f _ _ _)

/-- A function that returns shows its return last. -/
theorem leaves_of_returned (I : Interp σ ε) (f : Fn) {count : Nat} (config : Ctrl × σ)
    (runs : config.1 ≠ .returned) (returned : ((I.machine f).run count config).2.1 = .returned) :
    I.leave ((I.machine f).run count config).2.2 <:+ ((I.machine f).run count config).1 := by
  induction count generalizing config with
  | zero => exact absurd returned runs
  | succ count ih =>
    cases stepped : (I.machine f).step config with
    | none =>
      rw [Machine.run_halted stepped] at returned
      exact absurd returned runs
    | some result =>
      obtain ⟨events, next⟩ := result
      rw [Machine.run_succ stepped] at returned ⊢
      by_cases ends : next.1 = .returned
      · have halted : (I.machine f).step next = none := by simp [machine, ends]
        rw [Machine.run_halted halted, List.append_nil]
        dsimp only
        simp only [machine] at stepped
        split at stepped
        · split at stepped
          · cases stepped
            cases ends
          · cases stepped
            rw [depart_of_returned ends]
            exact List.suffix_append _ _
        · cases stepped
      · exact (ih next ends returned).trans (List.suffix_append _ _)

end Interp

end Qbt
