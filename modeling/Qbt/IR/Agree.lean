import Qbt.IR.Operands
import Qbt.IR.Semantics

/-!
# States that agree on the temporaries in use

Code whose temporaries are numbered below a bound cannot tell states apart that agree
below it.
-/

namespace Qbt

variable {W M : Type} {S : Semantics W M}

/-- Two states that differ at most in the temporaries from `bound` on. -/
structure Agree (bound : Nat) (state state' : State W M) : Prop where
  tmp : ∀ t < bound, state'.tmp t = state.tmp t
  reg : state'.reg = state.reg
  world : state'.world = state.world

namespace Agree

variable {bound : Nat} {state state' state'' : State W M}

theorem refl (bound : Nat) (state : State W M) : Agree bound state state :=
  ⟨fun _ _ => rfl, rfl, rfl⟩

theorem trans (first : Agree bound state state') (second : Agree bound state' state'') :
    Agree bound state state'' :=
  ⟨fun t inside => (second.tmp t inside).trans (first.tmp t inside),
    second.reg.trans first.reg, second.world.trans first.world⟩

theorem anti {bound' : Nat} (le : bound ≤ bound') (agree : Agree bound' state state') :
    Agree bound state state' :=
  ⟨fun t inside => agree.tmp t (Nat.lt_of_lt_of_le inside le), agree.reg, agree.world⟩

/-- Operands below the bound have the same value. -/
theorem value (agree : Agree bound state state') {v : Val} (below : v.Below bound) :
    S.value state' v = S.value state v := by
  cases v with
  | tmp t => exact agree.tmp t below
  | reg r => exact congrFun agree.reg r
  | _ => rfl

/-- The same write keeps states in agreement. -/
theorem write (agree : Agree bound state state') (v : Val) (w : W) :
    Agree bound (state.write v w) (state'.write v w) := by
  cases v with
  | tmp t =>
    refine ⟨fun u inside => ?_, agree.reg, agree.world⟩
    by_cases same : u = t
    · simp [same]
    · simp [same, agree.tmp u inside]
  | reg r =>
    refine ⟨agree.tmp, ?_, agree.world⟩
    funext u
    simp [agree.reg]
  | _ => exact agree

/-- A write to a temporary from the bound on goes unnoticed. -/
theorem write_fresh (agree : Agree bound state state') {t : Nat} (fresh : bound ≤ t) (w : W) :
    Agree bound state (state'.write (.tmp t) w) := by
  refine ⟨fun u inside => ?_, agree.reg, agree.world⟩
  have differs : u ≠ t := Nat.ne_of_lt (Nat.lt_of_lt_of_le inside fresh)
  simp [differs, agree.tmp u inside]

theorem setWorld (agree : Agree bound state state') (m : M) :
    Agree bound { state with world := m } { state' with world := m } :=
  ⟨agree.tmp, agree.reg, rfl⟩

/-- An instruction below the bound keeps states in agreement. -/
theorem exec (agree : Agree bound state state') {n : Insn} (below : n.Below bound) :
    Agree bound (S.exec n state) (S.exec n state') := by
  simp only [Semantics.exec, agree.value below.in0, agree.value below.in1, agree.world]
  exact (agree.write n.out _).setWorld _

/-- An instruction below the bound shows the same. -/
theorem observe (agree : Agree bound state state') {n : Insn} (below : n.Below bound)
    (visible : InsnType → Bool) :
    (S.interp visible).observe n state' = (S.interp visible).observe n state := by
  simp only [Semantics.interp, agree.value below.in0, agree.value below.in1]

/-- Code below the bound behaves the same. -/
theorem perform (agree : Agree bound state state') {insns : List Insn}
    (below : ∀ n ∈ insns, n.Below bound) (visible : InsnType → Bool) :
    ((S.interp visible).perform insns state').1 = ((S.interp visible).perform insns state).1 ∧
      Agree bound ((S.interp visible).perform insns state).2
        ((S.interp visible).perform insns state').2 := by
  induction insns generalizing state state' with
  | nil => exact ⟨rfl, agree⟩
  | cons n rest ih =>
    have below' := below n List.mem_cons_self
    obtain ⟨events, agree'⟩ :=
      ih (agree.exec (S := S) below') fun m member => below m (List.mem_cons_of_mem _ member)
    simp only [Interp.perform_cons, agree.observe (S := S) below' visible]
    exact ⟨congrArg _ events, agree'⟩

end Agree

/-- `insns'` may stand for `insns` in code that uses temporaries below `bound` only. -/
def Replaces (S : Semantics W M) (visible : InsnType → Bool) (bound : Nat)
    (insns insns' : List Insn) : Prop :=
  ∀ state : State W M,
    ((S.interp visible).perform insns' state).1 = ((S.interp visible).perform insns state).1 ∧
      Agree bound ((S.interp visible).perform insns state).2
        ((S.interp visible).perform insns' state).2

namespace Replaces

variable {visible : InsnType → Bool} {bound bound' : Nat} {insns insns' insns'' : List Insn}

theorem refl (insns : List Insn) : Replaces S visible bound insns insns :=
  fun _ => ⟨rfl, .refl bound _⟩

theorem trans (le : bound ≤ bound') (first : Replaces S visible bound insns insns')
    (second : Replaces S visible bound' insns' insns'') :
    Replaces S visible bound insns insns'' :=
  fun state => ⟨(second state).1.trans (first state).1,
    (first state).2.trans ((second state).2.anti le)⟩

theorem anti (le : bound ≤ bound') (replaces : Replaces S visible bound' insns insns') :
    Replaces S visible bound insns insns' :=
  fun state => ⟨(replaces state).1, (replaces state).2.anti le⟩

/-- A replacement may be made in the middle of a list. -/
theorem middle (replaces : Replaces S visible bound insns insns') (before : List Insn)
    {after : List Insn} (below : ∀ n ∈ after, n.Below bound) :
    Replaces S visible bound (before ++ insns ++ after) (before ++ insns' ++ after) := by
  intro state
  simp only [Interp.perform_append]
  obtain ⟨events, agree⟩ := replaces ((S.interp visible).perform before state).2
  obtain ⟨events', agree'⟩ := agree.perform below visible
  exact ⟨by rw [events, events'], agree'⟩

/-- A replacement is as good from any state that agrees on the temporaries in use. -/
theorem from_agree (replaces : Replaces S visible bound insns insns')
    (below : ∀ n ∈ insns, n.Below bound) {state state' : State W M}
    (agree : Agree bound state state') :
    ((S.interp visible).perform insns' state').1 = ((S.interp visible).perform insns state).1 ∧
      Agree bound ((S.interp visible).perform insns state).2
        ((S.interp visible).perform insns' state').2 := by
  obtain ⟨events, agree'⟩ := agree.perform (S := S) below visible
  exact ⟨(replaces state').1.trans events, agree'.trans (replaces state').2⟩

end Replaces
end Qbt
