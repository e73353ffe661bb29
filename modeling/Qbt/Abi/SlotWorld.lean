import Qbt.Abi.Lists
import Qbt.Abi.Slots

/-!
# Slots as a part of the world

The files of slots belong to what is neither in temporaries nor in registers. Read so, functions
with slots execute by a plain `Semantics`, to which the passes in front of `abi0` apply.
-/

namespace Qbt.Abi

variable {W M : Type}

/-- The rest of the machine with the four files of slots. -/
structure SlotWorld (W M : Type) where
  world : M
  params : Nat → W
  args : Nat → Option W
  results : Nat → W
  returns : Nat → Option W

/-- Instructions on the slots. The slot that an instruction names is its second input, read as an
index. -/
def slotSemantics (S : Semantics W M) (index : W → Nat) (call : Callee W M) :
    Semantics W (SlotWorld W M) where
  imm := S.imm
  ref := S.ref
  absent := S.absent
  effect type vtype w x v m :=
    match type with
    | .param => (m.params (index x), m)
    | .arg => (S.absent, { m with args := Function.update m.args (index x) (some w) })
    | .call =>
      let called := call w m.args m.world
      (S.absent, { m with world := called.2, results := called.1, args := fun _ => none })
    | .retval => (m.results (index x), m)
    | .retarg => (S.absent, { m with returns := Function.update m.returns (index x) (some w) })
    | type =>
      let result := S.effect type vtype w x v m.world
      (result.1, { m with world := result.2 })
  taken := S.taken

/-- Slots leave the laws for moves and copies in place. -/
theorem slotSemantics_lawful {S : Semantics W M} (lawful : S.Lawful) (index : W → Nat)
    (call : Callee W M) : (slotSemantics S index call).Lawful where
  copy w x v m := by simp [slotSemantics, lawful.copy]
  move w x v m := by simp [slotSemantics, lawful.move]
  addr s x v m := by simp [slotSemantics, lawful.addr]
  add type w x v m := by simp [slotSemantics, lawful.add type w x]
  mul type w x v m := by simp [slotSemantics, lawful.mul type w x]

/-- The files of slots are moved to the world. -/
def SlotState.pack (state : SlotState W M) : State W (SlotWorld W M) where
  tmp := state.core.tmp
  reg := state.core.reg
  world := ⟨state.core.world, state.params, state.args, state.results, state.returns⟩

section Pack

variable {S : Semantics W M} {index : W → Nat} {call : Callee W M} {state : SlotState W M}

@[simp] theorem value_pack (v : Val) :
    (slotSemantics S index call).value state.pack v = S.value state.core v := by
  cases v <;> rfl

private theorem pack_write (v : Val) (w : W) :
    { state with core := state.core.write v w }.pack = state.pack.write v w := by
  cases v <;> rfl

private theorem pack_assign (params args : List Val) :
    { state with core := S.assign params args state.core }.pack =
      (slotSemantics S index call).assign params args state.pack := by
  unfold Semantics.assign
  have values : args.map ((slotSemantics S index call).value state.pack) =
      args.map (S.value state.core) := List.map_congr_left fun v _ => value_pack v
  rw [values]
  clear values
  generalize params.zip (args.map (S.value state.core)) = entries
  induction entries generalizing state with
  | nil => rfl
  | cons entry rest ih =>
    rw [List.foldl_cons, List.foldl_cons, ← pack_write]
    exact @ih { state with core := state.core.write entry.1 entry.2 }

/-- What the reading of an instruction relies on: the slot is an immediate, and what computes
nothing has no output. -/
structure Slotted (n : Insn) : Prop where
  slot : n.type.isItem → n.in1.isImm
  out : n.type = .arg ∨ n.type = .retarg ∨ n.type = .call → n.out = .noclass

private theorem exec_pack (index_imm : ∀ v, index (S.imm v) = v.toNat) {n : Insn}
    (slotted : Slotted n) :
    (SlotState.exec S call n state).pack = (slotSemantics S index call).exec n state.pack := by
  have indexed (item : n.type.isItem) : index (S.value state.core n.in1) = slot n := by
    have isImm := slotted.slot item
    cases in1 : n.in1 <;> rw [in1] at isImm <;> first | cases isImm; done | skip
    simp [slot, in1, index_imm]
  have nothing {v : Val} (none : v = .noclass) (s : State W (SlotWorld W M)) (w : W) :
      s.write v w = s := by
    rw [none]
    rfl
  unfold Semantics.exec
  rw [value_pack, value_pack]
  unfold SlotState.exec
  cases type : n.type <;> simp only [type] at indexed ⊢
  case param =>
    rw [pack_write, ← indexed rfl]
    exact (State.write_with_world state.pack n.out _).symm
  case retval =>
    rw [pack_write, ← indexed rfl]
    exact (State.write_with_world state.pack n.out _).symm
  case arg =>
    rw [nothing (slotted.out (Or.inl type)), ← indexed rfl]
    rfl
  case retarg =>
    rw [nothing (slotted.out (Or.inr (Or.inl type))), ← indexed rfl]
    rfl
  case call =>
    rw [nothing (slotted.out (Or.inr (Or.inr type)))]
    rfl
  all_goals
    simp only [Semantics.exec, type, slotSemantics]
    cases n.out <;> rfl

end Pack

/-- What both readings show of an event: not the arguments of a call. -/
def CallEvent.outline : CallEvent W → Option (Event W)
  | .insn .call _ _ _ _ => none
  | .insn type vtype in0 in1 v => some (.insn type vtype in0 in1 v)
  | .call target _ => some (.insn .call .notype target target 0)
  | .branch taken => some (.branch taken)
  | .leave _ => some .leave

/-- What both readings show of an event: not the instructions for slots. -/
def outline : Event W → Option (Event W)
  | .insn .call _ target _ _ => some (.insn .call .notype target target 0)
  | .insn type vtype in0 in1 v => if type.isItem then none else some (.insn type vtype in0 in1 v)
  | event => some event

section Runs

variable {S : Semantics W M} {index : W → Nat} {call : Callee W M} {h : Fn}

private theorem observe_pack (n : Insn) (state : SlotState W M) :
    (((slotSemantics S index call).interp fun _ => true).observe n state.pack).filterMap outline =
      ((slotInterp S call).observe n state).filterMap CallEvent.outline := by
  simp only [Semantics.interp, slotInterp, value_pack]
  cases type : n.type <;> rfl

variable (call) in
private theorem perform_pack (index_imm : ∀ v, index (S.imm v) = v.toNat) {insns : List Insn}
    (slotted : ∀ n ∈ insns, Slotted n) (state : SlotState W M) :
    (((slotSemantics S index call).interp fun _ => true).perform insns state.pack).1.filterMap
        outline =
      ((slotInterp S call).perform insns state).1.filterMap CallEvent.outline ∧
    (((slotSemantics S index call).interp fun _ => true).perform insns state.pack).2 =
      ((slotInterp S call).perform insns state).2.pack := by
  induction insns generalizing state with
  | nil => exact ⟨rfl, rfl⟩
  | cons n rest ih =>
    rw [List.forall_mem_cons] at slotted
    have executed : ((slotSemantics S index call).interp fun _ => true).exec n state.pack =
        ((slotInterp S call).exec n state).pack := (exec_pack index_imm slotted.1).symm
    obtain ⟨events, states⟩ := ih slotted.2 ((slotInterp S call).exec n state)
    rw [Interp.perform_cons, Interp.perform_cons, executed, List.filterMap_append,
      List.filterMap_append, observe_pack, events]
    exact ⟨rfl, states⟩

private theorem follow_pack (target : Option Nat) (args : List Val) (state : SlotState W M) :
    ((slotSemantics S index call).interp fun _ => true).follow h target args state.pack =
      (((slotInterp S call).follow h target args state).1,
        ((slotInterp S call).follow h target args state).2.pack) := by
  unfold Interp.follow
  cases target.bind h.find? with
  | none => rfl
  | some b => exact congrArg (Ctrl.block b.id, ·) (pack_assign b.params args).symm

variable (S index call h) in
private theorem depart_pack (b : Blk) (state : SlotState W M) :
    (((slotSemantics S index call).interp fun _ => true).depart h b state.pack).1.filterMap
        outline =
      ((slotInterp S call).depart h b state).1.filterMap CallEvent.outline ∧
    (((slotSemantics S index call).interp fun _ => true).depart h b state.pack).2 =
      (((slotInterp S call).depart h b state).2.1,
        ((slotInterp S call).depart h b state).2.2.pack) := by
  by_cases returns : b.btype = .ret
  · rw [Interp.depart_ret returns, Interp.depart_ret returns]
    exact ⟨rfl, rfl⟩
  by_cases jump : b.btype = .j
  · rw [Interp.depart_j jump, Interp.depart_j jump]
    exact ⟨rfl, follow_pack _ _ _⟩
  · rw [Interp.depart_cond returns jump, Interp.depart_cond returns jump]
    have taken : ((slotSemantics S index call).interp fun _ => true).taken b.btype b.cmp0 b.cmp1
        state.pack = (slotInterp S call).taken b.btype b.cmp0 b.cmp1 state := by
      simp only [Semantics.interp, slotInterp, value_pack]
      rfl
    dsimp only
    rw [taken]
    refine ⟨rfl, ?_⟩
    split
    · exact follow_pack _ _ _
    · exact follow_pack _ _ _

variable (call) in
/-- Both readings execute alike. -/
theorem lockstep_pack (index_imm : ∀ v, index (S.imm v) = v.toNat)
    (slotted : ∀ b ∈ h.blks, ∀ n ∈ b.insns, Slotted n) :
    Machine.Lockstep
      ((((slotSemantics S index call).interp fun _ => true).machine h).project outline)
      (((slotInterp S call).machine h).project CallEvent.outline)
      (fun config config' => config = (config'.1, config'.2.pack)) where
  halts := by
    rintro _ ⟨ctrl, state⟩ rfl
    rw [Machine.project_step_eq_none, Machine.project_step_eq_none]
    cases ctrl with
    | block id => cases found : h.find? id <;> simp [Interp.machine, found]
    | returned => exact iff_of_true rfl rfl
    | stuck => exact iff_of_true rfl rfl
  steps := by
    rintro _ ⟨ctrl, state⟩ events next events' next' rfl - stepped stepped'
    cases ctrl with
    | block id =>
      cases found : h.find? id with
      | none =>
        simp only [Machine.project, Interp.machine, found, Option.map_some, Option.some.injEq,
          Prod.mk.injEq] at stepped stepped'
        obtain ⟨rfl, rfl⟩ := stepped
        obtain ⟨rfl, rfl⟩ := stepped'
        exact ⟨rfl, rfl⟩
      | some b =>
        rw [Machine.project_step (Interp.machine_step_block found _), Option.some.injEq,
          Prod.mk.injEq] at stepped stepped'
        obtain ⟨rfl, rfl⟩ := stepped
        obtain ⟨rfl, rfl⟩ := stepped'
        obtain ⟨shown, ran⟩ := perform_pack call index_imm (slotted b (Fn.find?_mem found)) state
        obtain ⟨left, went⟩ := depart_pack S index call h b
          ((slotInterp S call).perform b.insns state).2
        constructor
        · simp only [ran, List.filterMap_append, shown, left]
        · simp only [ran, went]
    | returned => cases stepped
    | stuck => cases stepped

end Runs

end Qbt.Abi
