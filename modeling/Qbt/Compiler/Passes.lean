import Qbt.Abi.SlotWorld
import Qbt.Asm.Printable
import Qbt.Correct.Simulation
import Qbt.IR.Observed

/-!
# The passes in front of register allocation

`correct`, `ssa` and `abi0` one behind the other. In front of them parameters, arguments, results
and returned values are in slots, behind them they are in registers.
-/

namespace Qbt.Compiler

open Abi

variable {W M : Type} {S : Semantics W M} {index : W → Nat} {call : Callee W M} {f g h k : Fn}
  {n : Nat} {origins : List Val}

/-- Which events stay the same: all but those of instructions that `correct` inserts or changes. -/
def stays : Event W → Bool := Event.shown Correct.observed

private theorem stays_outline (event : Event W) :
    ∀ shown ∈ outline event, stays shown = stays event := by
  intro shown member
  cases event with
  | insn type =>
    cases type <;> cases member <;> rfl
  | branch => cases member; rfl
  | leave => cases member; rfl

/-- It makes no difference whether an event is dropped before or after it is outlined. -/
theorem filter_outline (events : List (Event W)) :
    (events.filterMap outline).filter stays = (events.filter stays).filterMap outline := by
  induction events with
  | nil => rfl
  | cons event rest ih =>
    have same := stays_outline event
    cases shows : outline event with
    | none =>
      rw [List.filterMap_cons_none shows, ih, List.filter_cons]
      split
      · rw [List.filterMap_cons_none shows]
      · rfl
    | some shown =>
      rw [List.filterMap_cons_some shows, List.filter_cons, List.filter_cons,
        same shown (by simp [shows]), ih]
      split
      · rw [List.filterMap_cons_some shows]
      · rfl

/-- Both functions start with the same parameters, and the parameters of the first block of `k` have
the values of the temporaries `origins` of the text. -/
structure Begins (S : Semantics W M) (index : W → Nat) (call : Callee W M) (k : Fn)
    (origins : List Val) (state : State W (SlotWorld W M)) (state' : RegState W M) : Prop where
  world : state'.core.world = state.world.world
  params : ∀ i < 24, state'.core.reg (ra i) = state.world.params i
  args : state.world.args = fun _ => none
  returns : state.world.returns = fun _ => none
  entry : ∀ b, k.blks.head? = some b → List.Forall₂ (fun origin p =>
    S.value state'.core p = (slotSemantics S index call).value state origin) origins b.params
  passed : state'.passed = 0
  returned : state'.returned = 0

/-- `count` blocks of `f` from `state` and of `k` from `state'` execute alike. -/
structure RunsAlike (S : Semantics W M) (index : W → Nat) (call : Callee W M) (f k : Fn)
    (state : State W (SlotWorld W M)) (state' : RegState W M) (count : Nat) : Prop where
  events : ((((registerInterp S call).machine k).run count
      (Interp.entry k, state')).1.filterMap CallEvent.outline).filter stays =
    (((((slotSemantics S index call).interp fun _ => true).machine f).run count
      (Interp.entry f, state)).1.filterMap outline).filter stays
  control : (((registerInterp S call).machine k).run count (Interp.entry k, state')).2.1 =
    ((((slotSemantics S index call).interp fun _ => true).machine f).run count
      (Interp.entry f, state)).2.1
  world : (((registerInterp S call).machine k).run count (Interp.entry k, state')).2.2.core.world =
    ((((slotSemantics S index call).interp fun _ => true).machine f).run count
      (Interp.entry f, state)).2.2.world.world
  returns : (((registerInterp S call).machine k).run count (Interp.entry k, state')).2.1 =
      .returned →
    argRegs (((registerInterp S call).machine k).run count (Interp.entry k, state')).2.2
        (((registerInterp S call).machine k).run count (Interp.entry k, state')).2.2.returned =
      ((((slotSemantics S index call).interp fun _ => true).machine f).run count
        (Interp.entry f, state)).2.2.world.returns

/-- The first block behind `abi0` has the parameters that `ssa` gave it. -/
private theorem first_rewritten {entry' : Blk} {rest' : List Blk} (blks : h.blks = entry' :: rest')
    (merged : abi0 h = .ok k) : ∃ b, k.blks.head? = some b ∧ b.params = entry'.params := by
  have images := abi0_rewritten merged
  rw [RewrittenBlks, blks] at images
  obtain ⟨b, _, rewritten, -, blks'⟩ := List.forall₂_cons_left_iff.mp images
  obtain ⟨_, _, rfl⟩ := rewriteBlk_eq_ok.mp rewritten
  exact ⟨_, List.head?_eq_some_iff.mpr ⟨_, blks'⟩, rfl⟩

section Passes

variable (built : Frontend.ParserBuilt f) (noAddr : ∀ b ∈ f.blks, ∀ i ∈ b.insns, i.type ≠ .addr)
  (corrected : Corrected f g)

include built noAddr corrected

/-- Between `correct` and `abi0` instructions for slots are what their reading relies on. -/
theorem converted_slotted (converted : ssa g = .ok (h, n)) :
    ∀ b ∈ h.blks, ∀ i ∈ b.insns, Slotted i := by
  have raw := (BeforeSsa.corrected built corrected).raw
  obtain ⟨_, _, parsed⟩ := built
  obtain ⟨chunks, built'⟩ := Frontend.buildFunction_built parsed
  have tidy := Ssa.ssa_tidy raw (corrected.tidy noAddr built'.tidy) converted
  intro b member i inside
  have passing := (converted_items built' corrected converted member).1 i inside
  refine ⟨passing.slot, ?_⟩
  rintro (arg | retarg | call)
  · exact passing.out (Or.inl arg)
  · exact passing.out (Or.inr retarg)
  · exact (tidy b member).silent i inside (Or.inr (Or.inr call))

/-- `correct`, when no branch compares with an immediate. -/
theorem corrected_run (noImm : ∀ b ∈ f.blks, b.cmp1.isImm = false) {N : Type} {S : Semantics W N}
    (lawful : S.Lawful) (state : State W N) (count : Nat) :
    ((((S.interp fun _ => true).machine g).run count (Interp.entry g, state)).1.filter stays =
      (((S.interp fun _ => true).machine f).run count (Interp.entry f, state)).1.filter stays) ∧
    (((S.interp fun _ => true).machine g).run count (Interp.entry g, state)).2.1 =
      (((S.interp fun _ => true).machine f).run count (Interp.entry f, state)).2.1 ∧
    (((S.interp fun _ => true).machine g).run count (Interp.entry g, state)).2.2.world =
      (((S.interp fun _ => true).machine f).run count (Interp.entry f, state)).2.2.world := by
  have alike : Correct.RunsAlike S f g state state count :=
    Correct.correct_preserves built noAddr corrected lawful (.refl f.ntmp state)
      fun i _ id b _ found isImm => by
        rw [noImm b (Fn.find?_mem found)] at isImm
        cases isImm
  obtain ⟨events, control, agree⟩ := alike
  simp only [Semantics.machine_shown Correct.observed, Machine.run_filter] at events control agree
  exact ⟨events, control, agree.world⟩

omit noAddr in
/-- The first block behind `abi0` has a parameter for each temporary that `build_params` found. -/
theorem first_length {entry : Blk} {rest : List Blk} (blks : g.blks = entry :: rest)
    (converted : ssa g = .ok (h, n)) (merged : abi0 h = .ok k) :
    ∀ b, k.blks.head? = some b →
      b.params.length = (Ssa.paramTable g (Ssa.order g entry.id) entry.id).length := by
  intro c head
  have result := Ssa.ssa_converted (BeforeSsa.corrected built corrected).raw blks converted
  obtain ⟨entry', rest', blks', named⟩ := result.entry blks
  obtain ⟨b, first, params⟩ := first_rewritten blks' merged
  obtain rfl := Option.some.inj (first.symm.trans head)
  rw [params]
  exact named.params.1

/-- `correct`, `ssa` and `abi0`, from where the registers and the parameters of the first block hold
what the text starts with. -/
theorem runsAlike_of_begins (few : ∀ b ∈ f.blks, InRegisters b.insns)
    (noImm : ∀ b ∈ f.blks, b.cmp1.isImm = false) (converted : ssa g = .ok (h, n))
    (merged : abi0 h = .ok k) {entry : Blk} {rest : List Blk} (blks : g.blks = entry :: rest)
    (lawful : S.Lawful) (index_imm : ∀ v, index (S.imm v) = v.toNat)
    {state : State W (SlotWorld W M)} {state' : RegState W M}
    (begins : Begins S index call k (Ssa.paramTable g (Ssa.order g entry.id) entry.id) state
      state') (count : Nat) : RunsAlike S index call f k state state' count := by
  have before := BeforeSsa.corrected built corrected
  have result := Ssa.ssa_converted before.raw blks converted
  obtain ⟨entry', rest', blks', named⟩ := result.entry blks
  obtain ⟨b, first, params⟩ := first_rewritten blks' merged
  -- Between `ssa` and `abi0` the slots are files of their own again.
  let slots : SlotState W M := {
    core := { tmp := state'.core.tmp, reg := state.reg, world := state.world.world }
    params := state.world.params
    args := state.world.args
    results := state.world.results
    returns := state.world.returns }
  have entered : Ssa.Begins (slotSemantics S index call)
      (Ssa.paramTable g (Ssa.order g entry.id) entry.id) entry'.params state slots.pack := by
    have held := begins.entry b first
    rw [params] at held
    refine ⟨rfl, rfl, ((List.forall₂_and_left _ _).mpr ⟨named.params.2.2, held.flip⟩).flip.imp ?_⟩
    rintro v p ⟨isTmp, value⟩
    obtain ⟨t, rfl⟩ := Val.isTmp_iff.mp isTmp
    exact value
  obtain ⟨events₁, control₁, world₁⟩ := corrected_run built noAddr corrected noImm
    (slotSemantics_lawful lawful index call) state count
  have same := result.executesLike blks blks' named (slotSemantics S index call)
  have events₂ := same.events state slots.pack entered count
  have control₂ := same.control state slots.pack entered count
  have world₂ := same.world state slots.pack entered count
  have start : (Interp.entry h, slots.pack) =
      ((Interp.entry h, slots).1, (Interp.entry h, slots).2.pack) := rfl
  obtain ⟨shown, configs⟩ := Machine.Lockstep.run (lockstep_pack call index_imm
    (converted_slotted built noAddr corrected converted)) start count
  simp only [Machine.run_project] at shown configs
  have form := converted_form result (corrected_callShape built noAddr few corrected)
  have enters : Enters slots state' := {
    core := ⟨rfl, begins.world⟩
    params := begins.params
    args := begins.args
    returns := begins.returns
    passed := begins.passed
    returned := begins.returned }
  obtain ⟨events₃, control₃, core₃⟩ :=
    form.callsLike (abi0_rewritten merged) lawful call enters
  have control₄ := congrArg Prod.fst configs
  have world₄ := congrArg (fun config => config.2.world) configs
  rw [control₂] at control₄
  rw [world₂] at world₄
  refine ⟨?_, ?_, ?_, fun returned => ?_⟩
  · rw [events₃ count, shown, events₂, filter_outline, filter_outline, events₁]
  · rw [control₃ count, ← control₁]
    exact control₄.symm
  · rw [(core₃ count).world, ← world₁, world₄]
    rfl
  · have runs {k : Fn} : Interp.entry k ≠ .returned := by
      unfold Interp.entry
      split <;> simp
    have last := Interp.leaves_of_returned _ k (Interp.entry k, state') runs returned
    have last' := Interp.leaves_of_returned _ h (Interp.entry h, slots) runs
      ((control₃ count).symm.trans returned)
    rw [events₃ count] at last
    have leaves := (List.suffix_of_suffix_length_le last last' (Nat.le_refl 1)).eq_of_length rfl
    rw [← world₁, world₄]
    exact CallEvent.leave.inj (List.singleton_inj.mp leaves)

/-- `correct`, `ssa` and `abi0` preserve the meaning of a function in which no address is taken and
no branch compares with an immediate. -/
theorem passes_preserve (few : ∀ b ∈ f.blks, InRegisters b.insns)
    (noImm : ∀ b ∈ f.blks, b.cmp1.isImm = false) (converted : ssa g = .ok (h, n))
    (merged : abi0 h = .ok k) : ∃ origins, Ssa.ParamList origins ∧
      (∀ b, k.blks.head? = some b → b.params.length = origins.length) ∧
      ∀ {W M : Type} {S : Semantics W M}, S.Lawful → ∀ index : W → Nat,
        (∀ v, index (S.imm v) = v.toNat) → ∀ (call : Callee W M)
          (state : State W (SlotWorld W M)) (state' : RegState W M),
            Begins S index call k origins state state' →
              ∀ count, RunsAlike S index call f k state state' count := by
  have raw := (BeforeSsa.corrected built corrected).raw
  obtain ⟨entry, rest, blks⟩ := List.exists_cons_of_ne_nil raw.nonempty
  exact ⟨_, Ssa.paramTable_list _ _ _, first_length built corrected blks converted merged,
    fun lawful index index_imm call state state' begins count =>
      runsAlike_of_begins built noAddr corrected few noImm converted merged blks lawful index_imm
        begins count⟩

end Passes

/-- The loop test, for any callee. -/
theorem passes_preserve_simpleLoop :
    ∃ f g h n k, Frontend.buildFunction 0 Frontend.simpleLoop = .ok f ∧ Corrected f g ∧
      ssa g = .ok (h, n) ∧ abi0 h = .ok k ∧ ∀ (call : Callee Int Unit) (results : Nat → Int) count,
        RunsAlike Semantics.integers Int.toNat call f k
          ⟨fun _ => 0, fun _ => 0, ⟨(), fun _ => 0, fun _ => none, results, fun _ => none⟩⟩
          ⟨⟨fun _ => 0, fun _ => 0, ()⟩, 0, 0⟩ count := by
  have ran : ∃ f g ri h n k, Frontend.buildFunction 0 Frontend.simpleLoop = .ok f ∧
      correct 20 f f.ntmp = .ok (g, ri) ∧ ssa { g with ntmp := ri } = .ok (h, n) ∧
        abi0 h = .ok k ∧ (∀ b ∈ f.blks, ∀ i ∈ b.insns, i.type ≠ .addr) ∧
          (∀ b ∈ f.blks, b.cmp1.isImm = false) ∧ (∀ b ∈ f.blks, InRegisters b.insns) ∧
            ∃ b, k.blks.head? = some b ∧ b.params = [] :=
    ⟨_, _, _, _, _, _, by rfl, by rfl, by rfl, by rfl, by decide, by decide, by decide, _, by rfl,
      by rfl⟩
  obtain ⟨f, g, ri, h, n, k, parsed, corrected, converted, merged, noAddr, noImm, few, b, first,
    none⟩ := ran
  have passed : Corrected f { g with ntmp := ri } := ⟨20, g, ri, corrected, rfl⟩
  obtain ⟨origins, -, lengths, alike⟩ :=
    passes_preserve ⟨0, _, parsed⟩ noAddr passed few noImm converted merged
  obtain rfl : origins = [] := by
    have same := lengths b first
    rw [none] at same
    exact List.eq_nil_of_length_eq_zero same.symm
  refine ⟨f, _, h, n, k, parsed, passed, converted, merged, fun call results count => ?_⟩
  refine alike Semantics.integers_lawful Int.toNat (fun _ => rfl) call _ _ ?_ count
  refine ⟨rfl, fun _ _ => rfl, rfl, rfl, fun c head => ?_, rfl, rfl⟩
  obtain rfl := Option.some.inj (first.symm.trans head)
  rw [none]
  exact .nil

end Qbt.Compiler
