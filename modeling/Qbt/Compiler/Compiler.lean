import Qbt.Asm.Preserves
import Qbt.Compiler.Passes
import Qbt.Frontend.Graph

/-!
# The compiler

From the text of a function to the assembly that is printed for it, as `main` takes it through the
parser, `optimize` and `output`.
-/

namespace Qbt.Compiler

open Abi Regalloc Asm

/-- What becomes of a function of the text: `f` is parsed, `g`, `h`, `k` and `m` are left by the
passes, and `text` is printed. `a` is how `regalloc` ends. -/
structure Compiles (source : Frontend.Function) (f g h k m : Fn) (a : Allocation)
    (text : List Line) : Prop where
  parsed : ∃ idx, Frontend.buildFunction idx source = .ok f
  optimizes : Optimizes f g h k m
  allocated : ∃ blks, allocBlks (.start k) k.blks = .ok (a, blks)
  printed : output m = .ok text

/-- What compilation relies on without a check: no address is taken and no branch compares with an
immediate, all lists fit in the argument registers, no instruction writes the register of a value
that is still needed, and the printers find what they assume. -/
structure Supported (f k m : Fn) (a : Allocation) : Prop where
  noAddr : ∀ b ∈ f.blks, ∀ i ∈ b.insns, i.type ≠ .addr
  noImm : ∀ b ∈ f.blks, b.cmp1.isImm = false
  few : ∀ b ∈ f.blks, InRegisters b.insns
  separated : ∀ b ∈ k.blks, Separated (registerOf a.rmap) b
  assumed : ∀ b ∈ m.blks, ∀ n ∈ b.insns, Assumed n
  edges : ∀ b ∈ m.blks, SoundEdges m b

section Text

variable {T U : Type} (E : Encoding T) (symbols : String → Int) (call : Callee Int (World T U))

/-- What instructions of the text compute on the machine. -/
abbrev textSemantics : Semantics Int (SlotWorld Int (World T U)) :=
  slotSemantics (machineSemantics E symbols) Int.toNat call

/-- The reading of the text. -/
abbrev textInterp : Interp (State Int (SlotWorld Int (World T U))) (Event Int) :=
  (textSemantics E symbols call).interp fun _ => true

/-- What is visible of an event of the text. -/
def visibleEvent : Event Int → Option Visible
  | .insn .call _ target _ _ => some (.call target)
  | .branch taken => some (.branch taken)
  | _ => none

/-- The access of an event of the text. -/
def accessEvent : Event Int → Option Access
  | .insn type vtype base _ v => insnAccess type vtype base v
  | _ => none

end Text

section Events

/-- What is shown of an event whether or not it is outlined, and of no event that does not stay. -/
structure Shows {δ : Type} (shown : CallEvent Int → Option δ) (shown' : Event Int → Option δ) :
    Prop where
  outlined : ∀ event, (CallEvent.outline event).bind shown' = shown event
  outlined' : ∀ event, (outline event).bind shown' = shown' event
  hidden : ∀ event, stays event = false → shown' event = none

/-- Functions that execute alike show the same. -/
theorem Shows.alike {δ : Type} {shown : CallEvent Int → Option δ} {shown' : Event Int → Option δ}
    (shows : Shows shown shown') {events : List (CallEvent Int)} {events' : List (Event Int)}
    (same : (events.filterMap CallEvent.outline).filter stays =
      (events'.filterMap outline).filter stays) :
    events.filterMap shown = events'.filterMap shown' := by
  have kept (events : List (Event Int)) :
      (events.filter stays).filterMap shown' = events.filterMap shown' := by
    rw [List.filterMap_filter]
    refine List.filterMap_congr fun event _ => ?_
    cases kept : stays event with
    | true => rfl
    | false => exact (shows.hidden event kept).symm
  have all := congrArg (List.filterMap shown') same
  rw [kept, kept, List.filterMap_filterMap, List.filterMap_filterMap] at all
  simpa only [shows.outlined, shows.outlined'] using all

private theorem shows_visible : Shows visible visibleEvent where
  outlined event := by
    cases event with
    | insn type => cases type <;> rfl
    | _ => rfl
  outlined' event := by
    cases event with
    | insn type => cases type <;> rfl
    | _ => rfl
  hidden event gone := by
    cases event with
    | insn type => cases type <;> first | rfl | cases gone
    | _ => cases gone

private theorem shows_access : Shows access accessEvent where
  outlined event := by
    cases event with
    | insn type => cases type <;> rfl
    | _ => rfl
  outlined' event := by
    cases event with
    | insn type => cases type <;> rfl
    | _ => rfl
  hidden event gone := by
    cases event with
    | insn type => cases type <;> first | rfl | cases gone
    | _ => cases gone

end Events

section Functions

variable {T U : Type} {E : Encoding T} {symbols : String → Int} {call : Callee Int (World T U)}
  {routine : Routine T U} {source : Frontend.Function} {ν : String → Nat} {f g h k m : Fn}
  {a : Allocation} {text : List Line} {e : MachineState T} {u : U} {origins : List Val}
  {state : State Int (SlotWorld Int (World T U))}

/-- Text and assembly start alike: the parameters of the function are in the argument registers,
and nothing has been called, passed or returned. What the text may read before it is written,
`origins`, is in the registers of the parameters of the first block. -/
structure Enters (origins : List Val) (m : Fn) (e : MachineState T) (u : U)
    (state : State Int (SlotWorld Int (World T (U × Nat)))) : Prop where
  world : state.world.world = ⟨frameLow m e, e.mem, (u, 0)⟩
  params : ∀ i < 24, state.world.params i = e.read (ra i)
  args : state.world.args = fun _ => none
  returns : state.world.returns = fun _ => none
  entry : ∀ b, m.blks.head? = some b → List.Forall₂
    (fun origin p => ∀ t, origin = .tmp t → e.value p = state.tmp t) origins b.params

/-- What assembly leaves behind for its caller: the registers it has to keep, the world of the text,
and the values that the text returns. -/
structure Delivers (m : Fn) (e : MachineState T)
    (final : State Int (SlotWorld Int (World T (U × Nat)))) (s : MachineState T) (u : U) :
    Prop where
  restored : Restored e s
  mem : ∀ i, Beside (frameLow m e) (e.read rsp) i → s.mem i = final.world.world.mem i
  outside : u = final.world.world.outside.1
  returns : ∀ i < 24, ∀ w, final.world.returns i = some w → s.read (ra i) = w

/-- The assembly, called in a state, calls the same routines and branches the same way as the text
of the function. It returns where the text returns, with what the text returns. -/
structure Implements (E : Encoding T) (symbols : String → Int) (routine : Routine T U)
    (call : Callee Int (World T (U × Nat))) (ν : String → Nat) (source : Frontend.Function) (m : Fn)
    (text : List Line) (e : MachineState T) (u : U)
    (state : State Int (SlotWorld Int (World T (U × Nat)))) : Prop where
  performs : ∀ events, (lineMachine E symbols routine text).Performs ⟨text, e, u⟩ events ↔
    ((Frontend.textMachine (textInterp E symbols call) ν source).project visibleEvent).Performs
      (.start, state) events
  halts : ∀ events running,
    (lineMachine E symbols routine text).Halts ⟨text, e, u⟩ events running →
      (∃ rest, running.lines = .ret :: rest) ∧ ∃ final,
        ((Frontend.textMachine (textInterp E symbols call) ν source).project visibleEvent).Halts
          (.start, state) events (.returned, final) ∧
        Delivers m e final running.state running.outside
  returns : ∀ events ctrl final,
    ((Frontend.textMachine (textInterp E symbols call) ν source).project visibleEvent).Halts
      (.start, state) events (ctrl, final) → ctrl = .returned ∧ ∃ running,
        (lineMachine E symbols routine text).Halts ⟨text, e, u⟩ events running ∧
        Delivers m e final running.state running.outside

/-- The function in front of register allocation can start with what the registers hold. -/
theorem exists_begins {state : State Int (SlotWorld Int (World T (U × Nat)))}
    (list : Ssa.ParamList origins) (enters : Enters origins m e u state) {b b' : Blk}
    (first : k.blks.head? = some b) (first' : m.blks.head? = some b')
    (lengths : b'.params.length = b.params.length) (nodup : b.params.Nodup)
    (temps : ∀ p ∈ b.params, p.isTmp) : ∃ state' : RegState Int (World T (U × Nat)),
      (∀ call, Begins (machineSemantics E symbols) Int.toNat call k origins state state') ∧
        Asm.Enters E symbols k m e (u, 0) state' := by
  let start : State Int (World T (U × Nat)) :=
    { tmp := state.tmp, reg := e.read, world := ⟨frameLow m e, e.mem, (u, 0)⟩ }
  have held := enters.entry b' first'
  have assigned := (machineSemantics E symbols).assign_values start
    (held.length_eq.trans lengths) nodup fun p member => Or.inl (temps p member)
  -- Each parameter of the first block gets the temporary it stands for.
  have values : List.Forall₂ (fun origin p => ∃ t, origin = .tmp t ∧ (machineSemantics E
      symbols).value ((machineSemantics E symbols).assign b.params origins start) p = state.tmp t)
        origins b.params := by
    refine ((List.forall₂_and_left _ _).mpr ⟨fun v member => member, assigned.flip⟩).imp ?_
    rintro v p ⟨member, value⟩
    obtain ⟨t, rfl⟩ := Val.isTmp_iff.mp (list.temps v member)
    exact ⟨t, rfl, value⟩
  refine ⟨⟨(machineSemantics E symbols).assign b.params origins start, 0, 0⟩, fun call => ?_, ?_⟩
  · exact {
      world := ((machineSemantics E symbols).assign_world _ _ _).trans enters.world.symm
      params := fun i inside => by
        rw [(machineSemantics E symbols).assign_reg _ _ temps, enters.params i inside]
      args := enters.args
      returns := enters.returns
      entry := fun c head => by
        obtain rfl := Option.some.inj (first.symm.trans head)
        refine values.imp ?_
        rintro _ p ⟨t, rfl, value⟩
        exact value
      passed := rfl
      returned := rfl }
  · exact {
      world := (machineSemantics E symbols).assign_world _ _ _
      params := fun i inside => by rw [(machineSemantics E symbols).assign_reg _ _ temps]
      entry := fun c c' head head' => by
        obtain rfl := Option.some.inj (first.symm.trans head)
        obtain rfl := Option.some.inj (first'.symm.trans head')
        refine Lists.forall₂_comp ?_ values.flip held
        rintro p _ p' ⟨t, rfl, value⟩ held
        exact (held t rfl).trans value.symm
      passed := rfl
      returned := rfl }

/-- The first blocks of both functions have corresponding parameters. -/
theorem first_of_placed {rmap : List Val} {n : Nat} (placed : Placed rmap k m n) {b : Blk}
    (first : k.blks.head? = some b) : ∃ b', m.blks.head? = some b' ∧
      b'.params = b.params.map (registerOf rmap) := by
  obtain ⟨rest, blks⟩ := List.head?_eq_some_iff.mp first
  have images := placed.blks
  rw [AllocatedBlks, blks] at images
  obtain ⟨_, _, ⟨_, _, saved, allocated, rfl⟩, -, blks'⟩ := List.forall₂_cons_left_iff.mp images
  exact ⟨saved.b, by rw [blks']; rfl, by rw [allocated.eq]⟩

section Runs

variable {state' : RegState Int (World T U)}
  (alike : ∀ count, RunsAlike (machineSemantics E symbols) Int.toNat call f k state state' count)

include alike

private theorem performs_of_alike (events : List Visible) :
    (((registerInterp (machineSemantics E symbols) call).machine k).project visible).Performs
        (Interp.entry k, state') events ↔
      (((textInterp E symbols call).machine f).project visibleEvent).Performs
        (Interp.entry f, state) events := by
  simp only [Machine.Performs, Machine.run_project]
  exact exists_congr fun count => by rw [shows_visible.alike (alike count).events]

/-- Both return after as many blocks. -/
theorem halts_of_alike {events : List Visible} :
    (∀ final', (((registerInterp (machineSemantics E symbols) call).machine k).project
        visible).Halts (Interp.entry k, state') events (.returned, final') → ∃ final,
      (((textInterp E symbols call).machine f).project visibleEvent).Halts (Interp.entry f, state)
        events (.returned, final) ∧ final'.core.world = final.world.world ∧
          argRegs final' final'.returned = final.world.returns) ∧
    ∀ final, (((textInterp E symbols call).machine f).project visibleEvent).Halts
        (Interp.entry f, state) events (.returned, final) → ∃ final',
      (((registerInterp (machineSemantics E symbols) call).machine k).project visible).Halts
        (Interp.entry k, state') events (.returned, final') ∧
          final'.core.world = final.world.world ∧
            argRegs final' final'.returned = final.world.returns := by
  simp only [Machine.Halts, Machine.run_project, Prod.mk.injEq, Machine.project_step_eq_none]
  constructor
  · rintro final' ⟨count, ⟨rfl, ended⟩, -⟩
    obtain ⟨events, control, world, returns⟩ := alike count
    rw [ended] at control world returns
    exact ⟨_, ⟨count, ⟨(shows_visible.alike events).symm, Prod.ext control.symm rfl⟩, rfl⟩, world,
      returns rfl⟩
  · rintro final ⟨count, ⟨rfl, ended⟩, -⟩
    obtain ⟨events, control, world, returns⟩ := alike count
    rw [ended] at control world returns
    exact ⟨_, ⟨count, ⟨shows_visible.alike events, Prod.ext control rfl⟩, rfl⟩, world,
      returns control⟩

end Runs

/-- What the assembly gives back is what the text leaves behind. -/
theorem delivers_of_givesBack {final : State Int (SlotWorld Int (World T (U × Nat)))}
    {final' : RegState Int (World T (U × Nat))} {s : MachineState T} {u : U} {made : Nat}
    (back : GivesBack m e final' s (u, made)) (world : final'.core.world = final.world.world)
    (returns : argRegs final' final'.returned = final.world.returns) : Delivers m e final s u where
  restored := back.restored
  mem i beside := by rw [back.mem i beside, world]
  outside := by rw [← world, ← back.outside]
  returns i inside w returned := by
    rw [← returns, argRegs] at returned
    split at returned
    · rw [back.returns i (by assumption) inside]
      exact Option.some.inj returned
    · cases returned

/-- A text whose graph runs like the function in front of register allocation is implemented by what
runs like that function. -/
theorem implements_of_runsLike {call : Callee Int (World T (U × Nat))}
    {state : State Int (SlotWorld Int (World T (U × Nat)))}
    {state' : RegState Int (World T (U × Nat))} (means : Frontend.MeansText source f ν)
    (alike : ∀ count,
      RunsAlike (machineSemantics E symbols) Int.toNat call f k state state' count)
    (runs : RunsLike E symbols routine call k m text e u state') :
    Implements E symbols routine call ν source m text e u state := by
  have performs (events : List (Event Int)) :=
    means.performs (textInterp E symbols call) state events
  refine ⟨fun events => ?_, fun events running halted => ?_,
    fun events ctrl final halted => ?_⟩
  · exact (runs.performs events).trans ((performs_of_alike alike events).trans
      (Machine.performs_project_iff performs visibleEvent events).symm)
  · obtain ⟨last, final', made, halted', back⟩ := runs.halts events running halted
    obtain ⟨final, halted, world, returns⟩ := (halts_of_alike alike).1 final' halted'
    obtain ⟨all, halted, shown⟩ := Machine.halts_project_iff.mp halted
    have text := (means.returns (textInterp E symbols call) state all final).mpr halted
    exact ⟨last, final, Machine.halts_project_iff.mpr ⟨all, text, shown⟩,
      delivers_of_givesBack back world returns⟩
  · obtain ⟨all, halted, shown⟩ := Machine.halts_project_iff.mp halted
    obtain rfl : ctrl = .returned := by
      obtain ⟨count, ran, stopped⟩ := halted
      have runs := means.textRuns (textInterp E symbols call) state count
      rw [ran] at runs
      cases ctrl with
      | start => cases stopped
      | item position =>
        simp only [Frontend.textMachine] at stopped
        split at stopped <;> cases stopped
      | returned => rfl
      | stuck => exact absurd rfl runs
    have graph := (means.returns (textInterp E symbols call) state all final).mp halted
    obtain ⟨final', halted', world, returns⟩ := (halts_of_alike alike).2 final
      (Machine.halts_project_iff.mpr ⟨all, graph, shown⟩)
    obtain ⟨-, running, made, halted', back⟩ := runs.returns events .returned final' halted'
    exact ⟨rfl, running, halted', delivers_of_givesBack back world returns⟩

/-- The compiler preserves the meaning of every function in which it finds what it relies on. With
routines that keep the convention, on any machine and in every run, the assembly does what the text
does with callees that do what the contract allows, provided that with no such callees the text
accesses the frame or moves the stack pointer above it. -/
theorem compiler_preserves (compiles : Compiles source f g h k m a text)
    (supported : Supported f k m a) : ∃ ν origins, Function.Injective ν ∧ Ssa.ParamList origins ∧
      (∀ b, m.blks.head? = some b → b.params.length = origins.length) ∧
      ∀ {T U : Type} {E : Encoding T}, E.Lawful → ∀ (symbols : String → Int)
        (contract : Contract T U) (routine : Routine T U) (e : MachineState T) (u : U)
        (state : State Int (SlotWorld Int (World T (U × Nat)))),
          Conforms (frameLow m e) (e.read rsp) contract routine →
          Enters origins m e u state →
          (∀ calls, (∀ n, contract.Permits (frameLow m e) (calls n)) → ∀ count,
            Orderly (frameLow m e) (e.read rsp) (frameLow m e)
              (((Frontend.textMachine (textInterp E symbols (inTurn calls)) ν source).run count
                (.start, state)).1.filterMap accessEvent)) →
          ∃ calls, (∀ n, contract.Permits (frameLow m e) (calls n)) ∧
            Implements E symbols routine (inTurn calls) ν source m text e u state := by
  obtain ⟨idx, parsed⟩ := compiles.parsed
  obtain ⟨blks, allocated⟩ := compiles.allocated
  obtain ⟨n, converted⟩ := compiles.optimizes.converted
  have built : Frontend.ParserBuilt f := ⟨idx, source, parsed⟩
  obtain ⟨chunks, built'⟩ := Frontend.buildFunction_built parsed
  obtain ⟨ν, numbers, injective⟩ := built'.table.exists_injective
  have means := built'.meansText numbers injective
  have corrected := compiles.optimizes.corrected
  obtain ⟨entry, rest, listed⟩ :=
    List.exists_cons_of_ne_nil (BeforeSsa.corrected built corrected).raw.nonempty
  have lengths := first_length built corrected listed converted compiles.optimizes.merged
  obtain ⟨_, emitted⟩ := exists_emitted built supported.noAddr supported.few compiles.optimizes
    allocated supported.separated supported.assumed supported.edges compiles.printed
  obtain ⟨b, first⟩ := exists_first built compiles.optimizes
  obtain ⟨b', first', params⟩ := first_of_placed emitted.placed first
  obtain ⟨nodup, temps⟩ := emitted.placed.input.params b (List.mem_of_head? first)
  have list : Ssa.ParamList (Ssa.paramTable g (Ssa.order g entry.id) entry.id) :=
    Ssa.paramTable_list _ _ _
  refine ⟨ν, _, means.injective, list, fun c head => ?_,
    fun {T U E} lawful symbols contract routine e u state conforms enters orderly => ?_⟩
  · obtain rfl := Option.some.inj (first'.symm.trans head)
    rw [params, List.length_map, lengths b first]
  obtain ⟨state', begins, enters'⟩ :=
    exists_begins list enters first first' (by simp [params]) nodup temps
  have alike (calls : Nat → Callee Int (World T U)) :=
    runsAlike_of_begins built supported.noAddr corrected supported.few supported.noImm converted
      compiles.optimizes.merged listed (machineSemantics_lawful E symbols) (fun _ => rfl)
      (begins (inTurn calls))
  obtain ⟨calls, permits, runs⟩ :=
    emitted.exists_runsLike first lawful symbols conforms enters' fun calls permits count => by
      -- The text shows what the graph shows.
      obtain ⟨other, more⟩ := (means.performs (textInterp E symbols (inTurn calls)) state _).mpr
        ⟨count, List.prefix_rfl⟩
      rw [shows_access.alike (alike calls count).events]
      exact (orderly calls permits other).beginning (more.filterMap accessEvent)
  exact ⟨calls, permits, implements_of_runsLike means (alike calls) runs⟩

/-- A text without accesses makes none in its runs. -/
theorem accesses_of_noAccess (noAccess : ∀ it ∈ source.body.items,
    ∀ n ∈ it.stmt.insns ν, NoAccess n.type) (count : Nat)
    (config : Frontend.TextCtrl × State Int (SlotWorld Int (World T U))) :
    ((Frontend.textMachine (textInterp E symbols call) ν source).run count config).1.filterMap
      accessEvent = [] := by
  have observed {n : Insn} (other : NoAccess n.type)
      (state : State Int (SlotWorld Int (World T U))) :
      ∀ event ∈ (textInterp E symbols call).observe n state, accessEvent event = none := by
    intro event member
    rw [List.mem_singleton.mp member]
    exact insnAccess_eq_none other _ _ _
  refine List.filterMap_eq_nil_iff.mpr
    (Machine.run_events (fun {config events next} stepped => ?_) count config)
  simp only [Frontend.textMachine] at stepped
  split at stepped
  · cases stepped
    refine Interp.perform_events (fun n member => ?_) _
    obtain ⟨i, _, rfl⟩ := List.mem_mapIdx.mp member
    exact observed (by simp [NoAccess, Frontend.paramInsn, insnCreate])
  · split at stepped
    · cases stepped
      simp
    · rename_i it found
      cases stepped
      rw [List.forall_mem_append]
      constructor
      · exact Interp.perform_events
          (fun n member => observed (noAccess it (List.mem_of_getElem? found) n member)) _
      · intro event member
        unfold Frontend.leaveStmt at member
        split at member
        · cases member
        · cases member
        · rw [List.mem_singleton.mp member]
          rfl
        · rw [List.mem_singleton.mp member]
          rfl
  · cases stepped

/-- The loop test on any machine with a `_putchar` that saves a register of its own. -/
theorem compiler_preserves_simpleLoop :
    ∃ f g h k m a text ν, Compiles Frontend.simpleLoop f g h k m a text ∧
      Function.Injective ν ∧ ∀ (symbols : String → Int) (e : MachineState Int), ∃ calls,
        (∀ n, writesArgument.Permits (frameLow m e) (calls n)) ∧
        Implements Encoding.whole symbols putchar (inTurn calls) ν
          Frontend.simpleLoop m text e []
          ⟨fun _ => 0, fun _ => 0, ⟨⟨frameLow m e, e.mem, ([], 0)⟩, fun i => e.read (ra i),
            fun _ => none, fun _ => 0, fun _ => none⟩⟩ := by
  obtain ⟨f, g, h, k, m, a, blks, text, parsed, optimizes, allocated, printed, noAddr, noImm, few,
    separated, assumed, edges, -, -, b', first', none⟩ := simpleLoop_stages
  have compiles : Compiles Frontend.simpleLoop f g h k m a text :=
    ⟨⟨0, parsed⟩, optimizes, ⟨blks, allocated⟩, printed⟩
  obtain ⟨ν, origins, injective, -, lengths, implements⟩ :=
    compiler_preserves compiles ⟨noAddr, noImm, few, separated, assumed, edges⟩
  obtain rfl : origins = [] := by
    have same := lengths b' first'
    rw [none] at same
    exact List.eq_nil_of_length_eq_zero same.symm
  refine ⟨f, g, h, k, m, a, text, ν, compiles, injective, fun symbols e => ?_⟩
  refine implements Encoding.whole_lawful symbols _ putchar e [] _ (putchar_conforms _ _)
    ⟨rfl, fun _ _ => rfl, rfl, rfl, fun b head => ?_⟩ fun calls _ count => ?_
  · obtain rfl := Option.some.inj (first'.symm.trans head)
    rw [none]
    exact .nil
  · rw [accesses_of_noAccess]
    · exact Int.le_refl _
    · simp [Frontend.simpleLoop, Frontend.Stmt.insns, Frontend.Plain.insn, Frontend.BinOp.insn,
        Frontend.argInsn, Frontend.callInsn, insnCreate, NoAccess]

end Functions

end Qbt.Compiler
