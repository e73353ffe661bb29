import Qbt.Asm.Simulation
import Qbt.IR.Observed

/-!
# The text preserves the meaning

Register allocation and printing together: the printed text, executed line by line, calls the same
routines and branches the same way as the function in front of register allocation, and leaves the
same world behind.
-/

namespace Qbt.Asm

open Abi Regalloc

variable {T U : Type} {E : Encoding T} {symbols : String → Int} {routine : Routine T U}
  {text : List Line} {m k : Fn} {e s : MachineState T} {u : U} {call : Callee Int (World T U)}
  {rmap : List Val} {n : Nat}

/-- What a function leaves behind for its caller: the registers it has to keep, the world, and the
returned values. -/
structure GivesBack (m : Fn) (e : MachineState T) (state : RegState Int (World T U))
    (s : MachineState T) (u : U) : Prop where
  restored : Restored e s
  mem : ∀ i, Beside (frameLow m e) (e.read rsp) i → s.mem i = state.core.world.mem i
  outside : u = state.core.world.outside
  returns : ∀ i < state.returned, i < 24 → s.read (ra i) = state.core.reg (ra i)

/-- The text stands where the function in front of register allocation stands: at a block with what
it needs, or in front of the last line of an epilogue. -/
inductive AtText (E : Encoding T) (symbols : String → Int) (call : Callee Int (World T U))
    (rmap : List Val) (k m : Fn) (e : MachineState T) (text : List Line) :
    Running T U → Ctrl × RegState Int (World T U) → Prop
  | block {id : Nat} {b : Blk} {state : RegState Int (World T U)} {f : FrameState Int (World T U)}
      {s : MachineState T} {u : U} (found : k.find? id = some b)
      (represents : Represents E m e f s u)
      (place : AtPlace (machineSemantics E symbols) rmap k (.block id, state) (.block id, f))
      (orderly : ∀ count, Orderly (frameLow m e) (e.read rsp) state.core.world.sp
        ((((registerInterp (machineSemantics E symbols) call).machine k).run count
          (.block id, state)).1.filterMap access)) :
      AtText E symbols call rmap k m e text ⟨linesAt text id, s, u⟩ (.block id, state)
  | returned {rest : List Line} {state : RegState Int (World T U)} {s : MachineState T} {u : U}
      (back : GivesBack m e state s u) :
      AtText E symbols call rmap k m e text ⟨.ret :: rest, s, u⟩ (.returned, state)

section Step

variable {id : Nat} {b : Blk} {state : RegState Int (World T U)} {f : FrameState Int (World T U)}

/-- What is not seen behind register allocation is not visible either. -/
theorem visible_of_seen (events : List (CallEvent Int)) :
    (events.filter CallEvent.seen).filterMap visible = events.filterMap visible := by
  induction events with
  | nil => rfl
  | cons event rest ih =>
    by_cases seen : CallEvent.seen event
    · rw [List.filter_cons_of_pos seen, List.filterMap_cons, List.filterMap_cons, ih]
    · have hidden : visible event = none := by
        cases event with
        | insn => rfl
        | leave => rfl
        | _ => exact absurd rfl seen
      rw [List.filter_cons_of_neg seen, List.filterMap_cons, hidden, ih]

/-- And it makes no access. -/
theorem access_of_seen (events : List (CallEvent Int)) :
    (events.filter CallEvent.seen).filterMap access = events.filterMap access := by
  rw [List.filterMap_filter]
  refine List.filterMap_congr fun event _ => ?_
  cases event with
  | insn type => cases type <;> rfl
  | _ => rfl

/-- A block that is allocated calls once at most. -/
theorem once_of_allocated {b' : Blk} {lifetimes : List Lifetime} {saved : Saving}
    (allocated : AllocatedTo rmap b lifetimes b' saved) :
    (saved.b.insns.filter (·.type = .call)).length ≤ 1 := by
  have once := allocated.saves.once
  rw [← allocated.saves.erased, List.filter_filter] at once
  refine le_of_eq_of_le (congrArg List.length (List.filter_congr fun n _ => ?_)) once
  by_cases type : n.type = .call <;> simp [type, InsnType.savesReg]

/-- A branch that is printed compares. -/
theorem comparison_of_printed {lines : List Line} (printed : outputBranch m b = .ok lines)
    (stays : b.btype ≠ .ret) (noJump : b.btype ≠ .j) :
    ∃ cond left right, comparison b = some (cond, left, right) := by
  unfold outputBranch at printed
  unfold comparison
  split at printed <;> rename_i type
  · exact absurd type stays
  · exact absurd type noJump
  iterate 5
    rw [type]
    exact ⟨_, _, _, rfl⟩
  cases printed

variable (symbols call) in
/-- The branch compares what the function in front of register allocation compares. -/
theorem takes_iff (emitted : Emitted rmap k m n text) {b' : Blk} {lifetimes : List Lifetime}
    {saved : Saving} (allocated : AllocatedTo rmap b lifetimes b' saved)
    (foundM : m.find? id = some saved.b)
    (ends : AtEnd (machineSemantics E symbols) rmap b state f) (represents : Represents E m e f s u)
    {cond : Cond} {left right : Nat} (conditional : comparison saved.b = some (cond, left, right)) :
    Takes saved.b s ↔ (registerInterp (machineSemantics E symbols) call).taken b.btype b.cmp0
      b.cmp1 state := by
  have compares := emitted.allocated.compares _ (Fn.find?_mem foundM)
  have operand {v : Val} (compared : v = b.cmp0 ∨ v = b.cmp1)
      (allocable : (registerOf rmap v).Allocable) :
      s.value (registerOf rmap v) = (machineSemantics (T := T) (U := U) E symbols).value
        state.core v := by
    have isReg : (registerOf rmap v).isReg := by
      obtain ⟨r, -, register⟩ := allocable
      rw [register]
      rfl
    rw [represents.value (fun _ => allocable) (Or.inl isReg)]
    by_cases place : v.IsPlace
    · exact ends.holds.values v ⟨place, compared.imp_right Or.inl⟩
    · rw [registerOf_of_not_isPlace place]
      exact (machineSemantics E symbols).value_of_not_isPlace place _ _
  have first := compares.first
  have second := compares.second
  rw [allocated.eq] at first second conditional ⊢
  dsimp only at first second
  unfold comparison at conditional
  split at conditional <;> rename_i type <;> dsimp only at type <;>
    simp only [type, InsnType.comparesTwo, InsnType.comparesOne, true_or, or_true,
      forall_const, Bool.false_eq_true, false_implies] at first second
  iterate 3
    simp only [Takes, type, operand (Or.inl rfl) first, operand (Or.inr rfl) second]
    rfl
  iterate 2
    simp only [Takes, type, operand (Or.inl rfl) first]
    rfl
  cases conditional

/-- Where control comes to a block, the text stands there. -/
private theorem Emitted.arrived (emitted : Emitted rmap k m n text) (found : k.find? id = some b)
    {b' : Blk} {lifetimes : List Lifetime} {saved : Saving}
    (allocated : AllocatedTo rmap b lifetimes b' saved) (foundM : m.find? id = some saved.b)
    (ends : AtEnd (machineSemantics E symbols) rmap b state f) (stays : b.btype ≠ .ret)
    (represents : Represents E m e f s u) {next : Nat} {args : List Val}
    (edge : b.s1 = some next ∧ args = b.args1 ∨ b.s2 = some next ∧ args = b.args2)
    {lines : List Line} {events : List Visible} {s' : MachineState T}
    (transfers : Transfers E symbols routine text m e lines events next
      (args.map (registerOf rmap)) state.core.world s s' u)
    (orderly : ∀ count, Orderly (frameLow m e) (e.read rsp) state.core.world.sp
      ((((registerInterp (machineSemantics E symbols) call).machine k).run count
        ((registerInterp (machineSemantics E symbols) call).follow k (some next) args
          state)).1.filterMap access)) :
    AtText E symbols call rmap k m e text ⟨linesAt text next, s', u⟩
      ((registerInterp (machineSemantics E symbols) call).follow k (some next) args state) := by
  obtain ⟨⟨c, foundC⟩, place⟩ := emitted.arrive symbols call found allocated foundM ends stays
    represents edge transfers.inFrame transfers.delivered
  rw [Interp.follow_some foundC] at place orderly ⊢
  have sp : ((registerInterp (machineSemantics E symbols) call).assign c.params args
      state).core.world.sp = state.core.world.sp :=
    congrArg World.sp ((machineSemantics E symbols).assign_world c.params args state.core)
  rw [← sp] at orderly
  exact .block foundC transfers.inFrame.represents place orderly

variable (symbols call routine) in
/-- A block is left for where the function in front of register allocation goes. -/
theorem Emitted.departs (emitted : Emitted rmap k m n text) (found : k.find? id = some b)
    {b' : Blk} {lifetimes : List Lifetime} {saved : Saving}
    (allocated : AllocatedTo rmap b lifetimes b' saved) (foundM : m.find? id = some saved.b)
    (ends : AtEnd (machineSemantics E symbols) rmap b state f) (represents : Represents E m e f s u)
    {last behind : List Line} (printed : outputEnd m saved.b = .ok last)
    (falls : ¬ saved.b.isReturn → ∃ next, saved.b.s1 = some next ∧ behind = linesAt text next)
    (orderly : ∀ count, Orderly (frameLow m e) (e.read rsp) state.core.world.sp
      ((((registerInterp (machineSemantics E symbols) call).machine k).run count
        ((registerInterp (machineSemantics E symbols) call).depart k b state).2).1.filterMap
          access)) :
    ∃ running, (lineMachine E symbols routine text).Goes ⟨last ++ behind, s, u⟩
        (((registerInterp (machineSemantics E symbols) call).depart k b state).1.filterMap visible)
        running ∧
      AtText E symbols call rmap k m e text running
        ((registerInterp (machineSemantics E symbols) call).depart k b state).2 := by
  have member := Fn.find?_mem foundM
  have same := allocated.eq
  have type : saved.b.btype = b.btype := by rw [same]
  have inFrame : InFrame E m e state.core.world s u := ends.holds.world ▸ represents.inFrame
  by_cases returns : b.btype = .ret
  · rw [Interp.depart_ret returns]
    obtain ⟨rest, s', goes, restored, mem, regs⟩ := goes_ret symbols routine text behind
      emitted.allocated member (type.trans returns) printed inFrame
    refine ⟨_, goes, .returned ⟨restored, fun i beside => ?_, inFrame.world.outside,
      fun i counted inside => ?_⟩⟩
    · rw [mem, inFrame.world.mem i beside]
    · rw [regs _ (ra_mem inside), represents.regs _ (arMap_subset (ra_mem inside)),
        ends.returns i counted]
  have stays : ¬ saved.b.isReturn := by simpa [Blk.isReturn, type] using returns
  have falls := falls stays
  by_cases jump : b.btype = .j
  · rw [Interp.depart_j jump] at orderly ⊢
    obtain ⟨next, s', edge, transfers⟩ := transfers_jump symbols routine
      emitted.allocated emitted.fits (emitted.tidy _ member) (emitted.edges _ member) member
      (type.trans jump) printed falls inFrame
    have args : saved.b.args2 = b.args2.map (registerOf rmap) := by rw [same]
    have edge : b.s2 = some next := by rwa [same] at edge
    rw [args] at transfers
    rw [edge] at orderly ⊢
    exact ⟨_, transfers.goes, emitted.arrived found allocated foundM ends returns represents
      (Or.inr ⟨edge, rfl⟩) transfers orderly⟩
  · obtain ⟨ends'⟩ := exists_parts emitted.allocated member printed
    obtain ⟨cond, left, right, conditional⟩ := comparison_of_printed ends'.branched
      (fun ret => returns (type.symm.trans ret)) fun j => jump (type.symm.trans j)
    have takes := takes_iff symbols call emitted allocated foundM ends represents conditional
    obtain ⟨taken, fails⟩ := transfers_branch symbols routine
      emitted.allocated emitted.fits (emitted.edges _ member) member conditional printed falls
      inFrame
    have args2 : saved.b.args2 = b.args2.map (registerOf rmap) := by rw [same]
    have args1 : saved.b.args1 = b.args1.map (registerOf rmap) := by rw [same]
    rw [Interp.depart_cond returns jump] at orderly ⊢
    dsimp only at orderly ⊢
    by_cases decision : (registerInterp (machineSemantics E symbols) call).taken b.btype b.cmp0
        b.cmp1 state
    · obtain ⟨next, s', edge, transfers⟩ := taken (takes.mpr decision)
      have edge : b.s2 = some next := by rwa [same] at edge
      rw [args2] at transfers
      rw [decision, if_pos rfl, edge] at orderly ⊢
      exact ⟨_, transfers.goes, emitted.arrived found allocated foundM ends returns represents
        (Or.inr ⟨edge, rfl⟩) transfers orderly⟩
    · obtain ⟨next, s', edge, transfers⟩ := fails fun holds => decision (takes.mp holds)
      have edge : b.s1 = some next := by rwa [same] at edge
      rw [args1] at transfers
      rw [Bool.not_eq_true] at decision
      rw [decision, if_neg (by simp), edge] at orderly ⊢
      exact ⟨_, transfers.goes, emitted.arrived found allocated foundM ends returns represents
        (Or.inl ⟨edge, rfl⟩) transfers orderly⟩

end Step

section Runs

variable {running : Running T U} {config : Ctrl × RegState Int (World T U)}

/-- The lines of a block, and those behind it. -/
theorem Emitted.exists_blk (emitted : Emitted rmap k m n text) {id : Nat} {b : Blk}
    (found : k.find? id = some b) : ∃ lifetimes b' saved parts last behind,
      AllocatedTo rmap b lifetimes b' saved ∧ m.find? id = some saved.b ∧
      linesAt text id = .label id :: (List.flatten parts ++ (last ++ behind)) ∧
      List.Forall₂ (fun n part => outputInsn m n = .ok part) saved.b.insns parts ∧
      outputEnd m saved.b = .ok last ∧
      (¬ saved.b.isReturn → ∃ next, saved.b.s1 = some next ∧ behind = linesAt text next) := by
  obtain ⟨lifetimes, b', saved, allocated, foundM⟩ := emitted.placed.blks.find? found
  obtain ⟨lines, behind, ⟨parts, last, rfl, insns, ends⟩, lines, falls⟩ :=
    exists_lines emitted.allocated emitted.printed (Fn.find?_mem foundM)
  rw [Fn.find?_id foundM] at lines
  exact ⟨lifetimes, b', saved, parts, last, behind, allocated, foundM, by simp [lines], insns, ends,
    falls⟩

/-- Both halt at the end of the function only. -/
theorem AtText.halts (atText : AtText E symbols call rmap k m e text running config)
    (emitted : Emitted rmap k m n text) :
    (lineMachine E symbols routine text).step running = none ↔
      (((registerInterp (machineSemantics E symbols) call).machine k).project visible).step config =
        none := by
  rw [Machine.project_step_eq_none]
  cases atText with
  | block found =>
    obtain ⟨_, _, _, _, _, _, -, -, lines, -⟩ := emitted.exists_blk found
    rw [lines, Interp.machine_step_block found]
    exact iff_of_false nofun nofun
  | returned => exact iff_of_true rfl rfl

/-- What a block does when it is left makes no access. -/
theorem lowered_depart (k : Fn) (b : Blk) (state : RegState Int (World T U)) :
    lowered (((registerInterp (machineSemantics E symbols) call).depart k b state).1.filterMap
      access) = 0 := by
  have none : ∀ event ∈ ((registerInterp (machineSemantics E symbols) call).depart k b state).1,
      access event = none := by
    refine Interp.depart_events (fun taken event member => ?_) (fun state event member => ?_) k b
      state <;> rw [List.mem_singleton.mp member] <;> rfl
  rw [List.filterMap_eq_nil_iff.mpr none, lowered]

/-- The text executes a block line by line. -/
theorem AtText.steps (atText : AtText E symbols call rmap k m e text running config)
    (emitted : Emitted rmap k m n text) (lawful : E.Lawful) {start : Running T U}
    (serves : Serves (CalledFrom E symbols routine text start) (frameLow m e) (e.read rsp) call
      routine) {before : List Visible}
    (came : (lineMachine E symbols routine text).Goes start before running)
    {events : List Visible} {next' : Ctrl × RegState Int (World T U)}
    (stepped : (((registerInterp (machineSemantics E symbols) call).machine k).project visible).step
      config = some (events, next')) :
    ∃ extra next, (lineMachine E symbols routine text).run (extra + 1) running = (events, next) ∧
      AtText E symbols call rmap k m e text next next' := by
  cases atText with
  | returned => simp [Machine.project, Interp.machine] at stepped
  | @block id b state f s u found represents place orderly =>
    obtain ⟨lifetimes, b', saved, parts, last, behind, allocated, foundM, lines, insns, printed,
      falls⟩ := emitted.exists_blk found
    have machine := Interp.machine_step_block
      (I := registerInterp (machineSemantics E symbols) call) found state
    rw [Machine.project_step machine, Option.some.injEq] at stepped
    obtain ⟨rfl, rfl⟩ := Prod.mk.inj stepped
    obtain ⟨passed, returned, passed'⟩ := place.counts id rfl
    have performed (clobber : Clobber Int (World T U)) := emitted.placed.performed call clobber
      (machineSemantics_lawful E symbols) (Fn.find?_mem found) allocated passed returned passed'
      ⟨place.world, place.needed id b rfl found⟩
    have whole (count : Nat) := orderly (count + 1)
    simp only [Machine.run_succ machine, List.filterMap_append, orderly_append] at whole
    have world : f.state.world = state.core.world := place.world
    have label : (lineMachine E symbols routine text).step
        ⟨.label id :: (parts.flatten ++ (last ++ behind)), s, u⟩ =
          some ([], ⟨parts.flatten ++ (last ++ behind), s, u⟩) := rfl
    rw [lines] at came
    obtain ⟨clobber, s', u', body, represents', sp⟩ := represents.performed symbols text lawful
      serves insns (emitted.printable _ (Fn.find?_mem foundM))
      (once_of_allocated allocated) (fun clobber => by
        rw [(performed clobber).events, access_of_seen, world]
        exact (whole 0).1.1) (last ++ behind) (came.trans (.step label))
    obtain ⟨next, left, atText⟩ := emitted.departs symbols routine call found allocated foundM
      (performed clobber).ends represents' printed falls fun count => by
        have sp' := congrArg World.sp (performed clobber).ends.holds.world
        rw [sp, (performed clobber).events, access_of_seen, world] at sp'
        have later := (whole count).2
        rw [lowered_append, lowered_depart, Int.add_zero, sp'] at later
        exact later
    rw [(performed clobber).events, visible_of_seen] at body
    rw [lines]
    obtain ⟨extra, ran⟩ := Machine.Goes.behind label (body.trans left)
    refine ⟨extra, next, ?_, atText⟩
    exact ran.trans (congrArg (·, next) List.filterMap_append.symm)

variable (symbols) in
/-- Line by line the text does what the function in front of register allocation does block by
block. -/
theorem Emitted.macro (emitted : Emitted rmap k m n text) (lawful : E.Lawful)
    {start : Running T U} (serves : Serves (CalledFrom E symbols routine text start)
      (frameLow m e) (e.read rsp) call routine) :
    Machine.Macro (lineMachine E symbols routine text)
      (((registerInterp (machineSemantics E symbols) call).machine k).project visible)
      (fun running config => (∃ before, (lineMachine E symbols routine text).Goes start before
        running) ∧ AtText E symbols call rmap k m e text running config) where
  halts related := related.2.halts emitted
  steps := by
    rintro running config events next' ⟨⟨before, came⟩, atText⟩ stepped
    obtain ⟨extra, next, ran, behind⟩ := atText.steps emitted lawful serves came stepped
    exact ⟨extra, next, ran, ⟨_, came.trans ⟨_, ran⟩⟩, behind⟩

end Runs

section Start

/-- The text is called in a state, and the function in front of register allocation starts with the
same parameters. Its stack is below the frame. -/
structure Enters (E : Encoding T) (symbols : String → Int) (k m : Fn) (e : MachineState T) (u : U)
    (state : RegState Int (World T U)) : Prop where
  world : state.core.world = ⟨frameLow m e, e.mem, u⟩
  params : ∀ i < 24, e.read (ra i) = state.core.reg (ra i)
  entry : ∀ b b', k.blks.head? = some b → m.blks.head? = some b' →
    List.Forall₂ (fun p p' => e.value p' = (machineSemantics E symbols).value state.core p)
      b.params b'.params
  passed : state.passed = 0
  returned : state.returned = 0

variable (routine) in
/-- Behind the prologue the text stands at the block the function starts in. -/
theorem Emitted.starts (emitted : Emitted rmap k m n text) (lawful : E.Lawful)
    {state : RegState Int (World T U)} (enters : Enters E symbols k m e u state) {b : Blk}
    (first : k.blks.head? = some b)
    (orderly : ∀ count, Orderly (frameLow m e) (e.read rsp) (frameLow m e)
      ((((registerInterp (machineSemantics E symbols) call).machine k).run count
        (Interp.entry k, state)).1.filterMap access)) :
    ∃ running, (lineMachine E symbols routine text).Goes ⟨text, e, u⟩ [] running ∧
      AtText E symbols call rmap k m e text running (Interp.entry k, state) := by
  obtain ⟨rest, blks⟩ := List.head?_eq_some_iff.mp first
  have entry : Interp.entry k = .block b.id := by simp [Interp.entry, blks]
  have found : k.find? b.id = some b := by simp [Fn.find?, blks]
  have images := emitted.placed.blks
  rw [AllocatedBlks, blks] at images
  obtain ⟨_, rest', ⟨_, _, saved, allocated, rfl⟩, -, blks'⟩ := List.forall₂_cons_left_iff.mp images
  have same : saved.b.id = b.id := by rw [allocated.eq]
  obtain ⟨inFrame, regs⟩ := effects_saveState lawful m e u
  -- The lines behind the prologue are those at the label of the first block.
  obtain ⟨parts, printed, text_eq⟩ := output_eq_ok.mp emitted.printed
  rw [blks'] at printed
  obtain ⟨part, behind, head, -, rfl⟩ := List.forall₂_cons_left_iff.mp printed
  have lines : linesAt text b.id = (part :: behind).flatten := by
    rw [text_eq, ← same]
    exact linesAt_blk emitted.allocated (blks'.trans (List.nil_append _).symm) .nil head
  have straight : ∀ l ∈ Line.function m.name :: saveState m, l.straight :=
    List.forall_mem_cons.mpr ⟨rfl, fun l member => saveState_straight m member⟩
  have goes := goes_effects (E := E) symbols routine text straight (part :: behind).flatten e u
  rw [← text_eq, ← lines] at goes
  refine ⟨_, goes, ?_⟩
  let f : FrameState Int (World T U) :=
    frameOf E m e ⟨frameLow m e, e.mem, u⟩ (effects E (saveState m) e)
  have place : AtPlace (machineSemantics E symbols) rmap k (Interp.entry k, state)
      (Interp.entry m, f) := emitted.placed.atPlace {
      world := enters.world.symm
      params := fun i inside =>
        (regs _ (arMap_subset (ra_mem inside))).trans (enters.params i inside)
      entry := fun c c' head head' => ?_
      passed := enters.passed
      returned := enters.returned
      passed' := rfl }
  · rw [emitted.placed.blks.entry, entry] at place
    rw [entry] at orderly ⊢
    refine .block found inFrame.represents place fun count => ?_
    rw [enters.world]
    exact orderly count
  · have params := enters.entry c c' head head'
    have inRegs := (emitted.allocated.inRegs c' (List.mem_of_head? head')).1
    refine ((List.forall₂_and_left _ _).mpr ⟨inRegs, params.flip⟩).flip.imp ?_
    rintro p p' ⟨⟨r, listed, rfl⟩, value⟩
    exact (regs r listed).trans value

/-- A function has blocks when its parser has made it. -/
theorem exists_first {f g h : Fn} (built : Frontend.ParserBuilt f)
    (optimizes : Optimizes f g h k m) : ∃ b, k.blks.head? = some b := by
  obtain ⟨_, converted⟩ := optimizes.converted
  have raw := (BeforeSsa.corrected built optimizes.corrected).raw
  obtain ⟨entry, rest, blks⟩ := List.exists_cons_of_ne_nil raw.nonempty
  obtain ⟨entry', rest', first, -⟩ := (Ssa.ssa_converted raw blks converted).entry blks
  have rewritten := abi0_rewritten optimizes.merged
  rw [RewrittenBlks, first] at rewritten
  obtain ⟨b, _, -, -, blks'⟩ := List.forall₂_cons_left_iff.mp rewritten
  exact ⟨b, by rw [blks']; rfl⟩

end Start

section Text

/-- The text, called in a state, calls the same routines and branches the same way as `k` does. It
returns where `k` returns, and it gives back what `k` leaves behind, with as many calls made. -/
structure RunsLike (E : Encoding T) (symbols : String → Int) (routine : Routine T U)
    (call : Callee Int (World T (U × Nat))) (k m : Fn) (text : List Line) (e : MachineState T)
    (u : U) (state : RegState Int (World T (U × Nat))) : Prop where
  performs : ∀ events, (lineMachine E symbols routine text).Performs ⟨text, e, u⟩ events ↔
    (((registerInterp (machineSemantics E symbols) call).machine k).project visible).Performs
      (Interp.entry k, state) events
  halts : ∀ events running, (lineMachine E symbols routine text).Halts ⟨text, e, u⟩ events running →
    (∃ rest, running.lines = .ret :: rest) ∧ ∃ final made,
      (((registerInterp (machineSemantics E symbols) call).machine k).project visible).Halts
        (Interp.entry k, state) events (.returned, final) ∧
      GivesBack m e final running.state (running.outside, made)
  returns : ∀ events ctrl final,
    (((registerInterp (machineSemantics E symbols) call).machine k).project visible).Halts
      (Interp.entry k, state) events (ctrl, final) → ctrl = .returned ∧
      ∃ running made, (lineMachine E symbols routine text).Halts ⟨text, e, u⟩ events running ∧
        GivesBack m e final running.state (running.outside, made)

variable (routine) in
/-- Where the text has halted, both have returned. -/
theorem AtText.returned_of_halted {running : Running T U}
    {config : Ctrl × RegState Int (World T U)}
    (atText : AtText E symbols call rmap k m e text running config)
    (emitted : Emitted rmap k m n text)
    (halted : (lineMachine E symbols routine text).step running = none) :
    (∃ rest, running.lines = .ret :: rest) ∧ config.1 = .returned ∧
      GivesBack m e config.2 running.state running.outside := by
  cases atText with
  | block found =>
    obtain ⟨_, _, _, _, _, _, -, -, lines, -⟩ := emitted.exists_blk found
    rw [lines] at halted
    cases halted
  | returned back => exact ⟨⟨_, rfl⟩, rfl, back⟩

/-- What `regalloc` and `output` make of a function that the passes in front of them made. -/
theorem exists_emitted {f g h : Fn} {a : Allocation} {blks : List Blk}
    (built : Frontend.ParserBuilt f) (noAddr : ∀ b ∈ f.blks, ∀ i ∈ b.insns, i.type ≠ .addr)
    (few : ∀ b ∈ f.blks, InRegisters b.insns) (optimizes : Optimizes f g h k m)
    (allocated : allocBlks (.start k) k.blks = .ok (a, blks))
    (separated : ∀ b ∈ k.blks, Separated (registerOf a.rmap) b)
    (assumed : ∀ b ∈ m.blks, ∀ n ∈ b.insns, Assumed n) (edges : ∀ b ∈ m.blks, SoundEdges m b)
    (printed : output m = .ok text) : ∃ n, Emitted a.rmap k m n text := by
  obtain ⟨n, converted⟩ := optimizes.converted
  have same := optimizes.allocated
  rw [regalloc, allocated] at same
  obtain rfl := Except.ok.inj same
  exact ⟨n, {
    placed := placed_of_allocBlks built noAddr few optimizes.corrected converted optimizes.merged
      allocated separated
    allocated := optimizes.isAllocated built
    fits := optimizes.fitsFrame built
    printable := fun b member i inside =>
      optimizes.printable built noAddr member inside (assumed b member i inside)
    tidy := optimizes.tidy built noAddr
    edges
    printed }⟩

/-- A printed text runs as the function in front of register allocation does, with callees that do
what the contract allows. -/
theorem Emitted.exists_runsLike (emitted : Emitted rmap k m n text) {b : Blk}
    (first : k.blks.head? = some b) (lawful : E.Lawful) (symbols : String → Int)
    {contract : Contract T U} {routine : Routine T U} {u : U}
    {state : RegState Int (World T (U × Nat))}
    (conforms : Conforms (frameLow m e) (e.read rsp) contract routine)
    (enters : Enters E symbols k m e (u, 0) state)
    (orderly : ∀ calls, (∀ n, contract.Permits (frameLow m e) (calls n)) → ∀ count,
      Orderly (frameLow m e) (e.read rsp) (frameLow m e)
        ((((registerInterp (machineSemantics E symbols) (inTurn calls)).machine k).run count
          (Interp.entry k, state)).1.filterMap access)) :
    ∃ calls, (∀ n, contract.Permits (frameLow m e) (calls n)) ∧
      RunsLike E symbols routine (inTurn calls) k m text e u state := by
  obtain ⟨calls, permits, serves⟩ := conforms.exists_inTurn E symbols text ⟨text, e, (u, 0)⟩
  obtain ⟨running, goes, start⟩ :=
    emitted.starts (counted routine) lawful enters first (orderly calls permits)
  have simulation := emitted.macro symbols lawful serves
  have came : ∃ before, (lineMachine E symbols (counted routine) text).Goes ⟨text, e, (u, 0)⟩ before
      running := ⟨_, goes⟩
  -- The count of the calls is not seen.
  have forgets := lineMachine_forgets E symbols routine text
  let counting : Running T (U × Nat) := ⟨text, e, (u, 0)⟩
  have performs (events : List Visible) :
      (lineMachine E symbols routine text).Performs counting.forget events ↔
        (lineMachine E symbols (counted routine) text).Performs counting events :=
    forgets.performs_iff events
  have halts {events : List Visible} {final : Running T U} :
      (lineMachine E symbols routine text).Halts counting.forget events final ↔
        ∃ final', (lineMachine E symbols (counted routine) text).Halts counting events final' ∧
          final'.forget = final :=
    forgets.halts_iff
  refine ⟨calls, permits, {
    performs := fun events => (performs events).trans
      ((goes.performs_iff events).trans (simulation.performs_iff ⟨came, start⟩ events))
    halts := fun events final halted => ?_
    returns := fun events ctrl final halted => ?_ }⟩
  · obtain ⟨final', ended, rfl⟩ := halts.mp halted
    obtain ⟨⟨ctrl, state'⟩, halted', -, atText⟩ :=
      simulation.halts_of_first ⟨came, start⟩ (goes.halts_iff.mp ended)
    obtain ⟨last, rfl, back⟩ := atText.returned_of_halted (counted routine) emitted
      ended.choose_spec.2
    exact ⟨last, state', final'.outside.2, halted', back⟩
  · obtain ⟨running', halted', -, atText⟩ := simulation.halts_of_second ⟨came, start⟩ halted
    obtain ⟨-, returned, back⟩ := atText.returned_of_halted (counted routine) emitted
      halted'.choose_spec.2
    exact ⟨returned, running'.forget, running'.outside.2,
      halts.mpr ⟨running', goes.halts_iff.mpr halted', rfl⟩, back⟩

/-- Register allocation and printing preserve the meaning, where no instruction writes the register
of a value that is still needed, and the moves and the branch at the end of a block do not disturb
each other. With routines that keep the convention the text runs as the function does with callees
that do what the contract allows, provided that with no such callees a load or a store of the user
reaches into the frame or the stack pointer is moved above it. -/
theorem output_preserves {f g h : Fn} {a : Allocation} {blks : List Blk}
    (built : Frontend.ParserBuilt f) (noAddr : ∀ b ∈ f.blks, ∀ i ∈ b.insns, i.type ≠ .addr)
    (few : ∀ b ∈ f.blks, InRegisters b.insns) (optimizes : Optimizes f g h k m)
    (allocated : allocBlks (.start k) k.blks = .ok (a, blks))
    (separated : ∀ b ∈ k.blks, Separated (registerOf a.rmap) b)
    (assumed : ∀ b ∈ m.blks, ∀ n ∈ b.insns, Assumed n) (edges : ∀ b ∈ m.blks, SoundEdges m b)
    (printed : output m = .ok text) :
    ∀ {T U : Type} {E : Encoding T}, E.Lawful → ∀ (symbols : String → Int)
      (contract : Contract T U) (routine : Routine T U) (e : MachineState T) (u : U)
      (state : RegState Int (World T (U × Nat))),
        Conforms (frameLow m e) (e.read rsp) contract routine →
        Enters E symbols k m e (u, 0) state →
        (∀ calls, (∀ n, contract.Permits (frameLow m e) (calls n)) → ∀ count,
          Orderly (frameLow m e) (e.read rsp) (frameLow m e)
            ((((registerInterp (machineSemantics E symbols) (inTurn calls)).machine k).run count
              (Interp.entry k, state)).1.filterMap access)) →
        ∃ calls, (∀ n, contract.Permits (frameLow m e) (calls n)) ∧
          RunsLike E symbols routine (inTurn calls) k m text e u state := by
  obtain ⟨n, emitted⟩ :=
    exists_emitted built noAddr few optimizes allocated separated assumed edges printed
  obtain ⟨b, first⟩ := exists_first built optimizes
  exact fun lawful symbols contract routine e u state conforms enters orderly =>
    emitted.exists_runsLike first lawful symbols conforms enters orderly

/-- Instructions that neither access memory nor move the stack pointer. -/
def NoAccess (type : InsnType) : Prop :=
  type ≠ .load ∧ type ≠ .store ∧ type ≠ .alloc ∧ type ≠ .dealloc

instance (type : InsnType) : Decidable (NoAccess type) :=
  inferInstanceAs (Decidable (type ≠ .load ∧ type ≠ .store ∧ type ≠ .alloc ∧ type ≠ .dealloc))

/-- Instructions without access to memory make none. -/
theorem insnAccess_eq_none {type : InsnType} (noAccess : NoAccess type) (vtype : VType)
    (base v : Int) : insnAccess type vtype base v = none := by
  obtain ⟨load, store, alloc, dealloc⟩ := noAccess
  cases type <;> first | rfl | contradiction

/-- A function without accesses makes none in its runs. -/
theorem accesses_of_noAccess {S : Semantics Int (World T U)}
    (noAccess : ∀ b ∈ k.blks, ∀ n ∈ b.insns, NoAccess n.type) (count : Nat)
    (config : Ctrl × RegState Int (World T U)) :
    (((registerInterp S call).machine k).run count config).1.filterMap access = [] := by
  refine List.filterMap_eq_nil_iff.mpr (Interp.run_events ?_ ?_ ?_ count config)
  · intro taken event member
    rw [List.mem_singleton.mp member]
    rfl
  · intro state event member
    rw [List.mem_singleton.mp member]
    rfl
  · intro b listed n inside state event member
    cases event with
    | insn type =>
      obtain rfl : type = n.type := by
        simp only [registerInterp] at member
        split at member <;> (try split at member) <;> simp_all
      exact insnAccess_eq_none (noAccess b listed n inside) _ _ _
    | _ => rfl

/-- What `_putchar` does: it writes its argument. What it leaves below the stack pointer and in the
argument registers is open. -/
def writesArgument : Contract Int (List Int) := fun _ args world outcome =>
  outcome.2.sp = world.sp ∧ (∀ i, world.sp ≤ i → outcome.2.mem i = world.mem i) ∧
    ∀ w, args 0 = some w → outcome.2.outside = w :: world.outside

/-- A routine that saves `fp` below the stack pointer and writes its argument. -/
def putchar : Routine Int (List Int) := fun _ s u =>
  ({ regs := fun r => if r ∈ arMap then s.read rsp else s.regs r
     mem := storeMem Encoding.whole .word s.mem (s.read rsp - 3) (s.read rfp) },
    s.read (ra 0) :: u)

/-- Printing the first argument keeps the convention. -/
theorem putchar_conforms (low high : Int) : Conforms low high writesArgument putchar := by
  intro target args world s u finds below same
  have kept {r : Nat} (other : r ∉ arMap) : (putchar target s u).1.read r = s.read r := by
    simp [putchar, MachineState.read, other]
  have above {i : Int} (from' : world.sp ≤ i) : (putchar target s u).1.mem i = s.mem i := by
    have outside : s.read rsp - 3 + Width.word.size ≤ i := by
      rw [same.sp]
      simp only [Width.size]
      omega
    exact storeMem_of_outside (Or.inr outside)
  refine ⟨⟨fun r listed => kept ?_, fun i inside _ => above (Int.le_trans below inside)⟩,
    (kept (by decide)).trans same.sp, fun i from' => ?_, fun w passed => ?_⟩
  · have disjoint : ∀ r ∈ rsp :: rfp :: rsMap, r ∉ arMap := by decide
    exact disjoint r listed
  · simp only [leaves]
    split
    · rfl
    · rename_i outside
      rw [above from', same.mem i (by simp only [Beside]; omega)]
  · have found := finds 0 (by decide) w passed
    have outside := same.outside
    subst found outside
    rfl

/-- The loop test on its way through the compiler. -/
theorem simpleLoop_stages : ∃ f g h k m a blks text,
    Frontend.buildFunction 0 Frontend.simpleLoop = .ok f ∧ Optimizes f g h k m ∧
      allocBlks (.start k) k.blks = .ok (a, blks) ∧ output m = .ok text ∧
      (∀ b ∈ f.blks, ∀ i ∈ b.insns, i.type ≠ .addr) ∧ (∀ b ∈ f.blks, b.cmp1.isImm = false) ∧
      (∀ b ∈ f.blks, InRegisters b.insns) ∧ (∀ b ∈ k.blks, Separated (registerOf a.rmap) b) ∧
      (∀ b ∈ m.blks, ∀ i ∈ b.insns, Assumed i) ∧ (∀ b ∈ m.blks, SoundEdges m b) ∧
      (∀ b ∈ k.blks, ∀ i ∈ b.insns, NoAccess i.type) ∧
      (∀ b, k.blks.head? = some b → b.params = []) ∧
      ∃ b, m.blks.head? = some b ∧ b.params = [] := by
  have ran : ∃ f g ri h n k a blks m text b₁ b₂ b₃ b₄,
      Frontend.buildFunction 0 Frontend.simpleLoop = .ok f ∧
      correct 20 f f.ntmp = .ok (g, ri) ∧ ssa { g with ntmp := ri } = .ok (h, n) ∧
        abi0 h = .ok k ∧ allocBlks (.start k) k.blks = .ok (a, blks) ∧ regalloc k = .ok m ∧
          output m = .ok text ∧ m.blks = [b₁, b₂, b₃, b₄] ∧
          (b₁.btype = .j ∧ edgeMoves m b₁.s2 b₁.args2 = [(11, 11), (12, 12), (13, 13)]) ∧
          (b₂.btype = .blt ∧ comparison b₂ = some (.lt, 11, 12) ∧
            edgeMoves m b₂.s2 b₂.args2 = [(11, 11), (12, 12), (13, 13)] ∧
            edgeMoves m b₂.s1 b₂.args1 = [(4, 13)]) ∧
          (b₃.btype = .j ∧ edgeMoves m b₃.s2 b₃.args2 = []) ∧ b₄.btype = .ret ∧
          (∀ b ∈ f.blks, ∀ i ∈ b.insns, i.type ≠ .addr) ∧
          (∀ b ∈ f.blks, b.cmp1.isImm = false) ∧ (∀ b ∈ f.blks, InRegisters b.insns) ∧
          (∀ b ∈ k.blks, Separated (registerOf a.rmap) b) ∧
          (∀ b ∈ k.blks, ∀ i ∈ b.insns, NoAccess i.type) ∧
          (∀ b ∈ m.blks, ∀ i ∈ b.insns, i.type ≠ .sub ∧ (i.type = .copy → i.in0.isImm) ∧
            i.type ≠ .alloc) ∧
          (∀ b, k.blks.head? = some b → b.params = []) ∧ b₁.params = [] :=
    ⟨_, _, _, _, _, _, _, _, _, _, _, _, _, _, by rfl, by rfl, by rfl, by rfl, by rfl, by rfl,
      by rfl, by rfl, ⟨by rfl, by rfl⟩, ⟨by rfl, by rfl, by rfl, by rfl⟩, ⟨by rfl, by rfl⟩,
      by rfl, by decide, by decide, by decide, by decide, by decide, by decide,
      by rintro _ ⟨⟩; rfl, by rfl⟩
  obtain ⟨f, g, ri, h, n, k, a, blks, m, text, b₁, b₂, b₃, b₄, parsed, corrected, converted, merged,
    allocated, returned, printed, blksM, ⟨jump₁, moves₁⟩, ⟨type₂, compares₂, taken₂, falls₂⟩,
    ⟨jump₃, moves₃⟩, ret₄, noAddr, noImm, few, separated, noAccess, plain, none, none'⟩ := ran
  have sequential3 : ParallelMove.Sequential [(11, 11), (12, 12), (13, 13)] :=
    ⟨by unfold ParallelMove.Functional; decide, ParallelMove.acyclic_of_rank id (by decide)⟩
  have sequential1 : ParallelMove.Sequential [(4, 13)] :=
    ⟨by unfold ParallelMove.Functional; decide, ParallelMove.acyclic_of_rank id (by decide)⟩
  have sequential0 : ParallelMove.Sequential ([] : List (Nat × Nat)) :=
    ⟨by unfold ParallelMove.Functional; decide, ParallelMove.acyclic_of_rank id (by decide)⟩
  have unclobbered (r : Nat) :
      ¬ ParallelMove.Clobbers [(11, 11), (12, 12), (13, 13)] r := by
    simp [ParallelMove.Clobbers]
    omega
  have uncompared {b : Blk} (type : b.btype = .j ∨ b.btype = .ret) :
      comparison b = Option.none := by
    rcases type with type | type <;> rw [comparison, type]
  refine ⟨f, _, h, k, m, a, blks, text, parsed,
    ⟨⟨20, g, ri, corrected, rfl⟩, ⟨n, converted⟩, merged, returned⟩, allocated, printed, noAddr,
    noImm, few, separated, fun b member i inside => ?_, fun b member => ?_, noAccess, none, b₁,
    by rw [blksM]; rfl, none'⟩
  · obtain ⟨noSub, copies, noAlloc⟩ := plain b member i inside
    exact ⟨fun type => absurd type noSub, copies, fun type => absurd type noAlloc⟩
  · rw [blksM] at member
    simp only [List.mem_cons, List.not_mem_nil, or_false] at member
    rcases member with rfl | rfl | rfl | rfl
    · exact ⟨fun _ => moves₁ ▸ sequential3, by simp [uncompared (Or.inl jump₁)]⟩
    · refine ⟨by simp [type₂], fun cond left right compares => ?_⟩
      rw [compares₂, Option.some.injEq, Prod.mk.injEq, Prod.mk.injEq] at compares
      obtain ⟨rfl, rfl, rfl⟩ := compares
      rw [taken₂, falls₂]
      exact ⟨fun _ => sequential3, fun _ _ => ⟨unclobbered 11, unclobbered 12⟩,
        fun _ _ _ => unclobbered _, fun _ => sequential1⟩
    · exact ⟨fun _ => moves₃ ▸ sequential0, by simp [uncompared (Or.inl jump₃)]⟩
    · exact ⟨by simp [ret₄], by simp [uncompared (Or.inr ret₄)]⟩

/-- The loop test on any machine with a `_putchar` that saves a register of its own. -/
theorem output_preserves_simpleLoop :
    ∃ f g h k m text, Frontend.buildFunction 0 Frontend.simpleLoop = .ok f ∧
      Optimizes f g h k m ∧ output m = .ok text ∧
        ∀ (symbols : String → Int) (e : MachineState Int), ∃ calls,
          (∀ n, writesArgument.Permits (frameLow m e) (calls n)) ∧
          RunsLike Encoding.whole symbols putchar (inTurn calls) k m text e []
            ⟨⟨fun _ => 0, e.read, ⟨frameLow m e, e.mem, ([], 0)⟩⟩, 0, 0⟩ := by
  obtain ⟨f, g, h, k, m, a, blks, text, parsed, optimizes, allocated, printed, noAddr, -, few,
    separated, assumed, edges, noAccess, none, b', first', none'⟩ := simpleLoop_stages
  refine ⟨f, g, h, k, m, text, parsed, optimizes, printed, fun symbols e => ?_⟩
  refine output_preserves ⟨0, _, parsed⟩ noAddr few optimizes allocated separated assumed edges
    printed Encoding.whole_lawful symbols _ _ e [] _ (putchar_conforms _ _) ?_
      fun calls _ count => ?_
  · refine ⟨rfl, fun _ _ => rfl, fun b c first second => ?_, rfl, rfl⟩
    obtain rfl := Option.some.inj (first'.symm.trans second)
    rw [none b first, none']
    exact .nil
  · rw [accesses_of_noAccess noAccess]
    exact Int.le_refl _

end Text

end Qbt.Asm
