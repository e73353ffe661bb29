import Qbt.Regalloc.Simulation

/-!
# Register allocation preserves the meaning

Block by block, edge by edge: what a block needs at its start are its parameters, and in the block a
function starts in also the registers with the parameters of the function.
-/

namespace Qbt.Regalloc

open Abi Interference

section Entry

variable {b : Blk} {v : Val}

/-- A plain block or one with a call, by its sections. -/
theorem parts_of_sections (sections : Sections b) :
    (∃ front values, PlainParts b front values) ∨
      ∃ front args called results, CallParts b front args called results := by
  cases sections with
  | plain split leads passes returns => exact Or.inl ⟨_, _, split, leads, passes, returns⟩
  | calls split leads passes calls fetches =>
    exact Or.inr ⟨_, _, _, _, split, leads, passes, calls, fetches⟩

/-- Why a value is needed when a block begins: an instruction up to the call reads it, or it is used
at the end, and nothing writes it before. -/
inductive Needed (b : Blk) (v : Val) : Prop where
  | read {first rest : List Insn} {n : Insn} (split : b.insns = first ++ n :: rest)
      (place : v.IsPlace) (reads : v = n.in0 ∨ v = n.in1)
      (front : n.flags.callTeardown = false ∨ n.type = .call)
      (unwritten : ∀ m ∈ first, m.out ≠ v) : Needed b v
  | used (isTmp : v.isTmp) (used : v ∈ b.usedAtEnd) (unwritten : ∀ m ∈ b.insns, m.out ≠ v) :
      Needed b v

private theorem out_ne {insns : List Insn} (place : v.IsPlace)
    (unwritten : ∀ l ∈ insns.map Insn.line, l.write ≠ some v) : ∀ m ∈ insns, m.out ≠ v :=
  fun _ member same => unwritten _ (List.mem_map_of_mem member) (Insn.line_write.mpr ⟨same, place⟩)

/-- Where some lines of a block read a value first. -/
private theorem read_first {insns : List Insn} {first after : List (Line Val)} {l : Line Val}
    (split : insns.map Insn.line = first ++ l :: after) (read : v ∈ l.reads)
    (unwritten : ∀ m ∈ first, m.write ≠ some v) :
    ∃ before n rest, insns = before ++ n :: rest ∧ v.IsPlace ∧ (v = n.in0 ∨ v = n.in1) ∧
      ∀ m ∈ before, m.out ≠ v := by
  obtain ⟨before, behind, rfl, rfl, behind'⟩ := List.map_eq_append_iff.mp split
  obtain ⟨n, rest, rfl, rfl, rfl⟩ := List.map_eq_cons_iff.mp behind'
  exact ⟨before, n, rest, rfl, read.1, read.2, out_ne read.1 unwritten⟩

/-- What is live at the entry of a block without a call is needed. -/
theorem PlainParts.needed {front values : List Insn} (parts : PlainParts b front values)
    (before : BeforeAlloc b) (member : v ∈ atEntry b) : Needed b v := by
  obtain ⟨whole, noSetup, nothing⟩ := parts.eq before
  have straight := parts.straight before
  rw [atEntry, whole] at member
  rcases not_written_of_live member with ⟨first, l, after, split, read, unwritten⟩ |
    ⟨setup, unwritten⟩
  · obtain ⟨first, n, rest, split, place, reads, unwritten⟩ := read_first split read unwritten
    refine .read split place reads (Or.inl ?_) unwritten
    have member : n ∈ front ++ values := by rw [← parts.split, split]; simp
    rcases List.mem_append.mp member with lead | value
    · cases parts.leads n lead with
      | fetch _ same => rw [same]; rfl
      | plain _ _ _ _ none => rw [none]
    · obtain ⟨k, at'⟩ := passesAt_of_mem parts.passes n value
      obtain ⟨how, in0, -, -, rfl⟩ := at'.same
      rfl
  · rw [atSetup, noSetup] at setup
    rcases setup with (⟨-, called, found, -⟩ | ⟨isReg, n, inside, out⟩) | ⟨isTmp, used⟩
    · have type : called.type = .call := by
        simpa using List.find?_some (p := fun n : Insn => n.type = .call) found
      exact absurd type (straight called (mem_of_callOf found)).call
    · exact absurd out (out_ne (Or.inr isReg) unwritten n (mem_of_mem_untilCall inside))
    · rw [nothing] at used
      exact .used isTmp used (out_ne (Or.inl isTmp) unwritten)

/-- What is live at the entry of a block with a call is needed. -/
theorem CallParts.needed {front args results : List Insn} {called : Insn}
    (parts : CallParts b front args called results) (before : BeforeAlloc b)
    (member : v ∈ atEntry b) : Needed b v := by
  obtain ⟨whole, set, behind, until', calledOf⟩ := parts.eq before
  rw [atEntry, whole] at member
  rcases not_written_of_live member with ⟨first, l, after, split, read, unwritten⟩ |
    ⟨setup | across, unwritten⟩
  · obtain ⟨first, n, rest, split, place, reads, unwritten⟩ := read_first split read unwritten
    have split' : b.insns = first ++ n :: (rest ++ args ++ called :: results) := by
      simp [parts.split, split]
    refine .read split' place reads (Or.inl ?_) unwritten
    cases parts.leads n (by simp [split]) with
    | fetch _ same => rw [same]; rfl
    | plain _ _ _ _ none => rw [none]
  · rw [set] at setup
    rcases not_written_of_live setup with ⟨first, l, after, split, read, unwritten'⟩ |
      ⟨⟨place, call, found, operand⟩ | ⟨isReg, n, inside, out⟩, unwritten'⟩
    · obtain ⟨first, n, rest, split, place, reads, unwritten'⟩ := read_first split read unwritten'
      have split' : b.insns = (front ++ first) ++ n :: (rest ++ called :: results) := by
        simp [parts.split, split]
      refine .read split' place reads (Or.inl ?_) ?_
      · obtain ⟨k, at'⟩ := passesAt_of_mem parts.passes n (by simp [split])
        obtain ⟨how, in0, -, -, rfl⟩ := at'.same
        rfl
      · exact List.forall_mem_append.mpr ⟨out_ne place unwritten, unwritten'⟩
    · obtain rfl : call = called := Option.some.inj (found.symm.trans calledOf)
      exact .read parts.split place operand (Or.inr parts.calls.type)
        (List.forall_mem_append.mpr ⟨out_ne place unwritten, out_ne place unwritten'⟩)
    · rw [until'] at inside
      exact absurd out (List.forall_mem_append.mpr
        ⟨out_ne (Or.inr isReg) unwritten, out_ne (Or.inr isReg) unwritten'⟩ n inside)
  · obtain ⟨used, others⟩ := parts.across before across
    have isTmp := across.1
    refine .used isTmp used fun m member => ?_
    simp only [parts.split, List.mem_append, List.mem_cons] at member
    rcases member with (front | arg) | rfl | result
    · exact out_ne (Or.inl isTmp) unwritten m front
    · obtain ⟨k, at'⟩ := passesAt_of_mem parts.passes m arg
      obtain ⟨how, in0, -, -, rfl⟩ := at'.same
      rintro rfl
      cases isTmp
    · rw [parts.calls.out]
      rintro rfl
      cases isTmp
    · exact others m result

private theorem needed_of_atEntry (sections : Sections b) (before : BeforeAlloc b)
    (member : v ∈ atEntry b) : Needed b v := by
  rcases parts_of_sections sections with ⟨_, _, parts⟩ | ⟨_, _, _, _, parts⟩
  · exact parts.needed before member
  · exact parts.needed before member

private theorem Needed.isPlace (needed : Needed b v) : v.IsPlace := by
  cases needed with
  | read _ place => exact place
  | used isTmp => exact Or.inl isTmp

/-- The temporaries that are needed are parameters. -/
theorem Needed.param {t : Nat} (needed : Needed b (.tmp t)) (uses : b.UsesDefined) :
    .tmp t ∈ b.params := by
  have unwritten {insns : List Insn} (none : ∀ m ∈ insns, m.out ≠ .tmp t) : t ∉ definedIn insns :=
    fun ⟨m, listed, written⟩ => none m listed written
  cases needed with
  | read split _ reads _ none =>
    exact (uses.reads _ _ _ split (reads.imp Eq.symm Eq.symm)).resolve_right (unwritten none)
  | used _ used none =>
    obtain ⟨-, first | second | arg | arg⟩ := used
    · exact (uses.compared (Or.inl first.symm)).resolve_right (unwritten none)
    · exact (uses.compared (Or.inr second.symm)).resolve_right (unwritten none)
    · exact (uses.args1 arg).resolve_right (unwritten none)
    · exact (uses.args2 arg).resolve_right (unwritten none)

/-- A register that is needed holds a parameter of the function. -/
theorem Needed.reg {r : Nat} (needed : Needed b (.reg r)) (sections : Sections b) :
    (∃ k < 24, r = ra k) ∧ ∃ n ∈ b.insns, n.in0.isReg ∧ n.flags.callTeardown = false := by
  cases needed with
  | used isTmp => cases isTmp
  | @read first rest n split _ reads front =>
    have member : n ∈ b.insns := by rw [split]; simp
    have lead (leads : Leads n) : (∃ k < 24, r = ra k) ∧ n.in0.isReg ∧
        n.flags.callTeardown = false := by
      cases leads with
      | @fetch t k inside same =>
        subst same
        rcases reads with same | same
        · cases same
          exact ⟨⟨k, inside, rfl⟩, rfl, rfl⟩
        · cases same
      | plain _ _ in0 in1 none =>
        rcases reads with same | same
        · rw [← same] at in0
          cases in0
        · rw [← same] at in1
          cases in1
    have pass {flags : Flags} {k : Nat} (passes : PassesAt flags k n) : False := by
      obtain ⟨how, in0, -, noReg, rfl⟩ := passes.same
      rcases reads with same | same
      · have same : Val.reg r = in0 := same
        rw [← same] at noReg
        cases noReg
      · cases same
    suffices leads : Leads n from ⟨(lead leads).1, n, member, (lead leads).2⟩
    rcases parts_of_sections sections with ⟨front, values, parts⟩ |
      ⟨front, args, called, results, parts⟩
    · rw [parts.split] at member
      rcases List.mem_append.mp member with leads | value
      · exact parts.leads n leads
      · obtain ⟨k, at'⟩ := passesAt_of_mem parts.passes n value
        exact (pass at').elim
    · simp only [parts.split, List.mem_append, List.mem_cons] at member
      rcases member with (leads | arg) | rfl | result
      · exact parts.leads n leads
      · obtain ⟨k, at'⟩ := passesAt_of_mem parts.passes n arg
        exact (pass at').elim
      · rcases reads with same | same
        · have noReg := parts.calls.in0
          rw [← same] at noReg
          cases noReg
        · have none := parts.calls.in1
          rw [← same] at none
          cases none
      · obtain ⟨t, k, -, rfl⟩ := parts.fetches n result
        rcases front with other | other
        · cases other
        · cases other

end Entry

section Functions

variable {rmap : List Val} {k m : Fn} {n : Nat}

private theorem mapM_rewriteTmp_eq {vals vals' : List Val}
    (mapped : vals.mapM (rewriteTmp rmap) = .ok vals') : vals' = vals.map (registerOf rmap) := by
  have entries := Result.mapM_eq_ok.mp mapped
  induction entries with
  | nil => rfl
  | cons head _ ih =>
    obtain ⟨t, rfl, rule, -⟩ := rewriteTmp_eq_ok.mp head
    rw [List.map_cons, ← ih (Result.mapM_eq_ok.mpr ‹_›), ← rule]
    rfl

/-- What `do_rewrites` makes of a block beside its instructions. -/
theorem doRewrites_eq {b b' : Blk} (rewritten : doRewrites b rmap = .ok b') :
    b' = { b with
      insns := b'.insns
      params := b.params.map (registerOf rmap)
      cmp0 := registerOf rmap b.cmp0
      cmp1 := registerOf rmap b.cmp1
      args1 := b.args1.map (registerOf rmap)
      args2 := b.args2.map (registerOf rmap) } := by
  simp only [doRewrites, Result.bind_eq_ok, Result.pure_eq, Except.ok.injEq] at rewritten
  obtain ⟨params, params', _, _, _, cmp0, _, cmp1, args1, args1', args2, args2', rfl⟩ := rewritten
  rw [mapM_rewriteTmp_eq params', rewriteUse_eq cmp0, rewriteUse_eq cmp1,
    mapM_rewriteTmp_eq args1', mapM_rewriteTmp_eq args2']

/-- `m` is what `regalloc` makes of `k` by the rules `rmap`. -/
def AllocatedBlks (rmap : List Val) (k m : Fn) : Prop :=
  List.Forall₂ (fun b b'' => ∃ lifetimes b' saved, AllocatedTo rmap b lifetimes b' saved ∧
    b'' = saved.b) k.blks m.blks

/-- A block of an allocated function. -/
theorem AllocatedTo.eq {b b' : Blk} {lifetimes : List Lifetime} {saved : Saving}
    (allocated : AllocatedTo rmap b lifetimes b' saved) :
    saved.b = { b with
      insns := saved.b.insns
      params := b.params.map (registerOf rmap)
      cmp0 := registerOf rmap b.cmp0
      cmp1 := registerOf rmap b.cmp1
      args1 := b.args1.map (registerOf rmap)
      args2 := b.args2.map (registerOf rmap) } := by
  have insns := allocated.saves.insns
  rw [doRewrites_eq allocated.rewritten] at insns
  exact insns

/-- A block is found allocated under its name. -/
theorem AllocatedBlks.find? (allocated : AllocatedBlks rmap k m) {id : Nat} {b : Blk}
    (found : k.find? id = some b) : ∃ lifetimes b' saved,
      AllocatedTo rmap b lifetimes b' saved ∧ m.find? id = some saved.b := by
  obtain ⟨_, found', lifetimes, b', saved, allocated, rfl⟩ := Lists.find?_forall₂ allocated
    (q := fun b => b.id == id) (fun b b'' same => by
      obtain ⟨_, _, _, allocated, rfl⟩ := same
      rw [allocated.eq]) found
  exact ⟨lifetimes, b', saved, allocated, found'⟩

theorem AllocatedBlks.find?_none (allocated : AllocatedBlks rmap k m) {id : Nat}
    (absent : k.find? id = none) : m.find? id = none := by
  cases found : m.find? id with
  | none => rfl
  | some b'' =>
    obtain ⟨b, found', -⟩ := Lists.find?_forall₂ allocated.flip
      (q := fun b => b.id == id) (fun b'' b same => by
        obtain ⟨_, _, _, allocated, rfl⟩ := same
        rw [allocated.eq]) found
    have found' : k.find? id = some b := found'
    rw [absent] at found'
    cases found'

/-- The entry block stays the entry block. -/
theorem AllocatedBlks.entry (allocated : AllocatedBlks rmap k m) :
    Interp.entry m = Interp.entry k := by
  unfold Interp.entry
  cases blks : k.blks with
  | nil =>
    have blks' : m.blks = [] := by simpa [AllocatedBlks, blks] using allocated
    simp [blks']
  | cons b rest =>
    rw [AllocatedBlks, blks] at allocated
    obtain ⟨_, rest', ⟨_, _, _, first, rfl⟩, -, blks'⟩ := List.forall₂_cons_left_iff.mp allocated
    rw [blks']
    dsimp only
    rw [first.eq]

/-- `m` computes in registers what `k` computes in temporaries: by the rules every block of `k` is
separated. -/
structure Placed (rmap : List Val) (k m : Fn) (n : Nat) : Prop where
  input : AllocInput k n
  form : CallForm k
  rules : RulesIn rmap
  separated : ∀ b ∈ k.blks, Separated (registerOf rmap) b
  blks : AllocatedBlks rmap k m

end Functions

section Lockstep

variable {W M : Type} {S : Semantics W M} {call : Callee W M} {clobber : Clobber W M}
  {rmap : List Val} {k m : Fn} {n : Nat}

/-- Both functions stand at the same place. In a block the registers hold what it needs, and behind
the function they hold the returned values. -/
structure AtPlace (S : Semantics W M) (rmap : List Val) (k : Fn) (config : Ctrl × RegState W M)
    (config' : Ctrl × FrameState W M) : Prop where
  control : config'.1 = config.1
  world : config'.2.state.world = config.2.core.world
  counts : ∀ id, config.1 = .block id →
    config.2.passed = 0 ∧ config.2.returned = 0 ∧ config'.2.passed = 0
  needed : ∀ id b, config.1 = .block id → k.find? id = some b → ∀ v ∈ atEntry b,
    S.value config'.2.state (registerOf rmap v) = S.value config.2.core v
  returns : config.1 = .returned → ∀ i < config.2.returned,
    config'.2.state.reg (ra i) = config.2.core.reg (ra i)

variable (S) in
/-- Parameters in their registers get the values of the arguments in theirs. -/
theorem assign_registers {params args : List Val} (length : params.length = args.length)
    (temps : ∀ p ∈ params, p.isTmp) (nodup : params.Nodup)
    (ruled : ∀ p ∈ params, (registerOf rmap p).isReg)
    (distinct : (params.map (registerOf rmap)).Nodup) {core core' : State W M}
    (holds : ∀ a ∈ args, S.value core' (registerOf rmap a) = S.value core a) :
    ∀ p ∈ params, S.value (S.assign (params.map (registerOf rmap)) (args.map (registerOf rmap))
      core') (registerOf rmap p) = S.value (S.assign params args core) p := by
  have old := S.assign_values core length.symm nodup fun p member => Or.inl (temps p member)
  have length' : (args.map (registerOf rmap)).length = (params.map (registerOf rmap)).length := by
    simp [length]
  have new := S.assign_values core' length' distinct fun p' member => by
    obtain ⟨p, listed, rfl⟩ := List.mem_map.mp member
    exact Or.inr (ruled p listed)
  rw [List.forall₂_map_left_iff, List.forall₂_map_right_iff] at new
  intro p member
  obtain ⟨a, listed, first, second⟩ := Lists.mem_of_forall₂
    (old.mp (fun _ _ first second => And.intro first second) new).flip member
  rw [second, first, holds a listed]

variable (call) in
/-- Both functions stand at a block when its parameters have the values of the arguments. -/
theorem Placed.arrive (placed : Placed rmap k m n) {s : RegState W M} {s' : FrameState W M}
    {id next : Nat} {b : Blk} {args : List Val} (edge : Edge k id next)
    (found : k.find? next = some b) (world : s'.state.world = s.core.world)
    (counts : s.passed = 0 ∧ s.returned = 0 ∧ s'.passed = 0)
    (passes : ∀ p ∈ b.params, S.value s'.state (registerOf rmap p) =
      S.value (S.assign b.params args s.core) p) :
    AtPlace S rmap k ((registerInterp S call).follow k (some next) args s) (.block next, s') := by
  have member := Fn.find?_mem found
  rw [Interp.follow_some found]
  refine ⟨rfl, world.trans (S.assign_world _ _ _).symm, fun _ _ => counts, ?_, by simp⟩
  rintro _ c ⟨⟩ foundC v needed
  obtain rfl : b = c := Option.some.inj (found.symm.trans foundC)
  have needed := needed_of_atEntry (placed.form.sections b member) (placed.input.before b member)
    needed
  cases v with
  | tmp t => exact passes _ (needed.param (placed.input.uses b member))
  | reg r =>
    obtain ⟨-, fetches⟩ := needed.reg (placed.form.sections b member)
    rw [← Fn.find?_id found] at edge
    exact absurd edge (placed.form.fetches b member fetches id)
  | _ => rcases needed.isPlace with isTmp | isReg <;> contradiction

variable (call clobber) in
/-- Both functions follow an edge alike. -/
theorem Placed.follow (placed : Placed rmap k m n) {s : RegState W M} {s' : FrameState W M}
    (world : s'.state.world = s.core.world)
    (counts : s.passed = 0 ∧ s.returned = 0 ∧ s'.passed = 0) {id : Nat} {target : Option Nat}
    {args : List Val} (edge : ∀ next, target = some next → Edge k id next)
    (lengths : ∀ next b, target = some next → k.find? next = some b →
      b.params.length = args.length)
    (holds : ∀ a ∈ args, S.value s'.state (registerOf rmap a) = S.value s.core a) :
    AtPlace S rmap k ((registerInterp S call).follow k target args s)
      ((frameInterp S call clobber).follow m target (args.map (registerOf rmap)) s') := by
  cases found : target.bind k.find? with
  | none =>
    have absent : target.bind m.find? = none := by
      cases target with
      | none => rfl
      | some next => exact placed.blks.find?_none found
    simp only [Interp.follow, found, absent]
    exact ⟨rfl, world, by simp, by simp, by simp⟩
  | some b =>
    obtain ⟨next, rfl, found⟩ := Option.bind_eq_some_iff.mp found
    obtain ⟨lifetimes, b', saved, allocated, found'⟩ := placed.blks.find? found
    have member := Fn.find?_mem found
    have before := placed.input.before b member
    rw [Interp.follow_some found', allocated.eq]
    refine placed.arrive call (edge next rfl) found ((S.assign_world _ _ _).trans world) counts ?_
    refine assign_registers S (lengths next b rfl found) before.params
      (placed.input.params b member).1 (fun p listed => ?_) (placed.separated b member).params holds
    obtain ⟨t, rfl⟩ := Val.isTmp_iff.mp (before.params p listed)
    have own : t ∈ b.defs := mem_defs.mpr (Or.inl listed)
    obtain ⟨r, -, rule⟩ := placed.rules.rewriteTmp (rewriteTmp_of_rule (allocated.ruled t own))
    rw [registerOf, rule]
    rfl

variable (call clobber) in
/-- Both functions leave a block alike. -/
theorem Placed.depart (placed : Placed rmap k m n) {id : Nat} {b b' : Blk}
    {lifetimes : List Lifetime} {saved : Saving} (found : k.find? id = some b)
    (allocated : AllocatedTo rmap b lifetimes b' saved) {s : RegState W M} {s' : FrameState W M}
    (ends : AtEnd S rmap b s s') :
    ((frameInterp S call clobber).depart m saved.b s').1 =
        ((registerInterp S call).depart k b s).1.filter CallEvent.seen ∧
      AtPlace S rmap k ((registerInterp S call).depart k b s).2
        ((frameInterp S call clobber).depart m saved.b s').2 := by
  have member := Fn.find?_mem found
  have before := placed.input.before b member
  rw [allocated.eq]
  by_cases returns : b.btype = .ret
  · rw [Interp.depart_ret returns, Interp.depart_ret (by exact returns)]
    exact ⟨rfl, rfl, ends.holds.world, by simp, by simp, fun _ => ends.returns⟩
  have counts : s.passed = 0 ∧ s.returned = 0 ∧ s'.passed = 0 :=
    ⟨ends.passed, ends.stays returns, ends.passed'⟩
  have edge1 := placed.follow (S := S) call clobber ends.holds.world counts
    (fun next target => ⟨b, found, Or.inl target⟩)
    (fun next c target => placed.input.args1 b member next c target)
    fun a listed => ends.holds.values a ⟨Or.inl (before.args1 a listed),
      Or.inr (Or.inr (Or.inl listed))⟩
  have edge2 := placed.follow (S := S) call clobber ends.holds.world counts
    (fun next target => ⟨b, found, Or.inr target⟩)
    (fun next c target => placed.input.args2 b member next c target)
    fun a listed => ends.holds.values a ⟨Or.inl (before.args2 a listed),
      Or.inr (Or.inr (Or.inr listed))⟩
  by_cases jump : b.btype = .j
  · rw [Interp.depart_j jump, Interp.depart_j (by exact jump)]
    exact ⟨rfl, edge2⟩
  · rw [Interp.depart_cond returns jump, Interp.depart_cond (by exact returns) (by exact jump)]
    have operand {v : Val} (compared : v = b.cmp0 ∨ v = b.cmp1) :
        S.value s'.state (registerOf rmap v) = S.value s.core v := by
      by_cases place : v.IsPlace
      · exact ends.holds.values v ⟨place, compared.imp_right Or.inl⟩
      · rw [registerOf_of_not_isPlace place]
        exact S.value_of_not_isPlace place _ _
    have taken : (frameInterp S call clobber).taken b.btype (registerOf rmap b.cmp0)
        (registerOf rmap b.cmp1) s' = (registerInterp S call).taken b.btype b.cmp0 b.cmp1 s := by
      simp only [frameInterp, registerInterp, operand (Or.inl rfl), operand (Or.inr rfl)]
    dsimp only
    rw [taken]
    refine ⟨rfl, ?_⟩
    by_cases decision : (registerInterp S call).taken b.btype b.cmp0 b.cmp1 s
    · simpa [decision] using edge2
    · simpa [decision] using edge1

variable (call clobber) in
/-- The instructions of a block. -/
theorem Placed.performed (placed : Placed rmap k m n) (lawful : S.Lawful) {b b' : Blk}
    {lifetimes : List Lifetime} {saved : Saving} (member : b ∈ k.blks)
    (allocated : AllocatedTo rmap b lifetimes b' saved) {s : RegState W M} {s' : FrameState W M}
    (passed : s.passed = 0) (returned : s.returned = 0) (passed' : s'.passed = 0)
    (holds : Holds S rmap (atEntry b) s.core s'.state) :
    Performed S call clobber rmap b saved.b s s' := by
  have before := placed.input.before b member
  have cmps := placed.form.cmps b member
  have separated := placed.separated b member
  rcases parts_of_sections (placed.form.sections b member) with ⟨front, values, parts⟩ |
    ⟨front, args, called, results, parts⟩
  · exact performed_plain call clobber lawful placed.rules before cmps separated allocated parts
      passed returned passed' holds
  · exact performed_call call clobber lawful placed.rules before (placed.input.uses b member)
      ((placed.input.increasing b member).imp ne_of_lt) cmps separated allocated parts passed
      returned passed' holds

variable (call clobber) in
/-- The allocated function keeps up block by block. -/
theorem Placed.lockstep (placed : Placed rmap k m n) (lawful : S.Lawful) :
    Machine.Lockstep (((registerInterp S call).machine k).filter CallEvent.seen)
      ((frameInterp S call clobber).machine m) (AtPlace S rmap k) where
  halts := by
    rintro ⟨ctrl, s⟩ ⟨ctrl', s'⟩ aligned
    obtain rfl : ctrl' = ctrl := aligned.control
    rw [Machine.filter_step_eq_none]
    cases ctrl' with
    | block id =>
      cases found : k.find? id with
      | none => simp [Interp.machine, found, placed.blks.find?_none found]
      | some b =>
        obtain ⟨_, _, saved, _, found'⟩ := placed.blks.find? found
        simp [Interp.machine_step_block found, Interp.machine_step_block found']
    | returned => simp [Interp.machine]
    | stuck => simp [Interp.machine]
  steps := by
    rintro ⟨ctrl, s⟩ ⟨ctrl', s'⟩ events next events' next' aligned _ stepped stepped'
    obtain rfl : ctrl' = ctrl := aligned.control
    cases ctrl' with
    | block id =>
      cases found : k.find? id with
      | none =>
        simp only [Machine.filter, Interp.machine, found, Option.map_some, Option.some.injEq,
          Prod.mk.injEq] at stepped
        simp only [Interp.machine, placed.blks.find?_none found, Option.some.injEq,
          Prod.mk.injEq] at stepped'
        obtain ⟨rfl, rfl⟩ := stepped
        obtain ⟨rfl, rfl⟩ := stepped'
        exact ⟨rfl, rfl, aligned.world, by simp, by simp, by simp⟩
      | some b =>
        obtain ⟨lifetimes, b', saved, allocated, found'⟩ := placed.blks.find? found
        rw [Machine.filter_step (Interp.machine_step_block found s), Option.some.injEq] at stepped
        rw [Interp.machine_step_block found', Option.some.injEq] at stepped'
        obtain ⟨rfl, rfl⟩ := Prod.mk.inj stepped
        obtain ⟨rfl, rfl⟩ := Prod.mk.inj stepped'
        obtain ⟨passed, returned, passed'⟩ := aligned.counts id rfl
        obtain ⟨performed, ends⟩ := placed.performed call clobber lawful
          (Fn.find?_mem found) allocated passed returned passed'
          ⟨aligned.world, aligned.needed id b rfl found⟩
        obtain ⟨decision, left⟩ := placed.depart call clobber found
          allocated ends
        exact ⟨(congrArg₂ (· ++ ·) performed decision).trans (List.filter_append _ _).symm, left⟩
    | returned => simp [Machine.filter, Interp.machine] at stepped
    | stuck => simp [Machine.filter, Interp.machine] at stepped

end Lockstep

section Regalloc

variable {W M : Type}

/-- Both functions start with the same parameters of the function in registers. The parameters of
the first block, if it has any, have their values in their registers. -/
structure Starts (S : Semantics W M) (k m : Fn) (state : RegState W M) (state' : FrameState W M) :
    Prop where
  world : state'.state.world = state.core.world
  params : ∀ i < 24, state'.state.reg (ra i) = state.core.reg (ra i)
  entry : ∀ b b', k.blks.head? = some b → m.blks.head? = some b' →
    List.Forall₂ (fun p p' => S.value state'.state p' = S.value state.core p) b.params b'.params
  passed : state.passed = 0
  returned : state.returned = 0
  passed' : state'.passed = 0

/-- `m` computes in registers and slots what `k` computes: it executes the same blocks, and in them
it calls the same procedures with the same arguments, computes the same values and decides the same
way. In the end the same values are in the registers for them. -/
structure ComputesLike (S : Semantics W M) (call : Callee W M) (clobber : Clobber W M) (k m : Fn)
    (state : RegState W M) (state' : FrameState W M) : Prop where
  events : ∀ count,
    (((frameInterp S call clobber).machine m).run count (Interp.entry m, state')).1 =
      (((registerInterp S call).machine k).run count (Interp.entry k, state)).1.filter
        CallEvent.seen
  control : ∀ count,
    (((frameInterp S call clobber).machine m).run count (Interp.entry m, state')).2.1 =
      (((registerInterp S call).machine k).run count (Interp.entry k, state)).2.1
  world : ∀ count,
    (((frameInterp S call clobber).machine m).run count (Interp.entry m, state')).2.2.state.world =
      (((registerInterp S call).machine k).run count (Interp.entry k, state)).2.2.core.world
  returns : ∀ count,
    (((registerInterp S call).machine k).run count (Interp.entry k, state)).2.1 = .returned →
      ∀ i < (((registerInterp S call).machine k).run count (Interp.entry k, state)).2.2.returned,
        (((frameInterp S call clobber).machine m).run count
          (Interp.entry m, state')).2.2.state.reg (ra i) =
        (((registerInterp S call).machine k).run count
          (Interp.entry k, state)).2.2.core.reg (ra i)

variable {rmap : List Val} {k m : Fn} {n : Nat}

/-- Both functions start at the same place. -/
theorem Placed.atPlace {S : Semantics W M} (placed : Placed rmap k m n) {state : RegState W M}
    {state' : FrameState W M} (starts : Starts S k m state state') :
    AtPlace S rmap k (Interp.entry k, state) (Interp.entry m, state') where
  control := placed.blks.entry
  world := starts.world
  counts _ _ := ⟨starts.passed, starts.returned, starts.passed'⟩
  returns := by
    unfold Interp.entry
    split <;> simp
  needed := by
    intro id b entry found v needed
    have member := Fn.find?_mem found
    have sections := placed.form.sections b member
    have needed := needed_of_atEntry sections (placed.input.before b member) needed
    have first : k.blks.head? = some b := by
      unfold Interp.entry at entry
      cases blks : k.blks with
      | nil => simp [blks] at entry
      | cons d rest =>
        simp only [blks, Ctrl.block.injEq] at entry
        subst entry
        rw [Fn.find?, blks, List.find?_cons_of_pos (by simp), Option.some.injEq] at found
        rw [found]
        rfl
    obtain ⟨rest, blks⟩ := List.head?_eq_some_iff.mp first
    have images := placed.blks
    rw [AllocatedBlks, blks] at images
    obtain ⟨_, _, ⟨_, _, saved, allocated, rfl⟩, -, blks'⟩ :=
      List.forall₂_cons_left_iff.mp images
    have params := starts.entry b saved.b first (by rw [blks']; rfl)
    rw [allocated.eq] at params
    cases v with
    | tmp t =>
      exact List.forall₂_same.mp (List.forall₂_map_right_iff.mp params) _
        (needed.param (placed.input.uses b member))
    | reg r =>
      obtain ⟨⟨i, inside, rfl⟩, -⟩ := needed.reg sections
      exact starts.params i inside
    | _ => rcases needed.isPlace with isTmp | isReg <;> contradiction

/-- What `regalloc` makes of a function that the passes in front of it made. -/
theorem placed_of_allocBlks {f g h : Fn} {a : Allocation} {blks : List Blk}
    (built : Frontend.ParserBuilt f) (noAddr : ∀ b ∈ f.blks, ∀ i ∈ b.insns, i.type ≠ .addr)
    (few : ∀ b ∈ f.blks, InRegisters b.insns) (corrected : Corrected f g)
    (converted : ssa g = .ok (h, n)) (merged : abi0 h = .ok k)
    (allocated : allocBlks (.start k) k.blks = .ok (a, blks))
    (separated : ∀ b ∈ k.blks, Separated (registerOf a.rmap) b) :
    Placed a.rmap k { k with
      blks, hasCalls := a.hasCalls, maxCalleeSave := a.maxCalleeSave
      maxCallSave := a.maxCallSave } n := by
  have input := Abi.abi0_input built corrected converted merged
  have start : (Allocation.start k).RulesIn := ⟨.nil, .nil⟩
  have distinct : (k.blks.flatMap Blk.defs).Nodup := by
    rw [input.once]
    exact List.nodup_range
  obtain ⟨rules, _, _⟩ := allocBlks_steps
    (fun b listed before after b' rules stepped =>
      allocBlk_rulesIn (input.before b listed) rules stepped) start allocated
  exact {
    input
    form := abi0_callForm built noAddr few corrected converted merged
    rules := rules.rmap
    separated
    blks := allocBlks_allocatedTo input start (fun _ member => member) distinct allocated }

/-- Where no instruction writes the register of a value that is still needed, register allocation
preserves the meaning: whatever callees leave in the registers they need not keep, the SAVEs and
RESTOREs around a call keep every value that lives across it. -/
theorem regalloc_preserves {f g h : Fn} {a : Allocation} {blks : List Blk}
    (built : Frontend.ParserBuilt f) (noAddr : ∀ b ∈ f.blks, ∀ i ∈ b.insns, i.type ≠ .addr)
    (few : ∀ b ∈ f.blks, InRegisters b.insns) (corrected : Corrected f g)
    (converted : ssa g = .ok (h, n)) (merged : abi0 h = .ok k)
    (allocated : allocBlks (.start k) k.blks = .ok (a, blks))
    (separated : ∀ b ∈ k.blks, Separated (registerOf a.rmap) b) :
    ∃ m, regalloc k = .ok m ∧ ∀ {W M : Type} {S : Semantics W M}, S.Lawful →
      ∀ (call : Callee W M) (clobber : Clobber W M) (state : RegState W M)
        (state' : FrameState W M), Starts S k m state state' →
          ComputesLike S call clobber k m state state' := by
  have placed := placed_of_allocBlks built noAddr few corrected converted merged allocated separated
  refine ⟨_, by rw [regalloc, allocated]; rfl,
    fun {W M S} lawful call clobber state state' starts => ?_⟩
  have run (count : Nat) := Machine.Lockstep.run (placed.lockstep call clobber lawful)
    (placed.atPlace starts) count
  simp only [Machine.run_filter] at run
  exact {
    events := fun count => (run count).1
    control := fun count => (run count).2.control
    world := fun count => (run count).2.world
    returns := fun count => (run count).2.returns }

end Regalloc

/-- A procedure that needs its second parameter behind a call. -/
def neededBehind : Frontend.Function where
  name := "main"
  params := [(.i27, "x"), (.i27, "y")]
  body := {
    items := [
      { stmt := .call (.symbol "f") [.id "x"] ["z"] },
      { stmt := .plain (.binary .add .i27 "z" (.id "y") (.id "z")) },
      { stmt := .leave [.id "z"] }] }

/-- `y` is saved in front of the call and comes back behind it, whatever the callee leaves. -/
theorem regalloc_preserves_neededBehind :
    ∃ f g h n k m, Frontend.buildFunction 0 neededBehind = .ok f ∧ Corrected f g ∧
      ssa g = .ok (h, n) ∧ abi0 h = .ok k ∧ regalloc k = .ok m ∧
        ∀ (call : Callee Int Unit) (clobber : Clobber Int Unit) (reg : Nat → Int),
          ComputesLike Semantics.integers call clobber k m ⟨⟨fun _ => 0, reg, ()⟩, 0, 0⟩
            ⟨⟨⟨fun _ => 0, reg, ()⟩, fun _ => 0⟩, 0⟩ := by
  have ran : ∃ f g ri h n k a blks m, Frontend.buildFunction 0 neededBehind = .ok f ∧
      correct 20 f f.ntmp = .ok (g, ri) ∧ ssa { g with ntmp := ri } = .ok (h, n) ∧
        abi0 h = .ok k ∧ allocBlks (.start k) k.blks = .ok (a, blks) ∧ regalloc k = .ok m ∧
          (∀ b ∈ f.blks, ∀ i ∈ b.insns, i.type ≠ .addr) ∧ (∀ b ∈ f.blks, InRegisters b.insns) ∧
            (∀ b ∈ k.blks, Separated (registerOf a.rmap) b) ∧
              (∀ b, k.blks.head? = some b → b.params = []) ∧
                ∀ b, m.blks.head? = some b → b.params = [] :=
    ⟨_, _, _, _, _, _, _, _, _, by rfl, by rfl, by rfl, by rfl, by rfl, by rfl, by decide,
      by decide, by decide, by rintro _ ⟨⟩; rfl, by rintro _ ⟨⟩; rfl⟩
  obtain ⟨f, g, ri, h, n, k, a, blks, m, parsed, corrected, converted, merged, allocated, returned,
    noAddr, few, separated, none, none'⟩ := ran
  have passed : Corrected f { g with ntmp := ri } := ⟨20, g, ri, corrected, rfl⟩
  obtain ⟨m', returned', same⟩ := regalloc_preserves ⟨0, _, parsed⟩ noAddr few passed converted
    merged allocated separated
  obtain rfl : m = m' := Except.ok.inj (returned.symm.trans returned')
  refine ⟨f, _, h, n, k, m, parsed, passed, converted, merged, returned, fun call clobber reg => ?_⟩
  refine same Semantics.integers_lawful call clobber _ _ {
    world := rfl
    params := fun _ _ => rfl
    entry := fun b b' first first' => ?_
    passed := rfl
    returned := rfl
    passed' := rfl }
  rw [none b first, none' b' first']
  exact .nil

end Qbt.Regalloc
