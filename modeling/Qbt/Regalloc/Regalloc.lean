import Qbt.Regalloc.Assign

/-!
# `regalloc`

The second half of `src/regalloc.c`: operands are replaced by their registers, the
registers that live across a call are saved before its set-up and restored behind its
results, and the counters for the frame are collected over all blocks.
-/

namespace Qbt.Regalloc

/-- An operand of an instruction or comparison. -/
def rewriteUse (rmap : List Val) (v : Val) : Result Val :=
  if v.isTmp then rewriteTmp rmap v else .ok v

/-- The loop of `do_rewrites` over the instructions, for one instruction. -/
def rewriteInsn (rmap : List Val) (n : Insn) : Result Insn := do
  let in0 ← rewriteUse rmap n.in0
  let in1 ← rewriteUse rmap n.in1
  let out ← rewriteUse rmap n.out
  pure { n with in0, in1, out }

/-- `do_rewrites`. -/
def doRewrites (b : Blk) (rmap : List Val) : Result Blk := do
  let params ← b.params.mapM (rewriteTmp rmap)
  let insns ← b.insns.mapM (rewriteInsn rmap)
  let cmp0 ← rewriteUse rmap b.cmp0
  let cmp1 ← rewriteUse rmap b.cmp1
  let args1 ← b.args1.mapM (rewriteTmp rmap)
  let args2 ← b.args2.mapM (rewriteTmp rmap)
  pure { b with params, insns, cmp0, cmp1, args1, args2 }

/-- `callee_save`. -/
def calleeSave : Val → Bool
  | .reg r => r ∈ rsMap
  | _ => false

/-- The search of `insn_insert_before_call`, over the first `count` instructions from
the last one backwards: the position behind the last one that sets up no call. -/
def setupStart (insns : List Insn) : Nat → Result Nat
  | 0 => .ok 0
  | count + 1 =>
    match insns[count]? with
    | none => .error .outOfBounds
    | some setup => if setup.flags.callSetup then setupStart insns count else .ok (count + 1)

/-- `assert((insn_at(b->insns, pos)).type == CALL)`. -/
def checkCall (insns : List Insn) (pos : Nat) : Result Unit :=
  match insns[pos]? with
  | none => .error .outOfBounds
  | some n => Result.check (n.type = .call) .insnType

/-- `insn_insert_before_call`. -/
def insertBeforeCall (b : Blk) (n : Insn) (pos : Nat) : Result Blk := do
  checkCall b.insns pos
  insnInsert b n (← setupStart b.insns (pos + 1))

/-- The length of the longest prefix of instructions that tear a call down. -/
def teardownLength : List Insn → Nat
  | [] => 0
  | n :: rest => if n.flags.callTeardown then teardownLength rest + 1 else 0

/-- `insn_insert_after_call`. -/
def insertAfterCall (b : Blk) (n : Insn) (pos : Nat) : Result Blk := do
  checkCall b.insns pos
  insnInsert b n (pos + teardownLength (b.insns.drop pos))

/-- The SAVE of a register in a slot of the frame. -/
def saveInsn (r : Val) (slot : Nat) : Insn :=
  insnCreate .save .notype .noclass r (.imm slot .i27) 0

/-- The RESTORE of a register from a slot of the frame. -/
def restoreInsn (r : Val) (slot : Nat) : Insn :=
  insnCreate .restore .notype .noclass r (.imm slot .i27) 0

/-- The loop of `do_call_saves` that saves the registers of `reserved` that no callee
saves, into the slots from `counter` on; `pos` is the index of the call. -/
def saveBefore (b : Blk) (pos counter : Nat) : List Val → Result Blk
  | [] => .ok b
  | r :: rest => do
    Result.check r.isReg .valClass
    if calleeSave r then saveBefore b pos counter rest
    else
      let b ← insertBeforeCall b (saveInsn r counter) pos
      saveBefore b (pos + 1) (counter + 1) rest

/-- The loop of `do_call_saves` that restores them. -/
def restoreAfter (b : Blk) (pos counter : Nat) : List Val → Result Blk
  | [] => .ok b
  | r :: rest =>
    if calleeSave r then restoreAfter b pos counter rest
    else do
      let b ← insertAfterCall b (restoreInsn r counter) pos
      restoreAfter b pos (counter + 1) rest

/-- The state of the loop of `do_call_saves`: the block, the number of instructions
inserted so far, and `max_counter`. -/
structure Saving where
  b : Blk
  offset : Nat := 0
  maxCounter : Nat := 0
deriving DecidableEq, Repr

/-- The loop body of `do_call_saves`, for the call at `callPos`. -/
def saveCall (lifetimes : List Lifetime) (rmap : List Val) (s : Saving) (callPos : Nat) :
    Result Saving := do
  let active := buildActiveBetween [] lifetimes 0 callPos callPos
  let reserved ← buildReserved active rmap
  let counter := (reserved.filter fun r => !calleeSave r).length
  let b ← saveBefore s.b (callPos + s.offset - 1) 0 reserved
  let b ← restoreAfter b (callPos + (s.offset + counter) - 1) 0 reserved
  pure { b, offset := s.offset + counter + counter, maxCounter := max s.maxCounter counter }

/-- `do_call_saves`. -/
def doCallSaves (b : Blk) (lifetimes : List Lifetime) (rmap : List Val) (calls : List Nat) :
    Result Saving :=
  calls.foldlM (saveCall lifetimes rmap) { b }

/-- The state of the loop of `regalloc`: the vectors it keeps from block to block, and
the counters of the function. -/
structure Allocation where
  hints : List Val := []
  rmap : List Val := []
  hasCalls : Bool := false
  maxCalleeSave : Nat := 0
  maxCallSave : Nat := 0
deriving DecidableEq, Repr

/-- The state `regalloc` starts in. -/
def Allocation.start (f : Fn) : Allocation :=
  { hasCalls := f.hasCalls, maxCalleeSave := f.maxCalleeSave, maxCallSave := f.maxCallSave }

/-- The loop body of `regalloc`. -/
def allocBlk (a : Allocation) (b : Blk) : Result (Allocation × Blk) := do
  let c ← collectLifetimes b a.hints a.rmap
  let assigned ← buildRmap c.hints c.lifetimes c.rmap
  let b ← doRewrites b assigned.rmap
  let saved ← doCallSaves b c.lifetimes assigned.rmap c.calls
  pure ({
    hints := c.hints
    rmap := assigned.rmap
    hasCalls := a.hasCalls || !c.calls.isEmpty
    maxCalleeSave := max a.maxCalleeSave assigned.maxCalleeSave
    maxCallSave := max a.maxCallSave saved.maxCounter }, saved.b)

/-- The loop of `regalloc`. -/
def allocBlks (a : Allocation) : List Blk → Result (Allocation × List Blk)
  | [] => pure (a, [])
  | b :: rest => do
    let (a, b) ← allocBlk a b
    let (a, rest) ← allocBlks a rest
    pure (a, b :: rest)

/-- What the loop body of `regalloc` computes for a block before it saves registers. -/
structure Allocates (a : Allocation) (b : Blk) (c : Collected) (r : Assignment) (b' : Blk) :
    Prop where
  collected : collectLifetimes b a.hints a.rmap = .ok c
  assigned : buildRmap c.hints c.lifetimes c.rmap = .ok r
  rewritten : doRewrites b r.rmap = .ok b'

/-- A block is allocated in three steps: lifetimes and registers, rewriting, saves around calls. -/
theorem allocBlk_eq_ok {a a' : Allocation} {b b'' : Blk} : allocBlk a b = .ok (a', b'') ↔
    ∃ c r b' saved, Allocates a b c r b' ∧ doCallSaves b' c.lifetimes r.rmap c.calls = .ok saved ∧
      b'' = saved.b ∧ a' = {
        hints := c.hints
        rmap := r.rmap
        hasCalls := a.hasCalls || !c.calls.isEmpty
        maxCalleeSave := max a.maxCalleeSave r.maxCalleeSave
        maxCallSave := max a.maxCallSave saved.maxCounter } := by
  simp only [allocBlk, Result.bind_eq_ok, Result.pure_eq, Except.ok.injEq, Prod.mk.injEq]
  constructor
  · rintro ⟨c, collected, r, assigned, b', rewritten, saved, saves, rfl, rfl⟩
    exact ⟨c, r, b', saved, ⟨collected, assigned, rewritten⟩, saves, rfl, rfl⟩
  · rintro ⟨c, r, b', saved, ⟨collected, assigned, rewritten⟩, saves, rfl, rfl⟩
    exact ⟨c, collected, r, assigned, b', rewritten, saved, saves, rfl, rfl⟩

/-- What `regalloc` computes for the blocks it visits from a state on. -/
inductive Visits : Allocation → List Blk → Blk → Collected → Assignment → Blk → Prop where
  | here {a : Allocation} {b b' : Blk} {rest : List Blk} {c : Collected} {r : Assignment}
      (allocates : Allocates a b c r b') : Visits a (b :: rest) b c r b'
  | later {a a' : Allocation} {b b' d d' : Blk} {rest : List Blk} {c : Collected}
      {r : Assignment} (first : allocBlk a b = .ok (a', b')) (visits : Visits a' rest d c r d') :
      Visits a (b :: rest) d c r d'

/-- Where the loop returns, it has visited every block. -/
theorem visits_of_mem {a a' : Allocation} {blks blks' : List Blk}
    (returned : allocBlks a blks = .ok (a', blks')) {b : Blk} (member : b ∈ blks) :
    ∃ c r b', Visits a blks b c r b' := by
  induction blks generalizing a a' blks' with
  | nil => cases member
  | cons d rest ih =>
    simp only [allocBlks, Result.bind_eq_ok, Prod.exists] at returned
    obtain ⟨next, d', first, _, _, others, _⟩ := returned
    rcases List.mem_cons.mp member with rfl | later
    · obtain ⟨c, r, b', _, allocates, _⟩ := allocBlk_eq_ok.mp first
      exact ⟨c, r, b', .here allocates⟩
    · obtain ⟨c, r, b', visits⟩ := ih others later
      exact ⟨c, r, b', .later first visits⟩

/-- Every visit is one of the loop body. -/
theorem Visits.allocates {a : Allocation} {blks : List Blk} {b b' : Blk} {c : Collected}
    {r : Assignment} (visits : Visits a blks b c r b') :
    b ∈ blks ∧ ∃ before, Allocates before b c r b' := by
  induction visits with
  | here allocates => exact ⟨List.mem_cons_self, _, allocates⟩
  | later _ _ ih => exact ⟨List.mem_cons_of_mem _ ih.1, ih.2⟩

end Regalloc

/-- `regalloc`. -/
def regalloc (f : Fn) : Result Fn := do
  let (a, blks) ← Regalloc.allocBlks (.start f) f.blks
  pure { f with
    blks
    hasCalls := a.hasCalls
    maxCalleeSave := a.maxCalleeSave
    maxCallSave := a.maxCallSave }

end Qbt
