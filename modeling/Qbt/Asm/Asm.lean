import Qbt.Abi.Registers
import Qbt.IR.Nodes

/-!
# Assembly

The lines `src/asm.c` prints, and the functions that print them. A register is printed
by its number; the names `sp`, `fp`, `ra` and `s0` to `s23` are the registers of the
enumeration in `include/qbt/abi.h`.
-/

namespace Qbt.Asm

/-- The width of a memory access, `w` or `t`. -/
inductive Width where
  | word
  | tryte
deriving DecidableEq, Repr

/-- The comparison of a branch instruction. -/
inductive Cond where
  | lt | le | ne | eq
deriving DecidableEq, Repr

/-- A number as it is printed: by `%lli`, or by `-%lli`. -/
inductive Numeral where
  | plain (v : Int)
  | negated (v : Int)
deriving DecidableEq, Repr

/-- A line of assembly. -/
inductive Line where
  /-- `name:` -/
  | function (name : String)
  /-- `.name.id:` -/
  | label (id : Nat)
  /-- `st width src, offset(base)` -/
  | st (width : Width) (src : Nat) (offset : Int) (base : Nat)
  /-- `ld width dst, offset(base)` -/
  | ld (width : Width) (dst : Nat) (offset : Int) (base : Nat)
  /-- `mv dst, src` -/
  | mv (dst src : Nat)
  /-- `addi dst, src, v` -/
  | addi (dst src : Nat) (v : Numeral)
  | add (dst left right : Nat)
  | sub (dst left right : Nat)
  | slt (dst left right : Nat)
  | slti (dst left : Nat) (v : Int)
  /-- `li dst, v`, where `v` is the field `v` of the operand -/
  | li (dst : Nat) (operand : Val)
  /-- `call ra, symbol` -/
  | call (symbol : String)
  /-- `jalr ra, 0(target)` -/
  | jalr (target : Nat)
  /-- `blt`, `ble`, `bne` or `beq left, right, .name.id` -/
  | branch (cond : Cond) (left right : Nat) (id : Nat)
  /-- `jal x0, .name.id` -/
  | jal (id : Nat)
  /-- `ret ra` -/
  | ret
deriving DecidableEq, Repr

/-- `rname`. -/
def rname : Val → Result Nat
  | .reg r => if r ≤ 80 then .ok r else .error .unimplemented
  | _ => .error .valClass

/-- `frame_size`. -/
def frameSize (f : Fn) : Nat := 3 * f.maxCalleeSave + 3 * f.maxCallSave + 3 * 2

/-- `callee_save_fploc`. -/
def calleeSaveFploc (i : Nat) : Nat := 3 * (i + 1) + 3 * 2

/-- `call_save_fploc`. -/
def callSaveFploc (f : Fn) (i : Nat) : Nat := 3 * (f.maxCalleeSave + 1) + 3 * i + 3 * 2

/-- `ra_fploc`. -/
def raFploc : Nat := 6

/-- `fp_fploc`. -/
def fpFploc : Nat := 3

/-- The register printed as `s` followed by `i`. -/
def sreg (i : Nat) : Nat := rsMap.getD i rx0

/-- `save_state`. -/
def saveState (f : Fn) : List Line :=
  [.st .word rfp (-fpFploc) rsp, .mv rfp rsp] ++
    (if f.hasCalls then [.st .word rra (-raFploc) rfp] else []) ++
    [.addi rsp rsp (.negated (frameSize f))] ++
    (List.range f.maxCalleeSave).map fun i => .st .word (sreg i) (-calleeSaveFploc i) rfp

/-- `restore_state`. -/
def restoreState (f : Fn) : List Line :=
  ((List.range f.maxCalleeSave).map fun i => .ld .word (sreg i) (-calleeSaveFploc i) rfp) ++
    (if f.hasCalls then [.ld .word rra (-raFploc) rfp] else []) ++
    [.mv rsp rfp, .ld .word rfp (-fpFploc) rfp]

/-- `output_move`. -/
def outputMove (n : Insn) : Result (List Line) :=
  if n.out.same n.in0 then .ok [] else do
    pure [.mv (← rname n.out) (← rname n.in0)]

/-- `output_add`. -/
def outputAdd (n : Insn) : Result (List Line) := do
  match n.in1 with
  | .reg _ => pure [.add (← rname n.out) (← rname n.in0) (← rname n.in1)]
  | .imm v _ => pure [.addi (← rname n.out) (← rname n.in0) (.plain v)]
  | _ => .error .unimplemented

/-- `output_sub`. A negative immediate is printed as it is. -/
def outputSub (n : Insn) : Result (List Line) := do
  match n.in1 with
  | .reg _ => pure [.sub (← rname n.out) (← rname n.in0) (← rname n.in1)]
  | .imm v _ =>
    pure [.addi (← rname n.out) (← rname n.in0) (if 0 ≤ v then .negated v else .plain v)]
  | _ => .error .unimplemented

/-- `output_copy`. -/
def outputCopy (n : Insn) : Result (List Line) := do
  pure [.li (← rname n.out) n.in0]

/-- `output_call`. -/
def outputCall (n : Insn) : Result (List Line) := do
  match n.in0 with
  | .ref s => pure [.call s]
  | .reg _ => pure [.jalr (← rname n.in0)]
  | _ => .error .unimplemented

/-- The field `v` of a slot operand. -/
def slotField : Val → Nat
  | .imm v _ => v.toNat
  | _ => 0

/-- `output_save`. -/
def outputSave (f : Fn) (n : Insn) : Result (List Line) := do
  pure [.st .word (← rname n.in0) (-callSaveFploc f (slotField n.in1)) rfp]

/-- `output_restore`. -/
def outputRestore (f : Fn) (n : Insn) : Result (List Line) := do
  pure [.ld .word (← rname n.in0) (-callSaveFploc f (slotField n.in1)) rfp]

/-- The width of an access. -/
def width (n : Insn) : Width := if n.vtype = .i9 then .tryte else .word

/-- `output_store`. -/
def outputStore (n : Insn) : Result (List Line) := do
  let base ← rname n.in0
  let src ← rname n.in1
  pure [.st (width n) src n.v base]

/-- `output_load`. -/
def outputLoad (n : Insn) : Result (List Line) := do
  let dst ← rname n.out
  let base ← rname n.in0
  pure [.ld (width n) dst n.v base]

/-- `output_lt`. -/
def outputLt (n : Insn) : Result (List Line) := do
  match n.in1 with
  | .imm v _ => pure [.slti (← rname n.out) (← rname n.in0) v]
  | _ => pure [.slt (← rname n.out) (← rname n.in0) (← rname n.in1)]

/-- `output_alloc`. -/
def outputAlloc (n : Insn) : Result (List Line) := do
  pure [.addi rsp rsp (.negated n.v), .mv (← rname n.out) rsp]

/-- `output_dealloc`. -/
def outputDealloc (n : Insn) : Result (List Line) := .ok [.addi rsp rsp (.plain n.v)]

/-- `output_insn`. -/
def outputInsn (f : Fn) (n : Insn) : Result (List Line) :=
  match n.type with
  | .lt => outputLt n
  | .move => outputMove n
  | .add => outputAdd n
  | .sub => outputSub n
  | .copy => outputCopy n
  | .call => outputCall n
  | .store => outputStore n
  | .load => outputLoad n
  | .alloc => outputAlloc n
  | .dealloc => outputDealloc n
  | .save => outputSave f n
  | .restore => outputRestore f n
  | _ => .error .unimplemented

/-- `assert(b->s2)` and the `id` of the block it points to. -/
def target (b : Blk) : Result Nat :=
  match b.s2 with
  | some id => .ok id
  | none => .error .dangling

/-- What `output_blt`, `output_ble` and `output_bne` share. -/
def outputCompare (cond : Cond) (b : Blk) : Result (List Line) := do
  let id ← target b
  pure [.branch cond (← rname b.cmp0) (← rname b.cmp1) id]

/-- `output_blt`. -/
def outputBlt (b : Blk) : Result (List Line) := outputCompare .lt b

/-- `output_ble`. -/
def outputBle (b : Blk) : Result (List Line) := outputCompare .le b

/-- `output_bne`. -/
def outputBne (b : Blk) : Result (List Line) := outputCompare .ne b

/-- What `output_bnz` and `output_bez` share. -/
def outputZero (cond : Cond) (b : Blk) : Result (List Line) := do
  let id ← target b
  pure [.branch cond (← rname b.cmp0) rx0 id]

/-- `output_bnz`. -/
def outputBnz (b : Blk) : Result (List Line) := outputZero .ne b

/-- `output_bez`. -/
def outputBez (b : Blk) : Result (List Line) := outputZero .eq b

/-- `output_ret`. -/
def outputRet (f : Fn) : List Line := restoreState f ++ [.ret]

/-- `output_j`. -/
def outputJ (b : Blk) : Result (List Line) :=
  if b.toLabel.isNone ∨ b.s1 = b.s2 then .ok [] else do
    pure [.jal (← target b)]

/-- `output_branch`. -/
def outputBranch (f : Fn) (b : Blk) : Result (List Line) :=
  match b.btype with
  | .ret => .ok (outputRet f)
  | .j => outputJ b
  | .blt => outputBlt b
  | .ble => outputBle b
  | .bne => outputBne b
  | .bnz => outputBnz b
  | .bez => outputBez b
  | _ => .error .unimplemented

/-- `enum move_status`. -/
inductive MoveStatus where
  | toMove
  | beingMoved
  | moved
deriving DecidableEq, Repr

/-- What `move_one` changes: the arguments, the status vector and the lines printed. -/
structure Moving where
  args : List Val
  status : List MoveStatus
  lines : List Line := []
deriving DecidableEq, Repr

/-- `blk_param_at`. -/
def blkParamAt (vals : List Val) (i : Nat) : Result Val :=
  match vals[i]? with
  | some v => .ok v
  | none => .error .outOfBounds

/-- The `switch` of `move_one` over the status of an argument `a` that `p` would clobber. -/
def moveReader (moveOne : Moving → Nat → Result Moving) (m : Moving) (ai : Nat) (a : Val) :
    Result Moving :=
  match m.status[ai]? with
  | some .toMove => moveOne m ai
  | some .beingMoved => do
    let lines ← outputMove (insnCreate .move .notype (.reg rtmp0) a .noclass 0)
    pure { m with args := m.args.set ai (.reg rtmp0), lines := m.lines ++ lines }
  | some .moved => .ok m
  | none => .error .outOfBounds

/-- The loop of `move_one` over the arguments, for one argument. -/
def moveReaders (moveOne : Moving → Nat → Result Moving) (p : Val) (m : Moving) (ai : Nat) :
    Result Moving := do
  let a ← blkParamAt m.args ai
  if a.same p then moveReader moveOne m ai a else pure m

/-- `move_one`. -/
def moveOne (params : List Val) : Nat → Moving → Nat → Result Moving
  | 0, _, _ => .error .diverged
  | fuel + 1, m, pi => do
    let p ← blkParamAt params pi
    let a ← blkParamAt m.args pi
    if p.same a then pure m
    else
      let m ← (List.range m.args.length).foldlM (moveReaders (moveOne params fuel) p)
        { m with status := m.status.set pi .beingMoved }
      let lines ← outputMove (insnCreate .move .notype p a .noclass 0)
      pure { m with status := m.status.set pi .moved, lines := m.lines ++ lines }

/-- The loop of `output_moves`, for one parameter. -/
def moveParam (params : List Val) (m : Moving) (pi : Nat) : Result Moving :=
  if m.status[pi]? = some .toMove then moveOne params (params.length + 1) m pi else .ok m

/-- `output_moves`. The recursion of `move_one` is at most as deep as there are
parameters to move. -/
def outputMoves (params args : List Val) : Result (List Line) := do
  Result.check (params.length = args.length) .lengthMismatch
  let m ← (List.range params.length).foldlM (moveParam params)
    { args, status := params.map fun _ => .toMove }
  pure m.lines

/-- The moves to the parameters of a successor, if there is one. -/
def outputEdge (f : Fn) (next : Option Nat) (args : List Val) : Result (List Line) := do
  match next with
  | none => pure []
  | some id => outputMoves (← f.deref id).params args

/-- What `output` prints behind the instructions of a block. -/
def outputEnd (f : Fn) (b : Blk) : Result (List Line) := do
  let moves2 ← outputEdge f b.s2 b.args2
  let branch ← outputBranch f b
  let moves1 ← if b.btype = .j then pure [] else outputEdge f b.s1 b.args1
  pure (moves2 ++ branch ++ moves1)

/-- What `output` prints for the instructions of a block. -/
def outputInsns (f : Fn) (insns : List Insn) : Result (List Line) := do
  pure (← insns.mapM (outputInsn f)).flatten

/-- What `output` prints for a block. -/
def outputBlk (f : Fn) (b : Blk) : Result (List Line) := do
  let insns ← outputInsns f b.insns
  let last ← outputEnd f b
  pure (.label b.id :: insns ++ last)

/-- `output`. -/
def output (f : Fn) : Result (List Line) := do
  let blks ← f.blks.mapM (outputBlk f)
  pure (.function f.name :: saveState f ++ blks.flatten)

end Qbt.Asm
