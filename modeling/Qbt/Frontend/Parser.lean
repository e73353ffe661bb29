import Qbt.Frontend.Source

/-!
# Parser actions

The semantic actions of `src/parser.y` and the builders of `src/nodes.c` they
call. `struct parser` is split: the current block `p->b`, which is always the last
element of `p->f->blks`, is the field `b`, and `f.blks` holds the blocks before it.
-/

namespace Qbt.Frontend

open Qbt.Result (check)

/-- The fields of `struct parser` that building a function uses. -/
structure Parser where
  f : Fn
  b : Blk
  idx : Nat
deriving DecidableEq, Repr

/-- `idmatch`: the temporary an identifier stands for, if it has one. -/
def idmatch (f : Fn) (id : String) : Option Nat := f.tmps.lookup id

/-- `idalloc`: the temporary an identifier stands for, made if necessary. -/
def idalloc (f : Fn) (id : String) : Fn × Nat :=
  match idmatch f id with
  | some t => (f, t)
  | none => ({ f with ntmp := f.ntmp + 1, tmps := f.tmps ++ [(id, f.ntmp)] }, f.ntmp)

/-- `finish_block`. -/
def finishBlock (b : Blk) (type : InsnType) (a0 a1 : Val) (label : Option String) : Result Blk := do
  check type.endsBlock .blockType
  pure { b with btype := type, cmp0 := a0, cmp1 := a1, toLabel := label }

/-- `new_block`: the next block pointer. -/
def newBlock (f : Fn) : Fn × Blk :=
  ({ f with nblk := f.nblk + 1 }, { id := f.nblk + 1 })

/-- `new_function`, together with the current block `parse` sets. -/
def newFunction (idx : Nat) : Parser :=
  let created := newBlock {}
  { f := created.1, b := created.2, idx := idx }

namespace Parser

/-- `do_idalloc`. -/
def doIdalloc (p : Parser) (id : String) : Parser × Val :=
  let allocated := idalloc p.f id
  ({ p with f := allocated.1 }, .tmp allocated.2)

/-- `do_idtoval`. -/
def doIdtoval (p : Parser) (id : String) : Result Val :=
  match idmatch p.f id with
  | some t => .ok (.tmp t)
  | none => .error .noTemporary

/-- `do_insadd`. -/
def doInsadd (p : Parser) (type : InsnType) (vtype : VType) (out in0 in1 : Val) (v : Int) :
    Parser :=
  { p with b := insadd p.b type vtype out in0 in1 v }

/-- `do_new_block`. The finished block falls through to the new one, which is also
the target of a jump without a label. -/
def doNewBlock (p : Parser) (type : InsnType) (a0 a1 : Val) (label : Option String) :
    Result Parser := do
  let finished ← finishBlock p.b type a0 a1 label
  let created := newBlock p.f
  let linked :=
    if finished.btype = .ret then finished
    else if finished.btype = .j ∧ label = none then
      { finished with s1 := some created.2.id, s2 := some created.2.id }
    else { finished with s1 := some created.2.id }
  pure { p with f := { created.1 with blks := created.1.blks ++ [linked] }, b := created.2 }

/-- `do_new_label`. -/
def doNewLabel (p : Parser) (name : String) : Parser :=
  { p with f := { p.f with labels := p.f.labels ++ [(name, p.b.id)] } }

/-- `do_ins_replace`. -/
def doInsReplace (p : Parser) (i : Nat) (n : Insn) : Result Parser := do
  check (i < p.b.insns.length) .outOfBounds
  pure { p with b := { p.b with insns := p.b.insns.set i n } }

/-- `reset_index`. -/
def resetIndex (p : Parser) : Parser := { p with idx := 0 }

/-- `label`. -/
def label (p : Parser) (id : String) : Result Parser := do
  if p.b.insns.isEmpty then
    pure (doNewLabel { p with b := { p.b with name := some id } } id)
  else
    let p ← p.doNewBlock .j .noclass .noclass none
    pure (doNewLabel { p with b := { p.b with name := some id } } id)

/-- `arg`. -/
def arg (p : Parser) : Arg → Result Val
  | .id name => p.doIdtoval name
  | .int n => pure (.imm n .notype)

/-- `param`. -/
def param (p : Parser) (type : VType) (id : String) : Parser :=
  let (p, t) := p.doIdalloc id
  { p.doInsadd .param type t .noclass (.imm p.idx .i27) 0 with idx := p.idx + 1 }

/-- The actions of the plain statements. -/
def plain (p : Parser) : Plain → Result Parser
  | .binary op type dst left right => do
    let a0 ← p.arg left
    let a1 ← p.arg right
    let (p, t) := p.doIdalloc dst
    pure (p.doInsadd op.insn type t a0 a1 0)
  | .unary op type dst operand => do
    let a0 ← p.arg operand
    let (p, t) := p.doIdalloc dst
    pure (p.doInsadd op.insn type t a0 .noclass 0)
  | .immInt type dst n =>
    let (p, t) := p.doIdalloc dst
    pure (p.doInsadd .copy type t (.imm n .i27) .noclass 0)
  | .immRef type dst symbol =>
    let (p, t) := p.doIdalloc dst
    pure (p.doInsadd .copy type t (.ref symbol) .noclass 0)
  | .move type dst src => do
    let (p, t) := p.doIdalloc dst
    let a0 ← p.doIdtoval src
    pure (p.doInsadd .move type t a0 .noclass 0)
  | .load type dst base offset => do
    let (p, t) := p.doIdalloc dst
    let a0 ← p.doIdtoval base
    pure (p.doInsadd .load type t a0 .noclass offset)
  | .store value type base offset => do
    let a1 ← p.arg value
    let a0 ← p.doIdtoval base
    pure (p.doInsadd .store type .noclass a0 a1 offset)
  | .blit dst size src => do
    let a0 ← p.doIdtoval dst
    let a1 ← p.doIdtoval src
    pure (p.doInsadd .blit .notype .noclass a0 a1 size)
  | .alloc type dst size =>
    let (p, t) := p.doIdalloc dst
    pure (p.doInsadd .alloc type t .noclass .noclass size)
  | .addr type dst src => do
    let (p, t) := p.doIdalloc dst
    let a0 ← p.doIdtoval src
    pure (p.doInsadd .addr type t a0 .noclass 0)
  | .dealloc size => pure (p.doInsadd .dealloc .notype .noclass .noclass .noclass size)

/-- `call_arg`, and `proc_ret` with its own instruction type. -/
def numbered (type : InsnType) (p : Parser) (a : Arg) : Result Parser := do
  let a0 ← p.arg a
  pure { p.doInsadd type .notype .noclass a0 (.imm p.idx .i27) 0 with idx := p.idx + 1 }

/-- `call_arg`. -/
def callArg : Parser → Arg → Result Parser := numbered .arg

/-- `proc_ret`. -/
def procRet : Parser → Arg → Result Parser := numbered .retarg

/-- `call_ret`. -/
def callRet (p : Parser) (id : String) : Parser :=
  let (p, t) := p.doIdalloc id
  { p.doInsadd .retval .notype t .noclass (.imm p.idx .i27) 0 with idx := p.idx + 1 }

/-- The value a call names; an identifier is looked up only after the results have
been allocated. -/
def callee (p : Parser) : Callee → Result Val
  | .symbol name => pure (.ref name)
  | .id name => p.doIdtoval name

/-- `call`. The CALL is inserted as a placeholder between arguments and results and
completed at the end. -/
def call (p : Parser) (target : Callee) (args : List Arg) (rets : List String) :
    Result Parser := do
  let p ← args.foldlM callArg p.resetIndex
  let placeholder := p.b.insns.length
  let p := p.doInsadd .call .notype .noclass .noclass .noclass 0
  let p := rets.foldl callRet p.resetIndex
  let a0 ← p.callee target
  let p ← p.doInsReplace placeholder (insnCreate .call .notype .noclass a0 .noclass 0)
  p.doNewBlock .j .noclass .noclass none

/-- `insn`. -/
def stmt (p : Parser) : Stmt → Result Parser
  | .plain s => p.plain s
  | .branch op left right target => do
    let a0 ← p.arg left
    let a1 ← p.arg right
    p.doNewBlock op.branch a0 a1 (some target)
  | .branchNz operand target => do
    let a0 ← p.arg operand
    p.doNewBlock .bnz a0 .noclass (some target)
  | .branchEz operand target => do
    let a0 ← p.arg operand
    p.doNewBlock .bez a0 .noclass (some target)
  | .jump target => p.doNewBlock .j .noclass .noclass (some target)
  | .call target args rets => p.call target args rets
  | .leave args => do
    let p ← args.foldlM procRet p.resetIndex
    p.doNewBlock .ret .noclass .noclass none

/-- `labels insn`. -/
def item (p : Parser) (it : Item) : Result Parser := do
  let p ← it.labels.foldlM label p
  p.stmt it.stmt

/-- `body`. -/
def body (p : Parser) (source : Body) : Result Parser := do
  let p ← source.lead.foldlM label p
  source.items.foldlM item p

/-- `label_find`: the first entry of that name. -/
def labelFind (f : Fn) (name : String) : Option Nat := f.labels.lookup name

/-- The last loop of `finish_function`, for one block. -/
def resolve (f : Fn) (b : Blk) : Result Blk :=
  match b.toLabel with
  | none => pure b
  | some name =>
    match labelFind f name with
    | none => .error .noLabel
    | some id => pure { b with s2 := some id }

/-- `finish_function`. The trailing block `p->b` is popped and destroyed. -/
def finishFunction (p : Parser) (name : String) : Result Fn := do
  check p.b.insns.isEmpty .missingReturn
  match p.f.blks.getLast? with
  | none => .error .outOfBounds
  | some last =>
    check last.isReturn .notReturn
    let blks := p.f.blks.dropLast ++ [{ last with s1 := none, s2 := none }]
    let resolved ← blks.mapM (resolve p.f)
    pure { p.f with name := name, blks := resolved }

end Parser

/-- `function`: from the parse tree to the finished function. `idx` is what an
earlier function left in `parser->idx`. -/
def buildFunction (idx : Nat) (source : Function) : Result Fn := do
  let p := (newFunction idx).resetIndex
  let p := source.params.foldl (fun p entry => p.param entry.1 entry.2) p
  let p ← p.body source.body
  p.finishFunction source.name

/-- A function as the parser hands it to `optimize`. -/
def ParserBuilt (f : Fn) : Prop :=
  ∃ idx source, buildFunction idx source = .ok f

end Qbt.Frontend
