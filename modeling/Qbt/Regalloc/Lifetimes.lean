import Qbt.IR.Nodes
import Qbt.Std.Padded

/-!
# Lifetimes

The first half of `src/regalloc.c`: rewrite rules, hints, and the lifetimes of the
temporaries of a block. The vectors are indexed by the number of a temporary. The
parameters of a block are at position 0, its instructions at positions from 1 on, and
its comparison and its arguments at the position behind them.
-/

namespace Qbt

/-- The field `r` of a value, which numbers a register or temporary. -/
def Val.num : Val → Nat
  | .reg r => r
  | .tmp t => t
  | .imm _ .notype => 0
  | .imm _ .i9 => 1
  | .imm _ .i27 => 2
  | .mem base _ => base
  | .ref _ => 0
  | .noclass => 0

namespace Regalloc

/-- `has_rewrite_rule`. -/
def hasRewriteRule (rmap : List Val) (t : Val) : Bool :=
  (rmap.getD t.num .noclass).hasclass

/-- `rewrite_tmp`. -/
def rewriteTmp (rmap : List Val) : Val → Result Val
  | .tmp t =>
    match rmap[t]? with
    | none => .error .outOfBounds
    | some .noclass => .error .noRule
    | some r => .ok r
  | _ => .error .valClass

/-- `add_rewrite_rule`. -/
def addRewriteRule (rmap : List Val) (v to' : Val) : Result (List Val) :=
  match v, to' with
  | .tmp t, .reg r => .ok (Padded.write .noclass rmap t (.reg r))
  | _, _ => .error .valClass

/-- `add_hint`. -/
def addHint (hints : List Val) (v to' : Val) : Result (List Val) := addRewriteRule hints v to'

/-- `get_hint`. -/
def getHint (hints : List Val) (v : Val) : Val := hints.getD v.num .noclass

/-- `struct lifetime`; `finish` is its field `end`. -/
structure Lifetime where
  v : Val := .noclass
  start : Nat := 0
  finish : Nat := 0
  used : Nat := 0
deriving DecidableEq, Repr

/-- `add_def`. -/
def addDef (lifetimes : List Lifetime) (v : Val) (i : Nat) : List Lifetime :=
  Padded.write {} lifetimes v.num { v, start := i, finish := i, used := 1 }

/-- `add_use`. -/
def addUse (lifetimes : List Lifetime) (v : Val) (i : Nat) : Result (List Lifetime) :=
  match lifetimes[v.num]? with
  | none => .error .outOfBounds
  | some l => do
    Result.check (l.used ≠ 0) .noRule
    pure (lifetimes.set v.num { l with used := l.used + 1, finish := i })

/-- `add_use` where the operand is a temporary. -/
def useTmp (lifetimes : List Lifetime) (v : Val) (i : Nat) : Result (List Lifetime) :=
  if v.isTmp then addUse lifetimes v i else .ok lifetimes

/-- `add_def` where the output is a temporary. -/
def defTmp (lifetimes : List Lifetime) (v : Val) (i : Nat) : List Lifetime :=
  if v.isTmp then addDef lifetimes v i else lifetimes

/-- What `collect_lifetimes` fills in: the hints and rules of the function so far, and
the lifetimes and calls of the block. -/
structure Collected where
  hints : List Val
  lifetimes : List Lifetime
  rmap : List Val
  calls : List Nat
deriving DecidableEq, Repr

/-- The hints a move gives. What is moved from a register also reserves it. -/
def collectHints (c : Collected) (n : Insn) : Result Collected :=
  match n.type, n.out, n.in0 with
  | .move, .tmp _, .reg _ => do
    let hints ← addHint c.hints n.out n.in0
    let rmap ← addRewriteRule c.rmap n.out n.in0
    pure { c with hints, rmap }
  | .move, .reg _, .tmp _ => do
    let hints ← addHint c.hints n.in0 n.out
    pure { c with hints }
  | _, _, _ => pure c

/-- The loop of `collect_lifetimes` over the instructions, for one instruction. -/
def collectInsn (c : Collected) (n : Insn) (pos : Nat) : Result Collected := do
  let lifetimes ← useTmp c.lifetimes n.in0 pos
  let lifetimes ← useTmp lifetimes n.in1 pos
  let c ← collectHints { c with lifetimes := defTmp lifetimes n.out pos } n
  pure { c with calls := if n.type = .call then c.calls ++ [pos] else c.calls }

/-- The loop of `collect_lifetimes` over the instructions. -/
def collectInsns (c : Collected) : List Insn → Nat → Result Collected
  | [], _ => pure c
  | n :: rest, pos => do
    let c ← collectInsn c n pos
    collectInsns c rest (pos + 1)

/-- The loops of `collect_lifetimes` over the arguments. -/
def collectArgs (lifetimes : List Lifetime) (args : List Val) (pos : Nat) :
    Result (List Lifetime) :=
  args.foldlM (fun lifetimes v => addUse lifetimes v pos) lifetimes

/-- `collect_lifetimes`. -/
def collectLifetimes (b : Blk) (hints rmap : List Val) : Result Collected := do
  let lifetimes := b.params.foldl (fun lifetimes v => addDef lifetimes v 0) []
  let c ← collectInsns { hints, lifetimes, rmap, calls := [] } b.insns 1
  let pos := b.insns.length + 1
  let lifetimes ← useTmp c.lifetimes b.cmp0 pos
  let lifetimes ← useTmp lifetimes b.cmp1 pos
  let lifetimes ← collectArgs lifetimes b.args1 pos
  let lifetimes ← collectArgs lifetimes b.args2 pos
  pure { c with lifetimes }

end Regalloc
end Qbt
