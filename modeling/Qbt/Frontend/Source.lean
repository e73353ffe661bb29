import Qbt.IR.Nodes

/-!
# Source functions

The parse trees of the rule `function` in `src/parser.y`. Rules that differ only
in their operator token share a constructor with the operator as a field. A body
starts with labels of its own, `lead`, when its first element is a bare `labels`;
every later element is one statement behind any number of labels.
-/

namespace Qbt.Frontend

/-- `arg`: an identifier or an integer. -/
inductive Arg where
  | id (name : String)
  | int (n : Int)
deriving DecidableEq, Repr

/-- The operator tokens between two `arg`s in `arith`, `cond` and `logic`. -/
inductive BinOp where
  | add | sub | mul | div | rem
  | eq | ne | le | ge | lt | gt
  | lshift | rshift
deriving DecidableEq, Repr

/-- The instruction each operator inserts. -/
def BinOp.insn : BinOp → InsnType
  | .add => .add
  | .sub => .sub
  | .mul => .mul
  | .div => .div
  | .rem => .rem
  | .eq => .eq
  | .ne => .ne
  | .le => .le
  | .ge => .ge
  | .lt => .lt
  | .gt => .gt
  | .lshift => .lshift
  | .rshift => .rshift

/-- The operator tokens before an `arg` in `logic`. -/
inductive UnOp where
  | not | neg
deriving DecidableEq, Repr

/-- The instruction each operator inserts. -/
def UnOp.insn : UnOp → InsnType
  | .not => .not
  | .neg => .neg

/-- The comparison tokens of `branch`. -/
inductive Cond where
  | eq | ne | le | ge | lt | gt
deriving DecidableEq, Repr

/-- The block type each comparison sets. -/
def Cond.branch : Cond → InsnType
  | .eq => .beq
  | .ne => .bne
  | .le => .ble
  | .ge => .bge
  | .lt => .blt
  | .gt => .bgt

/-- A statement that inserts one instruction: `arith`, `imm`, `move`, `mem`,
`stack`, `cond` and `logic`. -/
inductive Plain where
  /-- `type id = arg op arg` -/
  | binary (op : BinOp) (type : VType) (dst : String) (left right : Arg)
  /-- `type id = op arg` -/
  | unary (op : UnOp) (type : VType) (dst : String) (operand : Arg)
  /-- `type id = int` -/
  | immInt (type : VType) (dst : String) (n : Int)
  /-- `type id = &id` -/
  | immRef (type : VType) (dst : String) (symbol : String)
  /-- `type id = id` -/
  | move (type : VType) (dst src : String)
  /-- `type id << id int` -/
  | load (type : VType) (dst base : String) (offset : Int)
  /-- `arg >> type id int` -/
  | store (value : Arg) (type : VType) (base : String) (offset : Int)
  /-- `id <<* int id` -/
  | blit (dst : String) (size : Int) (src : String)
  /-- `type id = ^ int` -/
  | alloc (type : VType) (dst : String) (size : Int)
  /-- `type id = ^ id` -/
  | addr (type : VType) (dst src : String)
  /-- `^ ^ int` -/
  | dealloc (size : Int)
deriving DecidableEq, Repr

/-- What a call names: `&id` or `id`. -/
inductive Callee where
  | symbol (name : String)
  | id (name : String)
deriving DecidableEq, Repr

/-- `insn`: a plain statement, or one that ends the block. -/
inductive Stmt where
  | plain (stmt : Plain)
  /-- `arg op arg -> id` -/
  | branch (op : Cond) (left right : Arg) (label : String)
  /-- `arg -> id` -/
  | branchNz (operand : Arg) (label : String)
  /-- `! arg -> id` -/
  | branchEz (operand : Arg) (label : String)
  /-- `-> id` -/
  | jump (label : String)
  /-- `callee (args) => (rets)` -/
  | call (callee : Callee) (args : List Arg) (rets : List String)
  /-- `=> (args)` -/
  | leave (args : List Arg)
deriving DecidableEq, Repr

/-- `labels insn`, or `insn` when there are no labels. -/
structure Item where
  labels : List String := []
  stmt : Stmt
deriving DecidableEq, Repr

/-- `body`. -/
structure Body where
  lead : List String := []
  items : List Item
deriving DecidableEq, Repr

/-- `function`. -/
structure Function where
  name : String
  params : List (VType × String) := []
  body : Body
deriving DecidableEq, Repr

end Qbt.Frontend
