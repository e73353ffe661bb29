import Qbt.Frontend.Source
import Qbt.IR.Cfg

/-!
# Textual execution

The meaning of a function body as it is written: the parameters are read, then the
statements execute in textual order, and a jump continues at the first statement
after the first occurrence of its label. Identifiers stand for temporaries through
a numbering `ν`.
-/

namespace Qbt.Frontend

/-- The operand an `arg` denotes. -/
def Arg.val (ν : String → Nat) : Arg → Val
  | .id name => .tmp (ν name)
  | .int n => .imm n .notype

/-- The instruction a plain statement denotes. -/
def Plain.insn (ν : String → Nat) : Plain → Insn
  | .binary op type dst left right =>
    insnCreate op.insn type (.tmp (ν dst)) (left.val ν) (right.val ν) 0
  | .unary op type dst operand =>
    insnCreate op.insn type (.tmp (ν dst)) (operand.val ν) .noclass 0
  | .immInt type dst n => insnCreate .copy type (.tmp (ν dst)) (.imm n .i27) .noclass 0
  | .immRef type dst symbol => insnCreate .copy type (.tmp (ν dst)) (.ref symbol) .noclass 0
  | .move type dst src => insnCreate .move type (.tmp (ν dst)) (.tmp (ν src)) .noclass 0
  | .load type dst base offset =>
    insnCreate .load type (.tmp (ν dst)) (.tmp (ν base)) .noclass offset
  | .store value type base offset =>
    insnCreate .store type .noclass (.tmp (ν base)) (value.val ν) offset
  | .blit dst size src =>
    insnCreate .blit .notype .noclass (.tmp (ν dst)) (.tmp (ν src)) size
  | .alloc type dst size => insnCreate .alloc type (.tmp (ν dst)) .noclass .noclass size
  | .addr type dst src => insnCreate .addr type (.tmp (ν dst)) (.tmp (ν src)) .noclass 0
  | .dealloc size => insnCreate .dealloc .notype .noclass .noclass .noclass size

/-- What a call transfers control to. -/
def Callee.val (ν : String → Nat) : Callee → Val
  | .symbol name => .ref name
  | .id name => .tmp (ν name)

/-- The `k`-th parameter is read into its temporary. -/
def paramInsn (ν : String → Nat) (k : Nat) (entry : VType × String) : Insn :=
  insnCreate .param entry.1 (.tmp (ν entry.2)) .noclass (.imm k .i27) 0

/-- The `k`-th call argument is passed. -/
def argInsn (ν : String → Nat) (k : Nat) (a : Arg) : Insn :=
  insnCreate .arg .notype .noclass (a.val ν) (.imm k .i27) 0

/-- The call itself. -/
def callInsn (ν : String → Nat) (target : Callee) : Insn :=
  insnCreate .call .notype .noclass (target.val ν) .noclass 0

/-- The `k`-th call result is read into its temporary. -/
def retvalInsn (ν : String → Nat) (k : Nat) (name : String) : Insn :=
  insnCreate .retval .notype (.tmp (ν name)) .noclass (.imm k .i27) 0

/-- The `k`-th return value is passed. -/
def retargInsn (ν : String → Nat) (k : Nat) (a : Arg) : Insn :=
  insnCreate .retarg .notype .noclass (a.val ν) (.imm k .i27) 0

/-- The instructions a statement denotes, in order. -/
def Stmt.insns (ν : String → Nat) : Stmt → List Insn
  | .plain s => [s.insn ν]
  | .call target args rets =>
    args.mapIdx (argInsn ν) ++ callInsn ν target :: rets.mapIdx (retvalInsn ν)
  | .leave args => args.mapIdx (retargInsn ν)
  | _ => []

/-- Where control goes after a statement. -/
inductive Exit where
  | fall
  | goto (label : String)
  | cond (type : InsnType) (a0 a1 : Val) (label : String)
  | leave
deriving DecidableEq, Repr

/-- The exit a statement denotes. -/
def Stmt.exit (ν : String → Nat) : Stmt → Exit
  | .plain _ | .call _ _ _ => .fall
  | .branch op left right label => .cond op.branch (left.val ν) (right.val ν) label
  | .branchNz operand label => .cond .bnz (operand.val ν) .noclass label
  | .branchEz operand label => .cond .bez (operand.val ν) .noclass label
  | .jump label => .goto label
  | .leave _ => .leave

/-- Every label of a list of items, with the position of the statement behind it. -/
def labelsFrom (start : Nat) : List Item → List (String × Nat)
  | [] => []
  | it :: rest => it.labels.map (·, start) ++ labelsFrom (start + 1) rest

/-- Every label of a body, in textual order. -/
def Body.labels (body : Body) : List (String × Nat) :=
  body.lead.map (·, 0) ++ labelsFrom 0 body.items

/-- Where the textual execution is. -/
inductive TextCtrl where
  | start
  | item (position : Nat)
  | returned
  /-- a jump to an unknown label, or past the last statement -/
  | stuck
deriving DecidableEq, Repr

section Execution

variable {σ ε : Type} (I : Interp σ ε) (ν : String → Nat) (source : Function)

/-- Continue behind the first occurrence of a label. -/
def textGoto (label : String) : TextCtrl :=
  match source.body.labels.lookup label with
  | none => .stuck
  | some position => .item position

/-- Leave the statement at a position through its exit. -/
def leaveStmt (position : Nat) (exit : Exit) (state : σ) : List ε × (TextCtrl × σ) :=
  match exit with
  | .fall => ([], (.item (position + 1), state))
  | .goto label => ([], (textGoto source label, state))
  | .cond type a0 a1 label =>
    let taken := I.taken type a0 a1 state
    (I.decision taken,
      (if taken then textGoto source label else .item (position + 1), state))
  | .leave => (I.leave state, (.returned, state))

/-- Execute the statement at a position. -/
def stepStmt (position : Nat) (s : Stmt) (state : σ) : List ε × (TextCtrl × σ) :=
  let done := I.perform (s.insns ν) state
  let left := leaveStmt I source position (s.exit ν) done.2
  (done.1 ++ left.1, left.2)

/-- The body as a machine that executes one statement in each step. -/
def textMachine : Machine (TextCtrl × σ) ε where
  step config :=
    match config.1 with
    | .start =>
      let done := I.perform (source.params.mapIdx (paramInsn ν)) config.2
      some (done.1, (.item 0, done.2))
    | .item position =>
      match source.body.items[position]? with
      | none => some ([], (.stuck, config.2))
      | some it => some (stepStmt I ν source position it.stmt config.2)
    | _ => none

variable {I ν source}

/-- A stuck text goes no further. -/
theorem textMachine_stuck {config : TextCtrl × σ} (stuck : config.1 = .stuck) :
    (textMachine I ν source).step config = none := by
  simp [textMachine, stuck]

end Execution

end Qbt.Frontend
