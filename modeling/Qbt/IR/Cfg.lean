import Qbt.IR.Nodes
import Qbt.Std.Machine

/-!
# Execution of a block graph

How the blocks of a function execute, for any interpretation of the instructions:
run a block's instructions in order, then follow `s2` when the branch is taken or
unconditional, `s1` when a conditional branch is not taken, and stop at a return.
Following an edge assigns the edge's arguments to the target's parameters; before
`ssa` both lists are empty.
-/

namespace Qbt

/-- An interpretation of instructions over program states `σ`, with the events an
observer is shown. -/
structure Interp (σ ε : Type) where
  /-- the effect of an instruction -/
  exec : Insn → σ → σ
  /-- what is observed of an instruction that is about to execute -/
  observe : Insn → σ → List ε
  /-- whether a conditional block takes its branch -/
  taken : InsnType → Val → Val → σ → Bool
  /-- what is observed of a branch decision -/
  decision : Bool → List ε
  /-- simultaneous assignment of the values of the second list to the first -/
  assign : List Val → List Val → σ → σ
  /-- what is observed of a return -/
  leave : σ → List ε
  assign_nil : ∀ state, assign [] [] state = state

/-- Where control is. -/
inductive Ctrl where
  | block (id : Nat)
  | returned
  /-- a null or destroyed successor was followed -/
  | stuck
deriving DecidableEq, Repr

namespace Interp

variable {σ ε : Type}

/-- Execute a list of instructions. -/
def perform (I : Interp σ ε) : List Insn → σ → List ε × σ
  | [], state => ([], state)
  | insn :: rest, state =>
    (I.observe insn state ++ (I.perform rest (I.exec insn state)).1,
      (I.perform rest (I.exec insn state)).2)

@[simp] theorem perform_nil (I : Interp σ ε) (state : σ) : I.perform [] state = ([], state) := rfl

@[simp] theorem perform_cons (I : Interp σ ε) (insn : Insn) (rest : List Insn) (state : σ) :
    I.perform (insn :: rest) state =
      (I.observe insn state ++ (I.perform rest (I.exec insn state)).1,
        (I.perform rest (I.exec insn state)).2) := rfl

/-- Instruction lists execute one after the other. -/
theorem perform_append (I : Interp σ ε) (first second : List Insn) (state : σ) :
    I.perform (first ++ second) state =
      ((I.perform first state).1 ++ (I.perform second (I.perform first state).2).1,
        (I.perform second (I.perform first state).2).2) := by
  induction first generalizing state with
  | nil => simp
  | cons insn rest ih => simp [ih]

/-- Follow an edge to a successor. -/
def follow (I : Interp σ ε) (f : Fn) (target : Option Nat) (args : List Val) (state : σ) :
    Ctrl × σ :=
  match target.bind f.find? with
  | none => (.stuck, state)
  | some b => (.block b.id, I.assign b.params args state)

/-- Leave a block whose instructions have executed. -/
def depart (I : Interp σ ε) (f : Fn) (b : Blk) (state : σ) : List ε × (Ctrl × σ) :=
  match b.btype with
  | .ret => (I.leave state, (.returned, state))
  | .j => ([], I.follow f b.s2 b.args2 state)
  | type =>
    let taken := I.taken type b.cmp0 b.cmp1 state
    (I.decision taken,
      if taken then I.follow f b.s2 b.args2 state else I.follow f b.s1 b.args1 state)

/-- Execute one block and leave it. -/
def stepBlock (I : Interp σ ε) (f : Fn) (b : Blk) (state : σ) : List ε × (Ctrl × σ) :=
  let done := I.perform b.insns state
  let left := I.depart f b done.2
  (done.1 ++ left.1, left.2)

/-- The function as a machine that executes one block in each step. -/
def machine (I : Interp σ ε) (f : Fn) : Machine (Ctrl × σ) ε where
  step config :=
    match config.1 with
    | .block id =>
      match f.find? id with
      | none => some ([], (.stuck, config.2))
      | some b => some (I.stepBlock f b config.2)
    | _ => none

/-- The block a function starts in, `blks[0]`. -/
def entry (f : Fn) : Ctrl :=
  match f.blks with
  | [] => .stuck
  | b :: _ => .block b.id

/-- Following an edge to a listed block. -/
theorem follow_some {I : Interp σ ε} {f : Fn} {id : Nat} {b : Blk}
    (found : f.find? id = some b) (args : List Val) (state : σ) :
    I.follow f (some id) args state = (.block id, I.assign b.params args state) := by
  simp [follow, found, Fn.find?_id found]

/-- A return leaves the function. -/
theorem depart_ret {I : Interp σ ε} {f : Fn} {b : Blk} (type : b.btype = .ret) (state : σ) :
    I.depart f b state = (I.leave state, (.returned, state)) := by
  simp [depart, type]

/-- A jump follows the second edge. -/
theorem depart_j {I : Interp σ ε} {f : Fn} {b : Blk} (type : b.btype = .j) (state : σ) :
    I.depart f b state = ([], I.follow f b.s2 b.args2 state) := by
  simp [depart, type]

/-- A branch shows its decision and follows an edge accordingly. -/
theorem depart_cond {I : Interp σ ε} {f : Fn} {b : Blk} (stays : b.btype ≠ .ret)
    (conditional : b.btype ≠ .j) (state : σ) :
    I.depart f b state = (I.decision (I.taken b.btype b.cmp0 b.cmp1 state),
      if I.taken b.btype b.cmp0 b.cmp1 state then I.follow f b.s2 b.args2 state
      else I.follow f b.s1 b.args1 state) := by
  unfold depart
  cases type : b.btype <;> first | rfl | contradiction

/-- A step runs the block that is reached, to its end. -/
theorem machine_step_block {I : Interp σ ε} {f : Fn} {id : Nat} {b : Blk}
    (found : f.find? id = some b) (state : σ) :
    (I.machine f).step (.block id, state) = some (I.stepBlock f b state) := by
  simp [machine, found]

end Interp
end Qbt
