import Qbt.Std.Padded
import Qbt.Std.Machine
import Qbt.Std.Lists
import Qbt.IR.Nodes
import Qbt.IR.Semantics
import Qbt.Std.Dataflow
import Qbt.Ssa.Prune
import Qbt.Correct.Keeps
import Qbt.Frontend.Parser
import Qbt.Frontend.Text
import Qbt.Frontend.Graph
import Qbt.Ssa.Collect
import Qbt.Ssa.Rename
import Qbt.Ssa.Simulation
import Qbt.Correct.Simulation
import Qbt.Ssa.Liveness
import Qbt.Abi.Abi0
import Qbt.Abi.KeepsShape
import Qbt.Abi.Simulation
import Qbt.Asm.Asm
import Qbt.Asm.Assignment
import Qbt.Correct.Addressed
import Qbt.Correct.Fresh
import Qbt.Correct.Normal
import Qbt.Ssa.TraversedOnce
import Qbt.Abi.Lists
import Qbt.Asm.Prepared
import Qbt.Asm.Selection
import Qbt.Regalloc.Input
import Qbt.Regalloc.CallSaves
import Qbt.Regalloc.LiveRanges
import Qbt.Regalloc.Total
import Qbt.Regalloc.Preserves
import Qbt.Asm.CalleeSave
import Qbt.Regalloc.Values
import Qbt.Abi.Order
import Qbt.Regalloc.Setup
import Qbt.Regalloc.Handover
import Qbt.Correct.Total
import Qbt.Frontend.Lexer
import Qbt.Regalloc.ActiveSet
import Qbt.Std.Bytes
import Qbt.Vec.Refinement
import Qbt.Frontend.Accepted
import Qbt.Compiler.Main
