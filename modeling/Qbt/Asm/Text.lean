import Qbt.Asm.CalleeSave
import Qbt.Asm.Execution

/-!
# The text of a function

The blocks are printed one behind the other, and each starts with the only label of its own. So
control that goes to a block goes to its lines, and control that falls out of a block goes to the
block behind it.
-/

namespace Qbt.Asm

/-- Whatever is printed, each of its lines is as `p` says. -/
def Prints (p : Line → Prop) (printing : Result (List Line)) : Prop :=
  ∀ lines, printing = .ok lines → ∀ l ∈ lines, p l

namespace Prints

variable {α : Type} {p : Line → Prop}

/-- Printed lines, each of the kind. -/
theorem ok {lines : List Line} (each : ∀ l ∈ lines, p l) : Prints p (.ok lines) := by
  rintro _ ⟨⟩
  exact each

/-- One printed line of the kind. -/
theorem pure {line : Line} (holds : p line) : Prints p (Pure.pure [line]) :=
  ok (List.forall_mem_singleton.mpr holds)

/-- What is not printed is of any kind. -/
theorem error (fault : Fault) : Prints p (.error fault) := by
  rintro _ ⟨⟩

/-- What is printed in steps is of the kind the last step prints. -/
theorem bind {first : Result α} {behind : α → Result (List Line)}
    (each : ∀ a, Prints p (behind a)) : Prints p (first >>= behind) := by
  intro lines printed
  obtain ⟨a, -, printed⟩ := Result.bind_eq_ok.mp printed
  exact each a lines printed

end Prints

/-- The symbol that a line defines. -/
def Line.symbol? : Line → Option String
  | .function name => some name
  | _ => none

/-- The label that a line defines. -/
def Line.label? : Line → Option Nat
  | .label id => some id
  | _ => none

/-- The label that a line goes to. -/
def Line.leadsTo? : Line → Option Nat
  | .branch _ _ _ id => some id
  | .jal id => some id
  | _ => none

/-- A line that neither defines a name nor goes to one. -/
structure Line.Nameless (l : Line) : Prop where
  symbol : l.symbol? = none
  label : l.label? = none
  target : l.leadsTo? = none

/-- The line is no label. -/
def Line.Unlabelled (l : Line) : Prop := ∀ id, l ≠ .label id

private theorem Line.unlabelled_of_none {l : Line} (none : l.label? = .none) : l.Unlabelled := by
  rintro id rfl
  cases none

/-- Lines without names carry no label. -/
theorem Line.Nameless.unlabelled {l : Line} (nameless : l.Nameless) : l.Unlabelled :=
  Line.unlabelled_of_none nameless.label

/-- What is printed for an instruction: no labels, and transfers of control for calls only. -/
structure Line.Inner (n : Insn) (l : Line) : Prop where
  unlabelled : l.Unlabelled
  straight : n.type ≠ .call → l.straight

/-- What is printed for an instruction names nothing in the text, and only calls go anywhere. -/
theorem outputInsn_lines (m : Fn) (n : Insn) :
    Prints (fun l => l.Nameless ∧ (n.type ≠ .call → l.straight)) (outputInsn m n) := by
  have inner {l : Line} (nameless : l.Nameless) (straight : l.straight) :
      l.Nameless ∧ (n.type ≠ .call → l.straight) := ⟨nameless, fun _ => straight⟩
  unfold outputInsn
  split
  · unfold outputLt
    split
    · exact .bind fun _ => .bind fun _ => .pure (inner ⟨rfl, rfl, rfl⟩ rfl)
    · exact .bind fun _ => .bind fun _ => .bind fun _ => .pure (inner ⟨rfl, rfl, rfl⟩ rfl)
  · unfold outputMove
    split
    · exact .ok (by simp)
    · exact .bind fun _ => .bind fun _ => .pure (inner ⟨rfl, rfl, rfl⟩ rfl)
  · unfold outputAdd
    split
    · exact .bind fun _ => .bind fun _ => .bind fun _ => .pure (inner ⟨rfl, rfl, rfl⟩ rfl)
    · exact .bind fun _ => .bind fun _ => .pure (inner ⟨rfl, rfl, rfl⟩ rfl)
    · exact .error _
  · unfold outputSub
    split
    · exact .bind fun _ => .bind fun _ => .bind fun _ => .pure (inner ⟨rfl, rfl, rfl⟩ rfl)
    · exact .bind fun _ => .bind fun _ => .pure (inner ⟨rfl, rfl, rfl⟩ rfl)
    · exact .error _
  · exact .bind fun _ => .pure (inner ⟨rfl, rfl, rfl⟩ rfl)
  · rename_i type
    unfold outputCall
    split
    · exact .pure ⟨⟨rfl, rfl, rfl⟩, absurd type⟩
    · exact .bind fun _ => .pure ⟨⟨rfl, rfl, rfl⟩, absurd type⟩
    · exact .error _
  · exact .bind fun _ => .bind fun _ => .pure (inner ⟨rfl, rfl, rfl⟩ rfl)
  · exact .bind fun _ => .bind fun _ => .pure (inner ⟨rfl, rfl, rfl⟩ rfl)
  · exact .bind fun _ => .ok (List.forall_mem_cons.mpr
      ⟨inner ⟨rfl, rfl, rfl⟩ rfl, List.forall_mem_singleton.mpr (inner ⟨rfl, rfl, rfl⟩ rfl)⟩)
  · exact .pure (inner ⟨rfl, rfl, rfl⟩ rfl)
  · exact .bind fun _ => .pure (inner ⟨rfl, rfl, rfl⟩ rfl)
  · exact .bind fun _ => .pure (inner ⟨rfl, rfl, rfl⟩ rfl)
  · exact .error _

/-- Instructions print inner lines only. -/
theorem outputInsn_inner (m : Fn) (n : Insn) : Prints (Line.Inner n) (outputInsn m n) := by
  intro lines printed l member
  obtain ⟨nameless, straight⟩ := outputInsn_lines m n lines printed l member
  exact ⟨nameless.unlabelled, straight⟩

private theorem restoreState_nameless (m : Fn) : ∀ l ∈ restoreState m, l.Nameless := by
  intro l member
  simp only [restoreState, List.mem_append, List.mem_cons, List.mem_map, List.not_mem_nil,
    or_false] at member
  rcases member with (⟨i, -, rfl⟩ | calls) | rfl | rfl
  · exact ⟨rfl, rfl, rfl⟩
  · split at calls
    · rw [List.mem_singleton.mp calls]
      exact ⟨rfl, rfl, rfl⟩
    · cases calls
  · exact ⟨rfl, rfl, rfl⟩
  · exact ⟨rfl, rfl, rfl⟩

/-- A line that goes nowhere but to `s2`. -/
structure Line.Ending (b : Blk) (l : Line) : Prop where
  symbol : l.symbol? = none
  label : l.label? = none
  target : ∀ id ∈ l.leadsTo?, b.s2 = some id

/-- Lines without names may stand at the end of any block. -/
theorem Line.Nameless.ending {b : Blk} {l : Line} (nameless : l.Nameless) : l.Ending b :=
  ⟨nameless.symbol, nameless.label, by simp [nameless.target]⟩

private theorem target_eq_ok {b : Blk} {id : Nat} : target b = .ok id ↔ b.s2 = some id := by
  unfold target
  split <;> simp_all

/-- Only the target of the block is named. -/
theorem Prints.target {b : Blk} {p : Line → Prop} {behind : Nat → Result (List Line)}
    (each : ∀ id, b.s2 = some id → Prints p (behind id)) : Prints p (target b >>= behind) := by
  intro lines printed
  obtain ⟨id, isTarget, printed⟩ := Result.bind_eq_ok.mp printed
  exact each id (target_eq_ok.mp isTarget) lines printed

/-- A branch names the target of its block only. -/
theorem outputBranch_ending (m : Fn) (b : Blk) : Prints (Line.Ending b) (outputBranch m b) := by
  have jump {id : Nat} (edge : b.s2 = some id) {l : Line} (symbol : l.symbol? = none)
      (label : l.label? = none) (target : l.leadsTo? = some id) : l.Ending b := by
    refine ⟨symbol, label, fun other goes => ?_⟩
    rw [target] at goes
    exact edge.trans goes
  have compare (cond : Cond) : Prints (Line.Ending b) (outputCompare cond b) :=
    .target fun _ edge => .bind fun _ => .bind fun _ => .pure (jump edge rfl rfl rfl)
  have zero (cond : Cond) : Prints (Line.Ending b) (outputZero cond b) :=
    .target fun _ edge => .bind fun _ => .pure (jump edge rfl rfl rfl)
  unfold outputBranch
  split
  · refine .ok fun l member => ?_
    rcases List.mem_append.mp member with inside | last
    · exact (restoreState_nameless m l inside).ending
    · rw [List.mem_singleton.mp last]
      exact Line.Nameless.ending ⟨rfl, rfl, rfl⟩
  · unfold outputJ
    split
    · exact .ok (by simp)
    · exact .target fun _ edge => .pure (jump edge rfl rfl rfl)
  · exact compare .lt
  · exact compare .le
  · exact compare .ne
  · exact zero .ne
  · exact zero .eq
  · exact .error _

private theorem outputBranch_unlabelled (m : Fn) (b : Blk) :
    Prints Line.Unlabelled (outputBranch m b) := fun lines printed l member =>
  Line.unlabelled_of_none (outputBranch_ending m b lines printed l member).label

section Edges

variable {m : Fn} {b : Blk} {lines : List Line}

/-- What is printed for an edge are moves from the arguments to the parameters. -/
theorem outputEdge_moves (allocated : Allocated m) {next : Option Nat} {args : List Val}
    (inRegs : ∀ a ∈ args, a.Allocable) (printed : outputEdge m next args = .ok lines) :
    ∃ made : List (Nat × Nat), lines = made.map mvLine ∧
      ParallelMove.Implements rtmp0 (edgeMoves m next args) made := by
  cases next with
  | none =>
    cases printed
    exact ⟨[], rfl, ⟨by simp, by simp [edgeMoves], by simp, by simp [edgeMoves]⟩⟩
  | some id =>
    simp only [outputEdge, Result.bind_eq_ok] at printed
    obtain ⟨b, found, printed⟩ := printed
    have found : m.find? id = some b := by
      unfold Fn.deref at found
      split at found
      · rename_i found'
        cases found
        exact found'
      · cases found
    have params := (allocated.inRegs b (Fn.find?_mem found)).1
    have lengths : b.params.length = args.length := by
      simp only [outputMoves, Result.bind_eq_ok, Result.check_eq_ok, decide_eq_true_eq] at printed
      exact printed.choose_spec.1
    obtain ⟨made, printed', implements⟩ := outputMoves_implements lengths
      (fun p listed => hasName_of_allocable (params p listed))
      (fun a listed => hasName_of_allocable (inRegs a listed))
      fun p listed => (real_of_mem (params p listed).num).2
    refine ⟨made, Except.ok.inj (printed.symm.trans printed'), ?_⟩
    simpa [edgeMoves, found] using implements

/-- Moves name nothing. -/
theorem moves_nameless (made : List (Nat × Nat)) : ∀ l ∈ made.map mvLine, l.Nameless := by
  intro l member
  obtain ⟨move, -, rfl⟩ := List.mem_map.mp member
  exact ⟨rfl, rfl, rfl⟩

private theorem unlabelled_moves (made : List (Nat × Nat)) :
    ∀ l ∈ made.map mvLine, l.Unlabelled := fun l member => (moves_nameless made l member).unlabelled

/-- The end of a block: the moves to `s2`, the branch, and behind it the moves to `s1`. -/
structure PrintedParts (m : Fn) (b : Blk) (last : List Line) where
  made2 : List (Nat × Nat)
  branch : List Line
  made1 : List (Nat × Nat)
  lines : last = made2.map mvLine ++ (branch ++ made1.map mvLine)
  branched : outputBranch m b = .ok branch
  implements2 : ParallelMove.Implements rtmp0 (edgeMoves m b.s2 b.args2) made2
  implements1 : b.btype ≠ .j → ParallelMove.Implements rtmp0 (edgeMoves m b.s1 b.args1) made1
  jumps : b.btype = .j → made1 = []

/-- What is printed at the end of a block consists of its parts. -/
theorem exists_parts (allocated : Allocated m) (member : b ∈ m.blks)
    (printed : outputEnd m b = .ok lines) : Nonempty (PrintedParts m b lines) := by
  have inRegs := allocated.inRegs b member
  by_cases jumps : b.btype = .j
  · simp only [outputEnd, jumps, if_true, Result.bind_eq_ok, Result.pure_eq, Result.ok_bind,
      Except.ok.injEq] at printed
    obtain ⟨moves2, edge2, branch, branched, rfl⟩ := printed
    obtain ⟨made2, rfl, implements2⟩ := outputEdge_moves allocated inRegs.2.2 edge2
    exact ⟨made2, branch, [], by simp, branched, implements2, absurd jumps, fun _ => rfl⟩
  · simp only [outputEnd, jumps, if_false, Result.bind_eq_ok, Result.pure_eq, Except.ok.injEq]
      at printed
    obtain ⟨moves2, edge2, branch, branched, moves1, edge1, rfl⟩ := printed
    obtain ⟨made2, rfl, implements2⟩ := outputEdge_moves allocated inRegs.2.2 edge2
    obtain ⟨made1, rfl, implements1⟩ := outputEdge_moves allocated inRegs.2.1 edge1
    exact ⟨made2, branch, made1, by simp, branched, implements2, fun _ => implements1,
      fun jump => absurd jump jumps⟩

end Edges

/-- The lines of a block: its label, its instructions, and its end. -/
structure BlkLines (m : Fn) (b : Blk) (lines : List Line) where
  parts : List (List Line)
  last : List Line
  lines : lines = .label b.id :: (parts.flatten ++ last)
  insns : List.Forall₂ (fun n part => outputInsn m n = .ok part) b.insns parts
  ends : outputEnd m b = .ok last

section Blocks

variable {m : Fn} {b : Blk} {lines text : List Line}

/-- A block prints its label, its instructions and its end. -/
theorem outputBlk_eq_ok : outputBlk m b = .ok lines ↔ Nonempty (BlkLines m b lines) := by
  simp only [outputBlk, outputInsns, Result.bind_eq_ok, Result.pure_eq, Except.ok.injEq,
    Result.mapM_eq_ok]
  constructor
  · rintro ⟨_, ⟨parts, insns, rfl⟩, last, ends, rfl⟩
    exact ⟨parts, last, by simp, insns, ends⟩
  · rintro ⟨parts, last, rfl, insns, ends⟩
    exact ⟨_, ⟨parts, insns, rfl⟩, last, ends, by simp⟩

/-- A block has no label beside its own. -/
theorem BlkLines.unlabelled (printed : BlkLines m b lines) (allocated : Allocated m)
    (member : b ∈ m.blks) : ∀ l ∈ printed.parts.flatten ++ printed.last, l.Unlabelled := by
  rw [List.forall_mem_append]
  constructor
  · intro l inside
    obtain ⟨part, listed, inside⟩ := List.mem_flatten.mp inside
    obtain ⟨n, -, printed⟩ := Lists.mem_of_forall₂ printed.insns listed
    exact (outputInsn_inner m n part printed l inside).unlabelled
  · obtain ⟨ends⟩ := exists_parts allocated member printed.ends
    rw [ends.lines, List.forall_mem_append, List.forall_mem_append]
    exact ⟨unlabelled_moves _, outputBranch_unlabelled m b _ ends.branched, unlabelled_moves _⟩

/-- Behind the prologue come the lines of the blocks. -/
theorem output_eq_ok : output m = .ok text ↔ ∃ parts,
    List.Forall₂ (fun b part => outputBlk m b = .ok part) m.blks parts ∧
      text = .function m.name :: saveState m ++ parts.flatten := by
  simp only [output, Result.bind_eq_ok, Result.pure_eq, Except.ok.injEq, Result.mapM_eq_ok]
  exact exists_congr fun parts => and_congr_right fun _ => eq_comm

/-- At the label of a block are its lines, and behind them those of the blocks behind it. -/
theorem linesAt_blk (allocated : Allocated m) {front back : List Blk}
    (split : m.blks = front ++ b :: back) {before : List (List Line)} {part : List Line}
    {behind : List (List Line)}
    (fronts : List.Forall₂ (fun b part => outputBlk m b = .ok part) front before)
    (printed : outputBlk m b = .ok part) :
    linesAt (.function m.name :: saveState m ++ (before ++ part :: behind).flatten) b.id =
      part ++ behind.flatten := by
  have prologue : ∀ l ∈ Line.function m.name :: saveState m, ∀ id, l ≠ .label id := by
    refine List.forall_mem_cons.mpr ⟨by simp, fun l member id => ?_⟩
    rintro rfl
    simp [saveState] at member
  have others : ∀ l ∈ before.flatten, l ≠ .label b.id := by
    intro l inside
    obtain ⟨part, listed, inside⟩ := List.mem_flatten.mp inside
    obtain ⟨d, member, printed⟩ := Lists.mem_of_forall₂ fronts listed
    obtain ⟨printed⟩ := outputBlk_eq_ok.mp printed
    have differ : d.id ≠ b.id := by
      have nodup := allocated.nodup
      rw [Fn.ids, split, List.map_append, List.map_cons, List.nodup_append] at nodup
      exact nodup.2.2 d.id (List.mem_map_of_mem member) b.id List.mem_cons_self
    rw [printed.lines, List.mem_cons] at inside
    rcases inside with rfl | inside
    · simpa using differ
    · exact printed.unlabelled allocated (by simp [split, member]) l inside b.id
  obtain ⟨printed⟩ := outputBlk_eq_ok.mp printed
  rw [linesAt_append prologue, linesAt, List.flatten_append, List.flatten_cons,
    List.dropWhile_append_of_pos (by simpa using others), printed.lines, List.cons_append,
    List.dropWhile_cons_of_neg (by simp)]

/-- The lines of a block, and behind them those of the block it falls through to. -/
theorem exists_lines (allocated : Allocated m) (printed : output m = .ok text)
    (member : b ∈ m.blks) : ∃ lines behind, Nonempty (BlkLines m b lines) ∧
      linesAt text b.id = lines ++ behind ∧
        (¬ b.isReturn → ∃ next, b.s1 = some next ∧ behind = linesAt text next) := by
  obtain ⟨parts, blks, rfl⟩ := output_eq_ok.mp printed
  obtain ⟨front, back, split⟩ := List.append_of_mem member
  rw [split] at blks
  obtain ⟨before, _, rfl, fronts, blks⟩ := Lists.append_of_forall₂ blks
  obtain ⟨part, behind, head, backs, rfl⟩ := List.forall₂_cons_left_iff.mp blks
  refine ⟨part, behind.flatten, outputBlk_eq_ok.mp head,
    linesAt_blk allocated split fronts head, fun stays => ?_⟩
  obtain ⟨next, rest, rfl, target⟩ := allocated.falls front b back split stays
  obtain ⟨part', behind', head', _, rfl⟩ := List.forall₂_cons_left_iff.mp backs
  refine ⟨next.id, target, ?_⟩
  have split' : m.blks = front ++ [b] ++ next :: rest := by simp [split]
  have fronts' : List.Forall₂ (fun b part => outputBlk m b = .ok part) (front ++ [b])
      (before ++ [part]) := List.rel_append fronts (.cons head .nil)
  rw [List.append_cons before part, linesAt_blk allocated split' fronts' head']
  rfl

end Blocks

end Qbt.Asm
