import Mathlib.Data.List.DropRight
import Qbt.Regalloc.Sections
import Qbt.Regalloc.Setup

/-!
# Separation

When registers may share: nowhere in a block is a register written that holds a value which is
still needed. Around a call this takes two readings. What lives across the call is needed up to the
SAVEs in front of the set-up, what is handed over up to the call, and what is used at the end of the
block from the results on.
-/

namespace Qbt

open Interference

namespace Regalloc

/-- The instructions in front of the set-up of a call, or all of them if there is no call. -/
def beforeSetup (insns : List Insn) : List Insn :=
  (untilCall insns).rdropWhile (·.flags.callSetup)

/-- The set-up of a call. -/
def setupOf (insns : List Insn) : List Insn := (untilCall insns).rtakeWhile (·.flags.callSetup)

/-- The instructions behind a call. -/
def behindCall (insns : List Insn) : List Insn := (insns.dropWhile (·.type ≠ .call)).tail

section Parts

variable {front args results : List Insn} {call : Insn}

private theorem rdropWhile_append_of_pos {p : Insn → Bool} (last : ∀ n ∈ args, p n)
    (others : ∀ n ∈ front, p n = false) : (front ++ args).rdropWhile p = front := by
  have stays : front.reverse.dropWhile p = front.reverse := by
    cases same : front.reverse with
    | nil => rfl
    | cons n rest =>
      have member : n ∈ front := List.mem_reverse.mp (same ▸ List.mem_cons_self)
      rw [List.dropWhile_cons_of_neg (by simp [others n member])]
  rw [List.rdropWhile, List.reverse_append, List.dropWhile_append_of_pos (by simpa using last),
    stays, List.reverse_reverse]

private theorem rtakeWhile_append_of_pos {p : Insn → Bool} (last : ∀ n ∈ args, p n)
    (others : ∀ n ∈ front, p n = false) : (front ++ args).rtakeWhile p = args := by
  have stops : front.reverse.takeWhile p = [] := by
    cases same : front.reverse with
    | nil => rfl
    | cons n rest =>
      have member : n ∈ front := List.mem_reverse.mp (same ▸ List.mem_cons_self)
      rw [List.takeWhile_cons_of_neg (by simp [others n member])]
  rw [List.rtakeWhile, List.reverse_append, List.takeWhile_append_of_pos (by simpa using last),
    stops, List.append_nil, List.reverse_reverse]

/-- A block without a call has only a front. -/
theorem parts_plain (plain : ∀ n ∈ front, n.type ≠ .call)
    (others : ∀ n ∈ front, n.flags.callSetup = false) :
    beforeSetup front = front ∧ setupOf front = [] ∧ behindCall front = [] := by
  have until' : untilCall front = front := by
    have same := untilCall_append [] plain
    rwa [List.append_nil, show untilCall [] = [] from rfl, List.append_nil] at same
  have dropped : front.dropWhile (·.type ≠ .call) = [] :=
    List.dropWhile_eq_nil_iff.mpr fun n member => by simpa using plain n member
  have none : ∀ n ∈ ([] : List Insn), n.flags.callSetup := List.forall_mem_nil _
  have before := rdropWhile_append_of_pos none others
  have setup := rtakeWhile_append_of_pos none others
  rw [List.append_nil] at before setup
  exact ⟨by rw [beforeSetup, until', before], by rw [setupOf, until', setup],
    by rw [behindCall, dropped, List.tail_nil]⟩

/-- The parts of a block with a call. -/
theorem parts_call (plain : ∀ n ∈ front ++ args, n.type ≠ .call) (type : call.type = .call)
    (sets : ∀ n ∈ args, n.flags.callSetup) (others : ∀ n ∈ front, n.flags.callSetup = false) :
    beforeSetup (front ++ args ++ call :: results) = front ∧
      setupOf (front ++ args ++ call :: results) = args ∧
        behindCall (front ++ args ++ call :: results) = results ∧
          untilCall (front ++ args ++ call :: results) = front ++ args ∧
            callOf (front ++ args ++ call :: results) = some call := by
  have until' : untilCall (front ++ args ++ call :: results) = front ++ args := by
    rw [untilCall_append _ plain, untilCall_call type, List.append_nil]
  have called : callOf (front ++ args ++ call :: results) = some call := by
    rw [callOf_append _ plain, callOf_call type]
  refine ⟨?_, ?_, ?_, until', called⟩
  · rw [beforeSetup, until', rdropWhile_append_of_pos sets others]
  · rw [setupOf, until', rtakeWhile_append_of_pos sets others]
  · rw [behindCall, List.dropWhile_append_of_pos (by simpa using plain),
      List.dropWhile_cons_of_neg (by simp [type]), List.tail_cons]

end Parts

end Regalloc

/-- What is used at the end of a block: what it compares, and the arguments of its edges. -/
def Blk.usedAtEnd (b : Blk) : Set Val :=
  { v | v.IsPlace ∧ (v = b.cmp0 ∨ v = b.cmp1 ∨ v ∈ b.args1 ∨ v ∈ b.args2) }

namespace Regalloc

/-- The temporaries that are needed behind the call of a block. -/
def acrossCall (b : Blk) : Set Val :=
  { v | v.isTmp ∧ v ∈ live ((behindCall b.insns).map Insn.line) b.usedAtEnd }

/-- What is needed when the set-up of the call begins. -/
def atSetup (b : Blk) : Set Val :=
  live ((setupOf b.insns).map Insn.line) (handedOver b.insns) ∪ acrossCall b

/-- What is needed when the block begins. -/
def atEntry (b : Blk) : Set Val := live ((beforeSetup b.insns).map Insn.line) (atSetup b)

/-- The operands of a block may be put in the places `colour`: no instruction writes the place of a
value that is still needed, and no two parameters share one. -/
structure Separated (colour : Val → Val) (b : Blk) : Prop where
  params : (b.params.map colour).Nodup
  front : Coloured colour ((beforeSetup b.insns).map Insn.line) (atSetup b)
  setup : Coloured colour ((setupOf b.insns).map Insn.line) (handedOver b.insns)
  results : Coloured colour ((behindCall b.insns).map Insn.line) b.usedAtEnd

/-- What an instruction reads and writes, as lists. -/
def listedOf (n : Insn) : Listed Val where
  reads := [n.in0, n.in1].filter fun v => v.IsPlace
  write := n.line.write
  copied := n.line.copied

private theorem listedOf_line (n : Insn) : (listedOf n).line = n.line := by
  have reads : { v | v ∈ [n.in0, n.in1].filter fun v => v.IsPlace } = n.line.reads := by
    ext v
    simp [Insn.line, and_comm]
  rw [Listed.line, listedOf, reads]

private theorem map_listedOf_line (insns : List Insn) :
    (insns.map listedOf).map Listed.line = insns.map Insn.line := by
  rw [List.map_map]
  exact List.map_congr_left fun n _ => listedOf_line n

/-- What is used at the end of a block. -/
def endList (b : Blk) : List Val :=
  (b.cmp0 :: b.cmp1 :: (b.args1 ++ b.args2)).filter fun v => v.IsPlace

private theorem mem_endList {b : Blk} {v : Val} : v ∈ endList b ↔ v ∈ b.usedAtEnd := by
  simp [endList, Blk.usedAtEnd, and_comm]

/-- What is handed over. -/
def handedList (insns : List Insn) : List Val :=
  ((callOf insns).toList.flatMap fun call => [call.in0, call.in1].filter fun v => v.IsPlace) ++
    ((untilCall insns).map (·.out)).filter fun v => v.isReg

private theorem mem_handedList {insns : List Insn} {v : Val} :
    v ∈ handedList insns ↔ v ∈ handedOver insns := by
  simp only [handedList, handedOver, List.mem_append, List.mem_flatMap, List.mem_filter,
    Option.mem_toList, Set.mem_union, Set.mem_ofPred_eq, List.mem_map, decide_eq_true_eq,
    List.mem_cons, List.not_mem_nil, or_false]
  refine or_congr ⟨?_, ?_⟩ ⟨?_, ?_⟩
  · rintro ⟨call, found, operand, place⟩
    exact ⟨place, call, found, operand⟩
  · rintro ⟨place, call, found, operand⟩
    exact ⟨call, found, operand, place⟩
  · rintro ⟨written, reg⟩
    exact ⟨reg, written⟩
  · rintro ⟨reg, written⟩
    exact ⟨written, reg⟩

/-- Decide whether the operands of a block are separated, from its end to its start. -/
def separates (colour : Val → Val) (b : Blk) : Bool :=
  (b.params.map colour).Nodup &&
    match scan colour (endList b) ((behindCall b.insns).map listedOf),
      scan colour (handedList b.insns) ((setupOf b.insns).map listedOf) with
    | some behind, some setup =>
      (scan colour (setup ++ behind.filter Val.isTmp)
        ((beforeSetup b.insns).map listedOf)).isSome
    | _, _ => false

private theorem separates_iff {colour : Val → Val} {b : Blk} :
    separates colour b = true ↔ Separated colour b := by
  have ends := scan_coloured_iff colour
    (show ∀ v, v ∈ endList b ↔ v ∈ b.usedAtEnd from fun _ => mem_endList)
    ((behindCall b.insns).map listedOf)
  have handed := scan_coloured_iff colour
    (show ∀ v, v ∈ handedList b.insns ↔ v ∈ handedOver b.insns from fun _ => mem_handedList)
    ((setupOf b.insns).map listedOf)
  rw [map_listedOf_line] at ends handed
  have parts : Separated colour b ↔ (b.params.map colour).Nodup ∧
      Coloured colour ((behindCall b.insns).map Insn.line) b.usedAtEnd ∧
        Coloured colour ((setupOf b.insns).map Insn.line) (handedOver b.insns) ∧
          Coloured colour ((beforeSetup b.insns).map Insn.line) (atSetup b) :=
    ⟨fun s => ⟨s.params, s.results, s.setup, s.front⟩, fun ⟨a, b, c, d⟩ => ⟨a, d, c, b⟩⟩
  rw [parts, ← ends.1, ← handed.1, separates, Bool.and_eq_true, decide_eq_true_eq]
  refine and_congr_right fun _ => ?_
  cases behind : scan colour (endList b) ((behindCall b.insns).map listedOf) with
  | none => simp
  | some found =>
    cases setup : scan colour (handedList b.insns) ((setupOf b.insns).map listedOf) with
    | none => simp
    | some found' =>
      have needed (v : Val) : v ∈ found' ++ found.filter Val.isTmp ↔ v ∈ atSetup b := by
        rw [List.mem_append, handed.2 found' setup, List.mem_filter, ends.2 found behind]
        simp [atSetup, acrossCall, and_comm]
      have front := scan_coloured_iff colour needed ((beforeSetup b.insns).map listedOf)
      rw [map_listedOf_line] at front
      simpa using front.1

instance (colour : Val → Val) (b : Blk) : Decidable (Separated colour b) :=
  decidable_of_iff _ separates_iff

end Regalloc

end Qbt
