import Qbt.Asm.Edges

/-!
# `output_moves` as a parallel assignment

`move_one` reads its argument before the loop that may replace it by the scratch
register, and prints the move with what it has read. So what has been rescued to the
scratch register is never moved on, and a cycle loses a value. `outputMoves_contained` is
what holds with cycles as well: what is printed is bounded, and so is what it changes.
-/

namespace Qbt.Asm

open ParallelMove

variable {T : Type}

/-- The lines printed for the moves assign all arguments at once, and change no register
but the parameters and the scratch register. -/
def Assigns (E : Encoding T) (params args : List Nat) : Prop :=
  ∃ lines, outputMoves (params.map .reg) (args.map .reg) = .ok lines ∧
    ∀ s : MachineState T, ∃ s', exec E lines s = (.falls, s') ∧
      (∀ (i p a : Nat), params[i]? = some p → args[i]? = some a → s'.read p = s.read a) ∧
      ∀ r, r ∉ params → r ≠ rtmp0 → s'.read r = s.read r

section Assigns

variable {params args : List Nat}

private theorem regMoves_map_reg (params args : List Nat) :
    regMoves (params.map .reg) (args.map .reg) = params.zip args := by
  simp [regMoves, List.zip_map, Function.comp_def, Val.num]

private theorem mem_zip_iff {m : Nat × Nat} :
    m ∈ params.zip args ↔ ∃ i : Nat, params[i]? = some m.1 ∧ args[i]? = some m.2 := by
  rw [List.mem_iff_getElem?]
  simp only [List.getElem?_zip_eq_some]

/-- Different parameters receive one value each. -/
theorem functional_of_nodup (distinct : params.Nodup) : Functional (params.zip args) := by
  intro m member n member' same
  obtain ⟨i, param, arg⟩ := mem_zip_iff.mp member
  obtain ⟨j, param', arg'⟩ := mem_zip_iff.mp member'
  have inside : i < params.length := (List.getElem?_eq_some_iff.mp param).1
  have equal : i = j := (List.getElem?_inj inside distinct).mp (by rw [param, param', same])
  subst j
  rw [arg, Option.some.injEq] at arg'
  exact arg'

private theorem hasName_map_reg {regs : List Nat} (bounded : ∀ r ∈ regs, r ≤ 80) :
    ∀ v ∈ regs.map Val.reg, HasName v := by
  intro v member
  obtain ⟨r, listed, rfl⟩ := List.mem_map.mp member
  exact ⟨r, bounded r listed, rfl⟩

/-- What is printed for moves between registers with names. -/
private theorem outputMoves_reg (lengths : params.length = args.length)
    (named : ∀ r ∈ params ++ args, r ≤ 80) (noScratch : rtmp0 ∉ params) :
    ∃ made : List (Nat × Nat), outputMoves (params.map .reg) (args.map .reg) =
        .ok (made.map mvLine) ∧ Implements rtmp0 (params.zip args) made := by
  have lengths' : (params.map Val.reg).length = (args.map Val.reg).length := by simpa using lengths
  have made := outputMoves_implements lengths'
    (hasName_map_reg fun r listed => named r (List.mem_append_left _ listed))
    (hasName_map_reg fun r listed => named r (List.mem_append_right _ listed)) (by
      intro p member same
      obtain ⟨r, listed, rfl⟩ := List.mem_map.mp member
      have isScratch : r = rtmp0 := same
      exact noScratch (isScratch ▸ listed))
  rwa [regMoves_map_reg] at made

private theorem exec_made (E : Encoding T) (made : List (Nat × Nat)) (s : MachineState T) :
    exec E (made.map mvLine) s = (.falls, moved made s) := by
  have executed := exec_moves E made [] s
  rwa [List.append_nil] at executed

/-- `output_moves` assigns in parallel if and only if the moves have no cycle and none of
them is to give `x0` a value. -/
theorem assigns_iff (E : Encoding T) (distinct : params.Nodup)
    (lengths : params.length = args.length) (named : ∀ r ∈ params ++ args, r ≤ 80)
    (noScratch : rtmp0 ∉ params ++ args) :
    Assigns E params args ↔
      Acyclic (params.zip args) ∧ ∀ a, (rx0, a) ∈ params.zip args → a = rx0 := by
  obtain ⟨noScratchP, _⟩ := not_or.mp (mt List.mem_append.mpr noScratch)
  obtain ⟨made, printed, implements⟩ := outputMoves_reg lengths named noScratchP
  -- Nothing but the scratch register and the parameters is written.
  have real (zero : ∀ a, (rx0, a) ∈ params.zip args → a = rx0) :
      ∀ m ∈ made, m.1 = rx0 → m.2 = rx0 := by
    rintro ⟨p, a⟩ member isZero
    rcases implements.only _ member with listed | scratch
    · have isZero' : p = rx0 := isZero
      exact zero a (isZero' ▸ listed)
    · rw [scratch] at isZero
      cases isZero
  constructor
  · rintro ⟨lines, returned, assigns⟩
    rw [printed, Except.ok.injEq] at returned
    subst returned
    have zero : ∀ a, (rx0, a) ∈ params.zip args → a = rx0 := by
      intro a listed
      obtain ⟨i, param, arg⟩ := mem_zip_iff.mp listed
      by_contra other
      obtain ⟨s', _, delivered, _⟩ := assigns ⟨fun _ => 1, fun _ => E.split 0 0⟩
      have value := delivered i rx0 a param arg
      rw [MachineState.read_rx0, MachineState.read_of_ne _ other] at value
      cases value
    refine ⟨?_, zero⟩
    obtain ⟨s', executed, delivered, _⟩ := assigns ⟨fun r => r, fun _ => E.split 0 0⟩
    rw [exec_made, Prod.mk.injEq] at executed
    obtain ⟨_, rfl⟩ := executed
    have number (r : Nat) : MachineState.read ⟨fun r => r, fun _ => E.split 0 0⟩ r = (r : Int) := by
      by_cases isZero : r = rx0
      · rw [isZero, MachineState.read_rx0]
        rfl
      · exact MachineState.read_of_ne _ isZero
    have delivers : Delivered (params.zip args) (fun r => (r : Int))
        (run made fun r => (r : Int)) := by
      intro m member
      obtain ⟨i, param, arg⟩ := mem_zip_iff.mp member
      have value := delivered i m.1 m.2 param arg
      rw [read_moved (real zero), number m.2] at value
      refine Eq.trans ?_ value
      exact congrArg (fun state => run made state m.1) (funext fun r => (number r).symm)
    exact (implements.sequential_of_delivered (fun m _ n _ same => by simpa using same)
      delivers).acyclic
  · rintro ⟨acyclic, zero⟩
    have sequential : Sequential (params.zip args) := ⟨functional_of_nodup distinct, acyclic⟩
    refine ⟨_, printed, fun s => ⟨moved made s, exec_made E made s, ?_, ?_⟩⟩
    · intro i p a param arg
      rw [read_moved (real zero)]
      exact implements.delivered sequential s.read (p, a) (mem_zip_iff.mpr ⟨i, param, arg⟩)
    · intro r outside noScratch
      rw [read_moved (real zero)]
      apply implements.kept _ noScratch
      rintro ⟨a, listed, _⟩
      exact outside (List.of_mem_zip listed).1

/-- A chain of moves with a value that is moved twice. -/
theorem assigns_iff_chain : Assigns Encoding.whole [4, 5, 6, 7] [5, 6, 8, 8] := by
  have distinct : [4, 5, 6, 7].Nodup := by decide
  have lengths : [4, 5, 6, 7].length = [5, 6, 8, 8].length := rfl
  refine (assigns_iff Encoding.whole distinct lengths (by decide) (by decide)).mpr
    ⟨acyclic_of_rank id (by decide), ?_⟩
  simp [rx0]

/-- Two registers that are to be exchanged end up with the same value. -/
theorem exchange_loses : ¬ Assigns Encoding.whole [4, 5] [5, 4] := by
  rintro ⟨lines, returned, assigns⟩
  have printed : outputMoves ([4, 5].map .reg) ([5, 4].map .reg) =
      .ok [.mv rtmp0 5, .mv 5 4, .mv 4 5] := by rfl
  rw [printed, Except.ok.injEq] at returned
  subst returned
  obtain ⟨s', executed, delivered, _⟩ := assigns ⟨fun r => r, fun _ => 0⟩
  have last : (exec Encoding.whole [.mv rtmp0 5, .mv 5 4, .mv 4 5]
      ⟨fun r => r, fun _ => 0⟩).2.read 4 = 4 := by
    rfl
  rw [executed, delivered 0 4 5 rfl rfl] at last
  cases last

end Assigns

section Contained

variable {params args : List Nat}

/-- The line that is printed for an index of the vectors. -/
def Made.line (params args : List Nat) (x : Made) : Line :=
  mvLine (x.pair (fun i => params.getD i 0) fun i => args.getD i 0)

private theorem getD_mem {regs : List Nat} {i : Nat} (inside : i < regs.length) :
    regs.getD i 0 ∈ regs := by
  simp [List.getD_eq_getElem?_getD, inside]

/-- A vector of registers names one register for each index. -/
private theorem names_map_reg {regs : List Nat} (bounded : ∀ r ∈ regs, r ≤ 80) :
    Names (regs.map .reg) regs.length fun i => regs.getD i 0 where
  length := List.length_map _
  get i inside := by simp [inside]
  bound _ inside := bounded _ (getD_mem inside)

/-- Moves leave alone what they do not name as a destination. -/
theorem regs_moved_of_unnamed {made : List (Nat × Nat)} {r : Nat} (unnamed : ∀ m ∈ made, m.1 ≠ r)
    (s : MachineState T) : (moved made s).regs r = s.regs r := by
  induction made generalizing s with
  | nil => rfl
  | cons m others ih =>
    have kept : (s.write m.1 (s.read m.2)).regs r = s.regs r := by
      by_cases zero : m.1 = rx0
      · rw [zero, MachineState.write_rx0]
      · rw [MachineState.write_of_ne _ zero]
        exact Function.update_of_ne (unnamed m List.mem_cons_self).symm _ _
    rw [← kept]
    exact ih (fun n member => unnamed n (List.mem_cons_of_mem _ member)) _

private theorem mem_moved (made : List (Nat × Nat)) (s : MachineState T) :
    (moved made s).mem = s.mem := by
  induction made generalizing s with
  | nil => rfl
  | cons m others ih =>
    rw [← MachineState.write_mem s m.1 (s.read m.2)]
    exact ih _

/-- `output_moves` returns. It prints a move and a rescue of each index at most once, and
what it prints changes nothing but the parameters and the scratch register. -/
theorem outputMoves_contained (E : Encoding T) (lengths : params.length = args.length)
    (named : ∀ r ∈ params ++ args, r ≤ 80) (noScratch : rtmp0 ∉ params ++ args) :
    ∃ made : List Made,
      outputMoves (params.map .reg) (args.map .reg) = .ok (made.map (Made.line params args)) ∧
      made.Nodup ∧ (∀ x ∈ made, x.index < params.length) ∧ made.length ≤ 2 * params.length ∧
      ∀ s : MachineState T, ∃ s', exec E (made.map (Made.line params args)) s = (.falls, s') ∧
        s'.mem = s.mem ∧ ∀ r, r ∉ params → r ≠ rtmp0 → s'.regs r = s.regs r := by
  have namesA := names_map_reg fun r listed => named r (List.mem_append_right params listed)
  rw [← lengths] at namesA
  have fresh : ∀ i < params.length, params.getD i 0 ≠ rtmp0 := fun i inside same =>
    noScratch (List.mem_append_left _ (same ▸ getD_mem inside))
  obtain ⟨m, made, returned, keeps, _⟩ := outputMoves_keeps
    (names_map_reg fun r listed => named r (List.mem_append_left args listed)) namesA fresh
  have inside : ∀ x ∈ made, x.index < params.length := fun _ printed => keeps.index_lt printed
  refine ⟨made, returned, keeps.once, inside, length_le_of_once keeps.once inside, fun s => ?_⟩
  have executed := exec_made E
    (made.map (Made.pair (fun i => params.getD i 0) fun i => args.getD i 0)) s
  rw [List.map_map] at executed
  refine ⟨_, executed, mem_moved _ s, fun r outside scratch => regs_moved_of_unnamed ?_ s⟩
  rintro _ member rfl
  obtain ⟨x, printed, rfl⟩ := List.mem_map.mp member
  cases x with
  | move i =>
    have index : i < params.length := inside _ printed
    exact outside (getD_mem index)
  | scratch i => exact scratch rfl

/-- A cycle with a branch, and a parameter that is given twice. -/
theorem outputMoves_contained_branch :
    ∃ made : List Made,
      outputMoves ([4, 5, 6, 6].map .reg) ([5, 4, 4, 5].map .reg) =
        .ok (made.map (Made.line [4, 5, 6, 6] [5, 4, 4, 5])) ∧
      made.Nodup ∧ (∀ x ∈ made, x.index < 4) ∧ made.length ≤ 8 ∧
      ∀ s : MachineState Int, ∃ s',
        exec Encoding.whole (made.map (Made.line [4, 5, 6, 6] [5, 4, 4, 5])) s = (.falls, s') ∧
          s'.mem = s.mem ∧ ∀ r, r ∉ [4, 5, 6, 6] → r ≠ rtmp0 → s'.regs r = s.regs r :=
  outputMoves_contained Encoding.whole rfl (by decide) (by decide)

end Contained

end Qbt.Asm
