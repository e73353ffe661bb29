import Qbt.Asm.Machine
import Qbt.Asm.Moves
import Qbt.IR.Semantics
import Qbt.Regalloc.Shape

/-!
# Conditional edges

Behind the instructions of a conditional block come the moves to the parameters of `s2`,
the branch, and the moves to the parameters of `s1`. The moves to `s2` are made before
the branch compares and whether it is taken or not. `edgesCorrect_of_undisturbed` says
when this does no harm, and `undisturbed_of_edgesCorrect` that it does otherwise.
-/

namespace Qbt.Asm

open ParallelMove

variable {T : Type}

/-- The comparison of a block holds. -/
def Takes (b : Blk) (s : MachineState T) : Prop :=
  Semantics.integers.taken b.btype (s.value b.cmp0) (s.value b.cmp1)

/-- The parameters hold what the arguments held. -/
def Passes (params args : List Val) (before after : MachineState T) : Prop :=
  List.Forall₂ (fun p a => after.value p = before.value a) params args

/-- The lines transfer control and values as the block demands. The block behind which
nothing is jumped over is the one printed next. -/
structure Leaves (E : Encoding T) (m : Fn) (b : Blk) (lines : List Line) (s : MachineState T) :
    Prop where
  taken : Takes b s → ∃ next s', b.s2 = some next.id ∧ m.find? next.id = some next ∧
    exec E lines s = (.jumps next.id, s') ∧ Passes next.params b.args2 s s'
  falls : ¬ Takes b s → ∃ next s', b.s1 = some next.id ∧
    (∃ front back, m.blks = front ++ b :: next :: back) ∧
    exec E lines s = (.falls, s') ∧ Passes next.params b.args1 s s'

/-- What is printed for the end of the block leaves it correctly from every state. -/
def EdgesCorrect (E : Encoding T) (m : Fn) (b : Blk) : Prop :=
  ∃ lines, outputEnd m b = .ok lines ∧ ∀ s : MachineState T, Leaves E m b lines s

/-- What the branch of a conditional block compares. -/
def comparison (b : Blk) : Option (Cond × Nat × Nat) :=
  match b.btype with
  | .blt => some (.lt, b.cmp0.num, b.cmp1.num)
  | .ble => some (.le, b.cmp0.num, b.cmp1.num)
  | .bne => some (.ne, b.cmp0.num, b.cmp1.num)
  | .bnz => some (.ne, b.cmp0.num, rx0)
  | .bez => some (.eq, b.cmp0.num, rx0)
  | _ => none

/-- The moves from the arguments to the parameters. -/
def regMoves (params args : List Val) : List (Nat × Nat) :=
  (params.zip args).map fun x => (x.1.num, x.2.num)

/-- The moves an edge demands. -/
def edgeMoves (m : Fn) (next : Option Nat) (args : List Val) : List (Nat × Nat) :=
  match next.bind m.find? with
  | some next => regMoves next.params args
  | none => []

/-- The comparison can hold: it is between different registers, or equal values do. -/
def Holdable (cond : Cond) (left right : Nat) : Prop := left = right → cond.holds 0 0

/-- The comparison can fail. -/
def Failable (cond : Cond) (left right : Nat) : Prop := left = right → ¬ cond.holds 0 0

/-- The moves for the two edges of a block, `moves2` and `moves1`, do not disturb each
other or the comparison. -/
structure Undisturbed (moves2 moves1 : List (Nat × Nat)) (cond : Cond) (left right : Nat) :
    Prop where
  /-- the moves to `s2` have no cycle and no two values for one parameter -/
  branch : Holdable cond left right → Sequential moves2
  /-- they change no register that is compared -/
  compares : Holdable cond left right → Failable cond left right →
    ¬ Clobbers moves2 left ∧ ¬ Clobbers moves2 right
  /-- they change no argument for `s1` -/
  args : Failable cond left right → ∀ m ∈ moves1, ¬ Clobbers moves2 m.2
  /-- the moves to `s1` have no cycle and no two values for one parameter -/
  falls : Failable cond left right → Sequential moves1

/-- The comparison can hold, and when it fails it does not tell two arguments for `s1` to
be equal. -/
structure Separates (moves1 : List (Nat × Nat)) (cond : Cond) (left right : Nat) : Prop where
  holdable : Holdable cond left right
  unknown : cond = .ne → (∀ m ∈ moves1, m.2 ≠ left) ∨ ∀ m ∈ moves1, m.2 ≠ right

section Moves

variable {params args : List Val}

private theorem regMoves_eq_pairs (lengths : params.length = args.length) :
    regMoves params args = pairs params.length (fun i => (params.getD i .noclass).num)
      fun i => (args.getD i .noclass).num := by
  apply List.ext_getElem
  · simp [regMoves, pairs, lengths]
  · intro i inside _
    have inside' : i < params.length := by
      simp only [regMoves, List.length_map, List.length_zip] at inside
      omega
    simp [regMoves, pairs, inside', lengths ▸ inside']

/-- The value is a register with a name. -/
def HasName (v : Val) : Prop := ∃ r ≤ 80, v = .reg r

/-- Registers that are handed out have names. -/
theorem hasName_of_allocable {v : Val} (allocable : v.Allocable) : HasName v := by
  obtain ⟨r, listed, rfl⟩ := allocable
  have bounded : ∀ r ∈ trMap, r ≤ 80 := by decide
  exact ⟨r, bounded r listed, rfl⟩

private theorem names_of_hasName {vals : List Val} (named : ∀ v ∈ vals, HasName v) :
    Names vals vals.length fun i => (vals.getD i .noclass).num := by
  have each (i : Nat) (inside : i < vals.length) : ∃ r ≤ 80, vals[i] = .reg r :=
    named _ (List.getElem_mem inside)
  refine ⟨rfl, fun i inside => ?_, fun i inside => ?_⟩
  · obtain ⟨r, _, entry⟩ := each i inside
    simp [inside, entry, Val.num]
  · obtain ⟨r, bounded, entry⟩ := each i inside
    simpa [inside, entry, Val.num] using bounded

/-- Registers that are handed out are neither `x0` nor the scratch register. -/
theorem real_of_mem {r : Nat} (listed : r ∈ trMap) : r ≠ rx0 ∧ r ≠ rtmp0 := by
  have each : ∀ r ∈ trMap, r ≠ rx0 ∧ r ≠ rtmp0 := by decide
  exact each r listed

/-- The registers of a list of moves are handed out by `find_free_reg`. -/
def InTable (moves : List (Nat × Nat)) : Prop := ∀ m ∈ moves, m.1 ∈ trMap ∧ m.2 ∈ trMap

/-- The moves between registers that are handed out stay within the table of registers. -/
theorem regMoves_inTable (allocableP : ∀ p ∈ params, p.Allocable)
    (allocableA : ∀ a ∈ args, a.Allocable) : InTable (regMoves params args) := by
  intro m member
  obtain ⟨⟨p, a⟩, zipped, rfl⟩ := List.mem_map.mp member
  exact ⟨(allocableP p (List.of_mem_zip zipped).1).num,
    (allocableA a (List.of_mem_zip zipped).2).num⟩

/-- `output_moves` implements the moves from the arguments to the parameters. -/
theorem outputMoves_implements (lengths : params.length = args.length)
    (namedP : ∀ p ∈ params, HasName p) (namedA : ∀ a ∈ args, HasName a)
    (noScratch : ∀ p ∈ params, p.num ≠ rtmp0) :
    ∃ made : List (Nat × Nat), outputMoves params args = .ok (made.map mvLine) ∧
      Implements rtmp0 (regMoves params args) made := by
  rw [regMoves_eq_pairs lengths]
  refine outputMoves_spec (names_of_hasName namedP) ?_ fun i inside => ?_
  · rw [lengths]
    exact names_of_hasName namedA
  · rw [List.getD_eq_getElem?_getD, List.getElem?_eq_getElem inside, Option.getD_some]
    exact noScratch _ (List.getElem_mem inside)

private theorem value_of_allocable (s : MachineState T) {v : Val} (allocable : v.Allocable) :
    s.value v = s.read v.num := by
  obtain ⟨r, _, rfl⟩ := allocable
  rfl

/-- Arguments are passed when the moves have been delivered. -/
theorem passes_iff {before after : MachineState T} (lengths : params.length = args.length)
    (allocableP : ∀ p ∈ params, p.Allocable) (allocableA : ∀ a ∈ args, a.Allocable) :
    Passes params args before after ↔
      Delivered (regMoves params args) before.read after.read := by
  have pair {p a : Val} (zipped : (p, a) ∈ params.zip args) :
      after.value p = before.value a ↔ after.read p.num = before.read a.num := by
    rw [value_of_allocable _ (allocableP p (List.of_mem_zip zipped).1),
      value_of_allocable _ (allocableA a (List.of_mem_zip zipped).2)]
  rw [Passes, List.forall₂_iff_zip]
  simp only [lengths, true_and]
  constructor
  · intro passes m member
    obtain ⟨⟨p, a⟩, zipped, rfl⟩ := List.mem_map.mp member
    exact (pair zipped).mp (passes zipped)
  · intro delivered p a zipped
    exact (pair zipped).mpr (delivered _ (List.mem_map_of_mem zipped))

end Moves

/-- The state behind moves. -/
def moved (made : List (Nat × Nat)) (s : MachineState T) : MachineState T :=
  made.foldl (fun s m => s.write m.1 (s.read m.2)) s

/-- Printed moves run before what follows. -/
theorem exec_moves (E : Encoding T) (made : List (Nat × Nat)) (rest : List Line)
    (s : MachineState T) : exec E (made.map mvLine ++ rest) s = exec E rest (moved made s) := by
  induction made generalizing s with
  | nil => rfl
  | cons m others ih =>
    rw [List.map_cons, List.cons_append]
    exact ih (s.write m.1 (s.read m.2))

/-- Moves act on what is read from the registers, where none gives `x0` a new value. -/
theorem read_moved {made : List (Nat × Nat)} (real : ∀ m ∈ made, m.1 = rx0 → m.2 = rx0)
    (s : MachineState T) : (moved made s).read = run made s.read := by
  induction made generalizing s with
  | nil => rfl
  | cons m others ih =>
    have one : (s.write m.1 (s.read m.2)).read = make s.read m := by
      funext r
      by_cases zero : m.1 = rx0
      · rw [make, zero, real m List.mem_cons_self zero, Function.update_eq_self,
          MachineState.write_rx0]
      · rw [MachineState.read_write s _ _ _ zero, make, Function.update_apply]
    rw [run_cons, ← one]
    exact ih (fun n member => real n (List.mem_cons_of_mem _ member)) _

/-- What is printed for the end of a conditional block: the moves to `s2`, the branch and
the moves to `s1`. -/
theorem exec_end (E : Encoding T) (made2 made1 : List (Nat × Nat)) (cond : Cond)
    (left right id : Nat) (s : MachineState T) :
    exec E (made2.map mvLine ++ ([.branch cond left right id] ++ made1.map mvLine)) s =
      if cond.holds ((moved made2 s).read left) ((moved made2 s).read right) then
        (.jumps id, moved made2 s)
      else (.falls, moved made1 (moved made2 s)) := by
  rw [exec_moves, List.singleton_append, exec]
  congr 1
  have behind := exec_moves E made1 [] (moved made2 s)
  rwa [List.append_nil] at behind

/-- What is compared by a branch that is printed: a register with another one or `x0`. -/
structure Compared (cond : Cond) (left right : Nat) : Prop where
  first : left ∈ trMap
  second : right ∈ trMap ∨ (right = rx0 ∧ (cond = .ne ∨ cond = .eq))
  zero : cond = .eq → right = rx0

/-- A branch that reads other registers than it is meant to compares other values for
some contents of the registers, unless it has exchanged the two. -/
theorem sources_of_compares {cond : Cond} {left right source0 source1 : Nat}
    (compared : Compared cond left right) (differ : left ≠ right)
    (zero : right = rx0 → source1 = rx0)
    (same : ∀ values : Nat → Int, values rx0 = 0 →
      (cond.holds (values left) (values right) ↔ cond.holds (values source0) (values source1))) :
    (source0 = left ∧ source1 = right) ∨ (source0 = right ∧ source1 = left) := by
  have leftReal := (real_of_mem compared.first).1
  -- Contents that differ in one register tell which registers are read.
  have probeLeft (w : Int) := same (fun r => if r = left then w else 0) (if_neg leftReal.symm)
  have probeRight (real : right ≠ rx0) (w : Int) :=
    same (fun r => if r = right then w else 0) (if_neg real.symm)
  have rightReal (order : cond ≠ .ne ∧ cond ≠ .eq) : right ≠ rx0 := by
    rcases compared.second with listed | ⟨_, equality⟩
    · exact (real_of_mem listed).1
    · exact absurd equality (not_or.mpr order)
  cases cond with
  | lt =>
    have first := probeLeft (-1)
    have second := probeRight (rightReal (by simp)) 1
    simp only [Cond.holds, if_neg differ, if_neg differ.symm, if_true] at first second
    left
    constructor <;> by_contra other
    · simp only [if_neg other] at first
      split at first <;> omega
    · simp only [if_neg other] at second
      split at second <;> omega
  | le =>
    have first := probeLeft 1
    have second := probeRight (rightReal (by simp)) (-1)
    simp only [Cond.holds, if_neg differ, if_neg differ.symm, if_true] at first second
    left
    constructor <;> by_contra other
    · simp only [if_neg other] at first
      split at first <;> omega
    · simp only [if_neg other] at second
      split at second <;> omega
  | ne =>
    have first := probeLeft 1
    simp only [Cond.holds, if_neg differ.symm, if_true] at first
    by_cases isZero : right = rx0
    · have none : source1 ≠ left := by
        rw [zero isZero]
        exact leftReal.symm
      left
      refine ⟨?_, by rw [zero isZero, isZero]⟩
      by_contra other
      simp [other, none] at first
    · have second := probeRight isZero 1
      simp only [Cond.holds, if_neg differ, if_true] at second
      by_cases straight : source0 = left
      · left
        refine ⟨straight, ?_⟩
        by_contra other
        simp [straight, differ, other] at second
      · right
        have crossed : source1 = left := by
          by_contra other
          simp [straight, other] at first
        refine ⟨?_, crossed⟩
        by_contra other
        simp [crossed, differ, other] at second
  | eq =>
    have isZero := compared.zero rfl
    have first := probeLeft 1
    have none : source1 ≠ left := by
      rw [zero isZero]
      exact leftReal.symm
    simp only [Cond.holds, if_neg differ.symm, if_true] at first
    left
    refine ⟨?_, by rw [zero isZero, isZero]⟩
    by_contra other
    simp [other, none] at first

/-- Registers with different contents for which the comparison holds. -/
theorem exists_holds {cond : Cond} {left right : Nat} (compared : Compared cond left right)
    (holdable : Holdable cond left right) : ∃ values : Nat → Int, values rx0 = 0 ∧
      (∀ r r', r ≠ rx0 → r' ≠ rx0 → values r = values r' → r = r') ∧
      cond.holds (values left) (values right) := by
  have leftReal := (real_of_mem compared.first).1
  have shifted (d : Int) : ∃ values : Nat → Int, values rx0 = 0 ∧
      (∀ r r', r ≠ rx0 → r' ≠ rx0 → values r = values r' → r = r') ∧
      ∀ r ≠ rx0, values r = r - d := by
    refine ⟨fun r => if r = rx0 then 0 else r - d, if_pos rfl, ?_, fun r real => if_neg real⟩
    intro r r' real real' same
    simp only [if_neg real, if_neg real'] at same
    omega
  have plain : (fun r : Nat => (r : Int)) rx0 = 0 := rfl
  cases cond with
  | lt =>
    have differ : left ≠ right := fun same => absurd (holdable same) (by simp [Cond.holds])
    by_cases order : left < right
    · refine ⟨fun r => r, plain, fun r r' _ _ same => by simpa using same, ?_⟩
      simpa [Cond.holds] using order
    · refine ⟨fun r => -r, by simp [rx0], fun r r' _ _ same => by simpa using same, ?_⟩
      simp only [Cond.holds]
      omega
  | le =>
    by_cases order : left ≤ right
    · refine ⟨fun r => r, plain, fun r r' _ _ same => by simpa using same, ?_⟩
      simpa [Cond.holds] using order
    · refine ⟨fun r => -r, by simp [rx0], fun r r' _ _ same => by simpa using same, ?_⟩
      simp only [Cond.holds]
      omega
  | ne =>
    have differ : left ≠ right := fun same => absurd (holdable same) (by simp [Cond.holds])
    refine ⟨fun r => r, plain, fun r r' _ _ same => by simpa using same, ?_⟩
    simpa [Cond.holds] using differ
  | eq =>
    obtain ⟨values, zero, injective, shift⟩ := shifted left
    refine ⟨values, zero, injective, ?_⟩
    rw [compared.zero rfl, zero, shift left leftReal]
    simp [Cond.holds]

/-- Contents of the registers for which the comparison fails. They are different, except
where the failure says that they are equal. -/
theorem exists_fails {cond : Cond} {left right : Nat} (compared : Compared cond left right)
    (failable : Failable cond left right) : ∃ values : Nat → Int, values rx0 = 0 ∧
      (∀ r r', r ≠ rx0 → r' ≠ rx0 → values r = values r' →
        r = r' ∨ cond = .ne ∧ (r = left ∨ r = right) ∧ (r' = left ∨ r' = right)) ∧
      ¬ cond.holds (values left) (values right) := by
  have leftReal := (real_of_mem compared.first).1
  have plain : (fun r : Nat => (r : Int)) rx0 = 0 := rfl
  have distinct : ∀ r r' : Nat, (r : Int) = r' → r = r' := by omega
  cases cond with
  | lt =>
    by_cases order : left < right
    · refine ⟨fun r => -r, by simp [rx0], fun r r' _ _ same => .inl (by simpa using same), ?_⟩
      simp only [Cond.holds]
      omega
    · refine ⟨fun r => r, plain, fun r r' _ _ same => .inl (distinct r r' same), ?_⟩
      simpa [Cond.holds] using order
  | le =>
    have differ : left ≠ right := fun same => failable same (by simp [Cond.holds])
    by_cases order : left ≤ right
    · refine ⟨fun r => -r, by simp [rx0], fun r r' _ _ same => .inl (by simpa using same), ?_⟩
      simp only [Cond.holds]
      omega
    · refine ⟨fun r => r, plain, fun r r' _ _ same => .inl (distinct r r' same), ?_⟩
      simpa [Cond.holds] using order
  | ne =>
    by_cases isZero : right = rx0
    · refine ⟨fun r => if r = rx0 then 0 else r - left, if_pos rfl, ?_, ?_⟩
      · intro r r' real real' same
        simp only [if_neg real, if_neg real'] at same
        left
        omega
      · simp [Cond.holds, isZero, leftReal]
    · refine ⟨fun r => if r = right then left else r, ?_, ?_, ?_⟩
      · exact if_neg (Ne.symm isZero)
      · intro r r' _ _ same
        by_cases first : r = right <;> by_cases second : r' = right <;>
          simp only [first, second, if_true, if_false] at same ⊢ <;> simp <;> omega
      · simp [Cond.holds]
  | eq =>
    refine ⟨fun r => r, plain, fun r r' _ _ same => .inl (distinct r r' same), ?_⟩
    rw [compared.zero rfl]
    simpa [Cond.holds, rx0] using leftReal

section Ends

variable {moves2 moves1 made2 made1 : List (Nat × Nat)} {cond : Cond} {left right : Nat}

/-- Moves before a branch and behind it deliver what they have to, and the branch decides
as it would have decided before them. -/
structure Ends (moves2 moves1 made2 made1 : List (Nat × Nat)) (cond : Cond) (left right : Nat)
    (values : Nat → Int) : Prop where
  decides : cond.holds (run made2 values left) (run made2 values right) ↔
    cond.holds (values left) (values right)
  taken : cond.holds (values left) (values right) → Delivered moves2 values (run made2 values)
  falls : ¬ cond.holds (values left) (values right) →
    Delivered moves1 values (run made1 (run made2 values))

/-- A comparison does not read the scratch register. -/
theorem Compared.noScratch (compared : Compared cond left right) :
    left ≠ rtmp0 ∧ right ≠ rtmp0 := by
  refine ⟨(real_of_mem compared.first).2, ?_⟩
  rcases compared.second with listed | ⟨rfl, _⟩
  · exact (real_of_mem listed).2
  · decide

/-- Whether equal values satisfy a comparison does not depend on them. -/
theorem Cond.holds_self (cond : Cond) (w : Int) : cond.holds w w ↔ cond.holds 0 0 := by
  cases cond <;> simp [Cond.holds]

variable (implements2 : Implements rtmp0 moves2 made2) (implements1 : Implements rtmp0 moves1 made1)
  (inTable2 : InTable moves2) (inTable1 : InTable moves1) (compared : Compared cond left right)

include implements2 implements1 inTable1 compared in
/-- Moves that leave the compared registers alone do not change the decision. -/
theorem ends_of_undisturbed (undisturbed : Undisturbed moves2 moves1 cond left right)
    (values : Nat → Int) : Ends moves2 moves1 made2 made1 cond left right values := by
  have holdable (holds : cond.holds (values left) (values right)) : Holdable cond left right := by
    rintro rfl
    exact (Cond.holds_self cond _).mp holds
  have failable (fails : ¬ cond.holds (values left) (values right)) :
      Failable cond left right := by
    rintro rfl holds
    exact fails ((Cond.holds_self cond _).mpr holds)
  constructor
  · by_cases both : Holdable cond left right ∧ Failable cond left right
    · obtain ⟨first, second⟩ := undisturbed.compares both.1 both.2
      rw [implements2.kept first compared.noScratch.1, implements2.kept second compared.noScratch.2]
    · -- A register is compared with itself.
      have same : left = right := by
        by_contra differ
        exact both ⟨fun same => absurd same differ, fun same => absurd same differ⟩
      rw [same, Cond.holds_self cond (run made2 values right), Cond.holds_self cond (values right)]
  · exact fun holds => implements2.delivered (undisturbed.branch (holdable holds)) values
  · intro fails m member
    have delivered := implements1.delivered (undisturbed.falls (failable fails))
      (run made2 values) m member
    rw [delivered]
    exact implements2.kept (undisturbed.args (failable fails) m member)
      (real_of_mem (inTable1 m member).2).2 values

include implements2 implements1 inTable2 inTable1 compared in
private theorem undisturbed_of_ends (separates : Separates moves1 cond left right)
    (ends : ∀ values, values rx0 = 0 → Ends moves2 moves1 made2 made1 cond left right values) :
    Undisturbed moves2 moves1 cond left right := by
  have sequential2 : Sequential moves2 := by
    obtain ⟨values, zero, injective, holds⟩ := exists_holds compared separates.holdable
    refine implements2.sequential_of_delivered (fun m member n member' same => ?_)
      ((ends values zero).taken holds)
    exact injective _ _ (real_of_mem (inTable2 m member).2).1
      (real_of_mem (inTable2 n member').2).1 same
  have compares (failable : Failable cond left right) :
      ¬ Clobbers moves2 left ∧ ¬ Clobbers moves2 right := by
    have differ : left ≠ right := fun same => failable same (separates.holdable same)
    obtain ⟨source, listed, clobbers, sources⟩ := implements2.sources (W := Int) sequential2
    have zero (isZero : right = rx0) : source right = rx0 := by
      by_contra other
      have moved := listed right (by rwa [isZero] at other ⊢)
      exact (real_of_mem (inTable2 _ moved).1).1 isZero
    rcases sources_of_compares compared differ zero (fun values isZero => by
        have decides := (ends values isZero).decides
        rw [sources left compared.noScratch.1, sources right compared.noScratch.2] at decides
        exact decides.symm) with ⟨first, second⟩ | ⟨first, second⟩
    · exact ⟨fun clobbered => clobbers left clobbered first,
        fun clobbered => clobbers right clobbered second⟩
    · -- The two registers are exchanged, which is a cycle.
      have forth : Feeds moves2 right left :=
        ⟨first ▸ listed left (by rw [first]; exact differ.symm), differ⟩
      have back : Feeds moves2 left right :=
        ⟨second ▸ listed right (by rw [second]; exact differ), differ.symm⟩
      exact absurd (Relation.TransGen.tail (.single back) forth) (sequential2.acyclic left)
  have behind (failable : Failable cond left right) :
      Sequential moves1 ∧ ∀ m ∈ moves1, ¬ Clobbers moves2 m.2 := by
    obtain ⟨values, zero, injective, fails⟩ := exists_fails compared failable
    have delivered := (ends values zero).falls fails
    have sequential1 : Sequential moves1 := by
      refine implements1.sequential_of_delivered (fun m member n member' same => ?_) delivered
      rcases injective _ _ (real_of_mem (inTable1 m member).2).1
        (real_of_mem (inTable1 n member').2).1 same with equal | ⟨isNe, first, second⟩
      · exact equal
      · rcases separates.unknown isNe with absent | absent
        · rw [first.resolve_left (absent m member), second.resolve_left (absent n member')]
        · rw [first.resolve_right (absent m member), second.resolve_right (absent n member')]
    refine ⟨sequential1, ?_⟩
    rintro m member ⟨y, moved, other⟩
    have same : values m.2 = values y := by
      rw [← delivered m member, implements1.delivered sequential1 _ m member]
      exact implements2.delivered sequential2 values _ moved
    rcases injective _ _ (real_of_mem (inTable1 m member).2).1
      (real_of_mem (inTable2 _ moved).2).1 same with equal | ⟨_, first, _⟩
    · exact other equal.symm
    · have unclobbered := compares failable
      rcases first with isLeft | isRight
      · exact unclobbered.1 ⟨y, isLeft ▸ moved, isLeft ▸ other⟩
      · exact unclobbered.2 ⟨y, isRight ▸ moved, isRight ▸ other⟩
  exact {
    branch := fun _ => sequential2
    compares := fun _ => compares
    args := fun failable => (behind failable).2
    falls := fun failable => (behind failable).1 }

end Ends

private theorem rname_of_allocable {v : Val} (allocable : v.Allocable) : rname v = .ok v.num := by
  obtain ⟨r, listed, rfl⟩ := allocable
  have bounded : ∀ r ∈ trMap, r ≤ 80 := by decide
  simp [rname, bounded r listed, Val.num]

/-- A conditional block is left along two edges. -/
theorem isReturn_of_comparison {b : Blk} {x : Cond × Nat × Nat}
    (conditional : comparison b = some x) : ¬ b.isReturn ∧ b.btype ≠ .j := by
  constructor
  · intro returns
    have type : b.btype = .ret := by simpa [Blk.isReturn] using returns
    simp [comparison, type] at conditional
  · intro type
    simp [comparison, type] at conditional

/-- The branch compares registers that were handed out, or one of them with `x0`. -/
theorem compared_of_comparison {b : Blk} {cond : Cond} {left right : Nat}
    (conditional : comparison b = some (cond, left, right)) (compares : b.Compares Val.Allocable) :
    Compared cond left right ∧ (∀ (m : Fn) (id : Nat), b.s2 = some id →
      outputBranch m b = .ok [.branch cond left right id]) ∧
    ∀ s : MachineState T, Takes b s ↔ cond.holds (s.read left) (s.read right) := by
  have first := compares.first
  have second := compares.second
  unfold comparison at conditional
  split at conditional <;>
    simp only [Option.some.injEq, Prod.mk.injEq, reduceCtorEq] at conditional <;>
    obtain ⟨rfl, rfl, rfl⟩ := conditional <;>
    rename_i type <;>
    simp only [type, InsnType.comparesTwo, InsnType.comparesOne, true_or, or_true,
      forall_const, Bool.false_eq_true, false_implies] at first second
  -- Two registers are compared.
  iterate 3
    refine ⟨⟨first.num, .inl second.num, by simp⟩, fun m id target' => ?_, fun s => ?_⟩
    · simp [outputBranch, type, outputBlt, outputBle, outputBne, outputCompare, target, target',
        rname_of_allocable first, rname_of_allocable second]
    · rw [Takes, type, value_of_allocable s first, value_of_allocable s second]
      simp [Semantics.integers, Cond.holds]
  -- A register is compared with zero.
  iterate 2
    refine ⟨⟨first.num, .inr ⟨rfl, by simp⟩, by simp⟩, fun m id target' => ?_, fun s => ?_⟩
    · simp [outputBranch, type, outputBnz, outputBez, outputZero, target, target',
        rname_of_allocable first]
    · rw [Takes, type, value_of_allocable s first]
      simp [Semantics.integers, Cond.holds]

/-- What is printed for the end of a conditional block. -/
structure PrintedEnd (m : Fn) (b : Blk) (cond : Cond) (left right : Nat) (next2 next1 : Blk)
    (made2 made1 : List (Nat × Nat)) : Prop where
  target2 : b.s2 = some next2.id
  found2 : m.find? next2.id = some next2
  target1 : b.s1 = some next1.id
  found1 : m.find? next1.id = some next1
  behind : ∃ front back, m.blks = front ++ b :: next1 :: back
  lines : outputEnd m b =
    .ok (made2.map mvLine ++ ([.branch cond left right next2.id] ++ made1.map mvLine))
  implements2 : Implements rtmp0 (edgeMoves m b.s2 b.args2) made2
  implements1 : Implements rtmp0 (edgeMoves m b.s1 b.args1) made1

/-- Every conditional block ends in its moves and a comparison. -/
theorem exists_printedEnd {m : Fn} (allocated : Allocated m) {b : Blk} (member : b ∈ m.blks)
    {cond : Cond} {left right : Nat} (conditional : comparison b = some (cond, left, right)) :
    ∃ next2 next1 made2 made1, PrintedEnd m b cond left right next2 next1 made2 made1 := by
  obtain ⟨stays, noJump⟩ := isReturn_of_comparison conditional
  obtain ⟨front, after, split⟩ := List.append_of_mem member
  obtain ⟨next1, back, rfl, target1⟩ := allocated.falls front b after split stays
  obtain ⟨id2, listed2, target2⟩ := allocated.branches b member stays
  obtain ⟨next2, found2⟩ := Option.isSome_iff_exists.mp (Fn.find?_isSome_iff.mpr listed2)
  obtain rfl : next2.id = id2 := Fn.find?_id found2
  have member1 : next1 ∈ m.blks := by simp [split]
  have found1 : m.find? next1.id = some next1 := Fn.find?_of_mem allocated.nodup member1
  have inRegs := allocated.inRegs b member
  have params2 := (allocated.inRegs next2 (Fn.find?_mem found2)).1
  have params1 := (allocated.inRegs next1 member1).1
  obtain ⟨made2, moves2, implements2⟩ := outputMoves_implements
    (allocated.args2 b member _ next2 target2 found2)
    (fun p listed => hasName_of_allocable (params2 p listed))
    (fun a listed => hasName_of_allocable (inRegs.2.2 a listed))
    fun p listed => (real_of_mem (params2 p listed).num).2
  obtain ⟨made1, moves1, implements1⟩ := outputMoves_implements
    (allocated.args1 b member _ next1 target1 found1)
    (fun p listed => hasName_of_allocable (params1 p listed))
    (fun a listed => hasName_of_allocable (inRegs.2.1 a listed))
    fun p listed => (real_of_mem (params1 p listed).num).2
  have branch := (compared_of_comparison (T := Unit) conditional (allocated.compares b member)).2.1
    m _ target2
  refine ⟨next2, next1, made2, made1, target2, found2, target1, found1, ⟨front, back, split⟩,
    ?_, ?_, ?_⟩
  · simp [outputEnd, outputEdge, target2, target1, Fn.deref_of_find? found2,
      Fn.deref_of_find? found1, moves2, moves1, branch, noJump]
  · simpa [edgeMoves, target2, found2] using implements2
  · simpa [edgeMoves, target1, found1] using implements1

section Edges

variable {m : Fn} {b : Blk} {cond : Cond} {left right : Nat} {next2 next1 : Blk}
  {made2 made1 : List (Nat × Nat)}

private theorem PrintedEnd.edgeMoves_eq
    (printed : PrintedEnd m b cond left right next2 next1 made2 made1) :
    edgeMoves m b.s2 b.args2 = regMoves next2.params b.args2 ∧
      edgeMoves m b.s1 b.args1 = regMoves next1.params b.args1 := by
  simp [edgeMoves, printed.target2, printed.found2, printed.target1, printed.found1]

/-- The moves of both edges stay within the table of registers. -/
theorem PrintedEnd.inTable (printed : PrintedEnd m b cond left right next2 next1 made2 made1)
    (allocated : Allocated m) (member : b ∈ m.blks) :
    InTable (edgeMoves m b.s2 b.args2) ∧ InTable (edgeMoves m b.s1 b.args1) := by
  have inRegs := allocated.inRegs b member
  rw [printed.edgeMoves_eq.1, printed.edgeMoves_eq.2]
  exact ⟨regMoves_inTable (allocated.inRegs next2 (Fn.find?_mem printed.found2)).1 inRegs.2.2,
    regMoves_inTable (allocated.inRegs next1 (Fn.find?_mem printed.found1)).1 inRegs.2.1⟩

/-- No move writes `x0`. -/
theorem real_of_implements {moves made : List (Nat × Nat)}
    (implements : Implements rtmp0 moves made)
    (inTable : InTable moves) : ∀ m ∈ made, m.1 = rx0 → m.2 = rx0 := by
  intro m member zero
  rcases implements.only m member with listed | scratch
  · exact absurd zero (real_of_mem (inTable m listed).1).1
  · rw [scratch] at zero
    cases zero

/-- A block is left correctly from a state if the moves and the branch do right by the
contents of its registers. -/
theorem PrintedEnd.leaves_iff
    (printed : PrintedEnd m b cond left right next2 next1 made2 made1) (allocated : Allocated m)
    (member : b ∈ m.blks) (conditional : comparison b = some (cond, left, right))
    (E : Encoding T) (s : MachineState T) :
    Leaves E m b (made2.map mvLine ++ ([.branch cond left right next2.id] ++ made1.map mvLine)) s ↔
      Ends (edgeMoves m b.s2 b.args2) (edgeMoves m b.s1 b.args1) made2 made1 cond left right
        s.read := by
  have inTable := printed.inTable allocated member
  have inRegs := allocated.inRegs b member
  have takes := (compared_of_comparison conditional (allocated.compares b member)).2.2 s
  have read2 := read_moved (real_of_implements printed.implements2 inTable.1) s
  have read1 := read_moved (real_of_implements printed.implements1 inTable.2) (moved made2 s)
  have passes2 : Passes next2.params b.args2 s (moved made2 s) ↔ _ := passes_iff
    (allocated.args2 b member _ next2 printed.target2 printed.found2)
    (allocated.inRegs next2 (Fn.find?_mem printed.found2)).1 inRegs.2.2
  have passes1 : Passes next1.params b.args1 s (moved made1 (moved made2 s)) ↔ _ := passes_iff
    (allocated.args1 b member _ next1 printed.target1 printed.found1)
    (allocated.inRegs next1 (Fn.find?_mem printed.found1)).1 inRegs.2.1
  rw [← printed.edgeMoves_eq.1, read2] at passes2
  rw [← printed.edgeMoves_eq.2, read1, read2] at passes1
  have executed := exec_end E made2 made1 cond left right next2.id s
  rw [read2] at executed
  constructor
  · intro leaves
    refine ⟨⟨fun after => ?_, fun before => ?_⟩, fun before => ?_, fun before => ?_⟩
    · by_contra fails
      obtain ⟨_, _, _, _, left', _⟩ := leaves.falls (fun holds => fails (takes.mp holds))
      rw [executed, if_pos after] at left'
      cases left'
    · obtain ⟨_, _, _, _, left', _⟩ := leaves.taken (takes.mpr before)
      by_contra fails
      rw [executed, if_neg fails] at left'
      cases left'
    · obtain ⟨next, s', target', found, left', passed⟩ := leaves.taken (takes.mpr before)
      obtain rfl : next = next2 := by
        rw [printed.target2, Option.some.injEq] at target'
        rw [← target', printed.found2, Option.some.injEq] at found
        exact found.symm
      rw [executed] at left'
      split at left' <;> cases left'
      exact passes2.mp passed
    · obtain ⟨next, s', target', ⟨front, back, split'⟩, left', passed⟩ :=
        leaves.falls (fun holds => before (takes.mp holds))
      obtain rfl : next = next1 := by
        rw [printed.target1, Option.some.injEq] at target'
        have found := Fn.find?_of_mem allocated.nodup (b := next) (by simp [split'])
        rw [← target', printed.found1, Option.some.injEq] at found
        exact found.symm
      rw [executed] at left'
      split at left' <;> cases left'
      exact passes1.mp passed
  · intro ends
    constructor
    · intro holds
      have before := takes.mp holds
      refine ⟨next2, _, printed.target2, printed.found2, ?_, passes2.mpr (ends.taken before)⟩
      rw [executed, if_pos (ends.decides.mpr before)]
    · intro fails
      have before := fun holds => fails (takes.mpr holds)
      refine ⟨next1, _, printed.target1, printed.behind, ?_, passes1.mpr (ends.falls before)⟩
      rw [executed, if_neg fun after => before (ends.decides.mp after)]

/-- A conditional block transfers control and values correctly when its moves and its
branch do not disturb each other. Unless a comparison of a register with itself cannot hold, or
`bne` is not taken between two arguments for `s1`, this is the only way. -/
theorem edgesCorrect_iff {f g h k m : Fn} (optimizes : Optimizes f g h k m)
    (built : Frontend.ParserBuilt f) (E : Encoding T) {b : Blk} (member : b ∈ m.blks) {cond : Cond}
    {left right : Nat} (conditional : comparison b = some (cond, left, right)) :
    (Undisturbed (edgeMoves m b.s2 b.args2) (edgeMoves m b.s1 b.args1) cond left right →
      EdgesCorrect E m b) ∧
    (Separates (edgeMoves m b.s1 b.args1) cond left right → EdgesCorrect E m b →
      Undisturbed (edgeMoves m b.s2 b.args2) (edgeMoves m b.s1 b.args1) cond left right) := by
  have allocated := optimizes.isAllocated built
  obtain ⟨next2, next1, made2, made1, printed⟩ := exists_printedEnd allocated member conditional
  have compared := (compared_of_comparison (T := T) conditional (allocated.compares b member)).1
  obtain ⟨inTable2, inTable1⟩ := printed.inTable allocated member
  constructor
  · intro undisturbed
    refine ⟨_, printed.lines, fun s => ?_⟩
    rw [printed.leaves_iff allocated member conditional]
    exact ends_of_undisturbed printed.implements2 printed.implements1 inTable1 compared undisturbed
      s.read
  · rintro separates ⟨lines, returned, leaves⟩
    rw [printed.lines, Except.ok.injEq] at returned
    subst returned
    refine undisturbed_of_ends printed.implements2 printed.implements1 inTable2 inTable1 compared
      separates fun values zero => ?_
    have state := (printed.leaves_iff allocated member conditional E _).mp
      (leaves ⟨values, fun _ => E.split 0 0⟩)
    have same : MachineState.read (⟨values, fun _ => E.split 0 0⟩ : MachineState T) = values := by
      funext r
      by_cases isZero : r = rx0
      · rw [isZero, MachineState.read_rx0, zero]
      · exact MachineState.read_of_ne _ isZero
    rwa [same] at state

/-- The edges of the loop test do not disturb each other. -/
theorem edgesCorrect_iff_simpleLoop :
    ∃ f g h k m, Frontend.buildFunction 0 Frontend.simpleLoop = .ok f ∧ Optimizes f g h k m ∧
      ∃ b ∈ m.blks, comparison b = some (.lt, 11, 12) ∧
        ∀ E : Encoding Int, EdgesCorrect E m b := by
  have ran : ∃ f g ri h n k m b, Frontend.buildFunction 0 Frontend.simpleLoop = .ok f ∧
      correct 20 f f.ntmp = .ok (g, ri) ∧ ssa { g with ntmp := ri } = .ok (h, n) ∧
        abi0 h = .ok k ∧ regalloc k = .ok m ∧ m.blks[1]? = some b ∧
        comparison b = some (.lt, 11, 12) ∧
        edgeMoves m b.s2 b.args2 = [(11, 11), (12, 12), (13, 13)] ∧
        edgeMoves m b.s1 b.args1 = [(4, 13)] :=
    ⟨_, _, _, _, _, _, _, _, by rfl, by rfl, by rfl, by rfl, by rfl, by rfl, by rfl, by rfl,
      by rfl⟩
  obtain ⟨f, g, ri, h, n, k, m, b, parsed, corrected, converted, merged, allocated, listed,
    compares, moves2, moves1⟩ := ran
  have optimizes : Optimizes f { g with ntmp := ri } h k m :=
    ⟨⟨20, g, ri, corrected, rfl⟩, ⟨n, converted⟩, merged, allocated⟩
  have member : b ∈ m.blks := List.mem_of_getElem? listed
  refine ⟨f, _, h, k, m, parsed, optimizes, b, member, compares, fun E => ?_⟩
  refine (edgesCorrect_iff optimizes ⟨0, _, parsed⟩ E member compares).1 ?_
  rw [moves2, moves1]
  have sequential2 : Sequential [(11, 11), (12, 12), (13, 13)] :=
    ⟨by unfold Functional; decide, acyclic_of_rank id (by decide)⟩
  have sequential1 : Sequential [(4, 13)] :=
    ⟨by unfold Functional; decide, acyclic_of_rank id (by decide)⟩
  have unclobbered (r : Nat) : ¬ Clobbers [(11, 11), (12, 12), (13, 13)] r := by
    simp [Clobbers]
    omega
  exact ⟨fun _ => sequential2, fun _ _ => ⟨unclobbered 11, unclobbered 12⟩,
    fun _ _ _ => unclobbered _, fun _ => sequential1⟩

/-- A loop that goes on as long as a number is less than its successor. -/
def upwards : Frontend.Function where
  name := "main"
  params := [(.i27, "y")]
  body := {
    items := [
      { labels := ["top"], stmt := .plain (.move .i27 "x" "y") },
      { stmt := .plain (.binary .add .i27 "y" (.id "x") (.int 1)) },
      { stmt := .branch .lt (.id "x") (.id "y") "top" },
      { stmt := .leave [] }] }

/-- The printed loop is `addi t1, t0, 1`, `mv t0, t1`, `blt t0, t1`: it compares the
successor with itself and ends. -/
theorem upwards_ends :
    ∃ f g h k m, Frontend.buildFunction 0 upwards = .ok f ∧ Optimizes f g h k m ∧
      ∃ b ∈ m.blks, comparison b = some (.lt, 11, 12) ∧
        ∀ E : Encoding Int, ¬ EdgesCorrect E m b := by
  have ran : ∃ f g ri h n k m b, Frontend.buildFunction 0 upwards = .ok f ∧
      correct 20 f f.ntmp = .ok (g, ri) ∧ ssa { g with ntmp := ri } = .ok (h, n) ∧
        abi0 h = .ok k ∧ regalloc k = .ok m ∧ m.blks[1]? = some b ∧
        comparison b = some (.lt, 11, 12) ∧ (b.btype = .blt ∧ b.cmp0 = .reg 11 ∧ b.cmp1 = .reg 12) ∧
        outputEnd m b = .ok [.mv 11 12, .branch .lt 11 12 2] :=
    ⟨_, _, _, _, _, _, _, _, by rfl, by rfl, by rfl, by rfl, by rfl, by rfl, by rfl,
      ⟨by rfl, by rfl, by rfl⟩, by rfl⟩
  obtain ⟨f, g, ri, h, n, k, m, b, parsed, corrected, converted, merged, allocated, listed,
    compares, ⟨type, cmp0, cmp1⟩, printed⟩ := ran
  refine ⟨f, _, h, k, m, parsed, ⟨⟨20, g, ri, corrected, rfl⟩, ⟨n, converted⟩, merged, allocated⟩,
    b, List.mem_of_getElem? listed, compares, ?_⟩
  rintro E ⟨lines, returned, leaves⟩
  rw [printed, Except.ok.injEq] at returned
  subst returned
  obtain ⟨next, s', _, _, left', _⟩ := (leaves ⟨fun r => r, fun _ => 0⟩).taken (by
    rw [Takes, type, cmp0, cmp1]
    decide)
  have falls : (exec E [.mv 11 12, .branch .lt 11 12 2] ⟨fun r => r, fun _ => 0⟩).1 = .falls := by
    rfl
  rw [left'] at falls
  cases falls

end Edges

end Qbt.Asm
