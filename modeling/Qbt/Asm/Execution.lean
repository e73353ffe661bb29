import Qbt.Abi.Slots
import Qbt.Asm.Frame
import Qbt.Asm.Selection

/-!
# Execution of a printed function

A machine that executes the text of a function line by line. Functions that are called are a
parameter: what they make of the registers, the memory and the rest of the world.
-/

namespace Qbt.Asm

open Abi Regalloc

variable {T U : Type}

/-- What is seen of printed code: the functions it calls, and the way its branches go. -/
inductive Visible where
  | call (target : Int)
  | branch (taken : Bool)
deriving DecidableEq, Repr

/-- The lines that are left, the state of the machine and the rest of the world. -/
structure Running (T U : Type) where
  lines : List Line
  state : MachineState T
  outside : U

/-- What a function that is called, by its address, makes of the state and of the world. -/
abbrev Routine (T U : Type) := Int → MachineState T → U → MachineState T × U

/-- Go on behind a call. -/
def Running.called (routine : Routine T U) (target : Int) (rest : List Line)
    (running : Running T U) : List Visible × Running T U :=
  let back := routine target running.state running.outside
  ([.call target], ⟨rest, back.1, back.2⟩)

/-- Execute a line of `text`. Execution halts at a `ret ra`, and behind the last line. -/
def stepLine (E : Encoding T) (symbols : String → Int) (routine : Routine T U) (text : List Line)
    (running : Running T U) : Option (List Visible × Running T U) :=
  match running.lines with
  | [] | .ret :: _ => none
  | .branch cond left right id :: rest =>
    if cond.holds (running.state.read left) (running.state.read right) then
      some ([.branch true], { running with lines := linesAt text id })
    else some ([.branch false], { running with lines := rest })
  | .jal id :: _ => some ([], { running with lines := linesAt text id })
  | .call symbol :: rest => some (running.called routine (symbols symbol) rest)
  | .jalr target :: rest => some (running.called routine (running.state.read target) rest)
  | line :: rest =>
    some ([], { running with lines := rest, state := line.effect E running.state })

/-- The text of a function as a machine. -/
def lineMachine (E : Encoding T) (symbols : String → Int) (routine : Routine T U)
    (text : List Line) : Machine (Running T U) Visible where
  step := stepLine E symbols routine text

section Steps

variable {E : Encoding T} {symbols : String → Int} {routine : Routine T U} {text : List Line}

private theorem step_straight {line : Line} (straight : line.straight) (rest : List Line)
    (s : MachineState T) (u : U) :
    (lineMachine E symbols routine text).step ⟨line :: rest, s, u⟩ =
      some ([], ⟨rest, line.effect E s, u⟩) := by
  cases line <;> first | rfl | cases straight

variable (symbols routine text) in
/-- Lines that are executed one behind the other. -/
theorem goes_effects {lines : List Line} (straight : ∀ l ∈ lines, l.straight) (rest : List Line)
    (s : MachineState T) (u : U) :
    (lineMachine E symbols routine text).Goes ⟨lines ++ rest, s, u⟩ []
      ⟨rest, effects E lines s, u⟩ := by
  induction lines generalizing s with
  | nil => exact .refl _ _
  | cons line others ih =>
    rw [List.forall_mem_cons] at straight
    exact (Machine.Goes.step (step_straight straight.1 _ s u)).trans (ih straight.2 _)

end Steps

/-- The rest of the world of a function: the stack pointer, the memory, and what is outside of the
machine. -/
structure World (T U : Type) where
  sp : Int
  mem : Int → T
  outside : U

/-- The width of an access of a type. -/
def accessWidth (type : VType) : Width := if type = .i9 then .tryte else .word

/-- What instructions compute on the machine. -/
def machineSemantics (E : Encoding T) (symbols : String → Int) : Semantics Int (World T U) where
  imm v := v
  ref := symbols
  absent := 0
  effect type vtype w x v world :=
    match type with
    | .add => (w + x, world)
    | .sub => (w - x, world)
    | .mul => (w * x, world)
    | .lt => (if w < x then 1 else 0, world)
    | .copy | .move | .addr => (w, world)
    | .load => (loadMem E (accessWidth vtype) world.mem (w + v), world)
    | .store => (0, { world with mem := storeMem E (accessWidth vtype) world.mem (w + v) x })
    | .alloc => (world.sp - v, { world with sp := world.sp - v })
    | .dealloc => (0, { world with sp := world.sp + v })
    | _ => (0, world)
  taken := Semantics.integers.taken

/-- Moves and copies of the machine yield their operand. -/
theorem machineSemantics_lawful (E : Encoding T) (symbols : String → Int) :
    (machineSemantics (U := U) E symbols).Lawful where
  copy _ _ _ _ := rfl
  move _ _ _ _ := rfl
  addr _ _ _ _ := rfl
  add _ w x _ _ := by simp [machineSemantics, Int.add_comm w x]
  mul _ w x _ _ := by simp [machineSemantics, Int.mul_comm w x]

/-- Registers that are handed out have no special purpose. -/
theorem special_of_listed {r : Nat} (listed : r ∈ trMap) :
    r ≠ rx0 ∧ r ≠ rsp ∧ r ≠ rfp ∧ r ≠ rra ∧ r ≠ rtmp0 := by
  have each : ∀ r ∈ trMap, r ≠ rx0 ∧ r ≠ rsp ∧ r ≠ rfp ∧ r ≠ rra ∧ r ≠ rtmp0 := by decide
  exact each r listed

theorem ra_mem {k : Nat} (inside : k < 24) : ra k ∈ arMap :=
  List.mem_of_getElem? (getElem?_arMap inside)

/-- Every argument register belongs to a slot. -/
theorem exists_ra {r : Nat} (listed : r ∈ arMap) : ∃ k < 24, r = ra k := by
  obtain ⟨k, found⟩ := List.mem_iff_getElem?.mp listed
  have inside : k < 24 := (List.getElem?_eq_some_iff.mp found).1
  exact ⟨k, inside, Option.some.inj (found.symm.trans (getElem?_arMap inside))⟩

/-- What the user does to memory: it accesses an address, or it moves the stack pointer down. -/
inductive Access where
  | touch (address : Int) (width : Width)
  | lower (count : Int)

/-- How far accesses move the stack pointer down. -/
def lowered : List Access → Int
  | [] => 0
  | .touch .. :: rest => lowered rest
  | .lower count :: rest => count + lowered rest

/-- No access is to the addresses from `low` up to `high`, and the stack pointer stays
below them. -/
def Orderly (low high : Int) : Int → List Access → Prop
  | sp, [] => sp ≤ low
  | sp, .touch address width :: rest =>
    (address + width.size ≤ low ∨ high ≤ address) ∧ Orderly low high sp rest
  | sp, .lower count :: rest => sp ≤ low ∧ Orderly low high (sp - count) rest

/-- The access that an instruction makes. -/
def insnAccess (type : InsnType) (vtype : VType) (base v : Int) : Option Access :=
  match type with
  | .load | .store => some (.touch (base + v) (accessWidth vtype))
  | .alloc => some (.lower v)
  | .dealloc => some (.lower (-v))
  | _ => none

/-- The access of an event. -/
def access : CallEvent Int → Option Access
  | .insn type vtype base _ v => insnAccess type vtype base v
  | _ => none

theorem lowered_append (first second : List Access) :
    lowered (first ++ second) = lowered first + lowered second := by
  induction first with
  | nil => simp [lowered]
  | cons access rest ih =>
    cases access with
    | touch => exact ih
    | lower count => simp only [List.cons_append, lowered, ih, Int.add_assoc]

/-- The stack pointer starts below the kept addresses. -/
theorem Orderly.sp_le {low high sp : Int} {accesses : List Access}
    (orderly : Orderly low high sp accesses) : sp ≤ low := by
  induction accesses with
  | nil => exact orderly
  | cons access rest ih =>
    cases access with
    | touch => exact ih orderly.2
    | lower => exact orderly.1

/-- Accesses are in order if the first are, and the others are from where those leave the stack
pointer. -/
theorem orderly_append {low high sp : Int} {first second : List Access} :
    Orderly low high sp (first ++ second) ↔
      Orderly low high sp first ∧ Orderly low high (sp - lowered first) second := by
  induction first generalizing sp with
  | nil =>
    simp only [List.nil_append, lowered, Int.sub_zero]
    exact ⟨fun orderly => ⟨orderly.sp_le, orderly⟩, And.right⟩
  | cons access rest ih =>
    cases access with
    | touch => simp only [List.cons_append, Orderly, lowered, ih, and_assoc]
    | lower count => simp only [List.cons_append, Orderly, lowered, ih, and_assoc, Int.sub_sub]

/-- What comes first is orderly where the whole is. -/
theorem Orderly.beginning {low high sp : Int} {first all : List Access}
    (orderly : Orderly low high sp all) (within : first <+: all) : Orderly low high sp first := by
  obtain ⟨second, rfl⟩ := within
  exact (orderly_append.mp orderly).1

/-- The addresses that are not between `low` and `high`. -/
def Beside (low high i : Int) : Prop := i < low ∨ high ≤ i

/-- The stack pointer, the memory beside a frame and the rest of the world are the same. -/
structure SameWorld (low high : Int) (world : World T U) (s : MachineState T) (u : U) : Prop where
  sp : s.read rsp = world.sp
  mem : ∀ i, Beside low high i → s.mem i = world.mem i
  outside : u = world.outside

/-- A routine finds the arguments of a call in the argument registers. -/
def Finds (args : Nat → Option Int) (s : MachineState T) : Prop :=
  ∀ k < 24, ∀ w, args k = some w → s.read (ra k) = w

/-- How a routine comes back from a call with the given results. -/
structure Answers (low high : Int) (results : Nat → Int) (world : World T U)
    (s s' : MachineState T) (u : U) : Prop where
  results : ∀ k < 24, s'.read (ra k) = results k
  back : ComesBack low high s s'
  world : SameWorld low high world s' u

/-- Wherever it is called, a routine does exactly what `call` says. -/
def Serves (called : Int → MachineState T → U → Prop) (low high : Int)
    (call : Callee Int (World T U)) (routine : Routine T U) : Prop :=
  ∀ (target : Int) (args : Nat → Option Int) (world : World T U) (s : MachineState T) (u : U),
    called target s u → Finds args s → world.sp ≤ low → SameWorld low high world s u →
      Answers low high (call target args world).1 (call target args world).2 s
        (routine target s u).1 (routine target s u).2

/-- The routine at an address is called in a state, in the run of `text` from `start`. -/
def CalledFrom (E : Encoding T) (symbols : String → Int) (routine : Routine T U) (text : List Line)
    (start : Running T U) (target : Int) (s : MachineState T) (u : U) : Prop :=
  ∃ events lines rest,
    (lineMachine E symbols routine text).Goes start events ⟨lines, s, u⟩ ∧
      (lineMachine E symbols routine text).step ⟨lines, s, u⟩ =
        some (Running.called routine target rest ⟨lines, s, u⟩)

/-- What is visible of an event. -/
def visible : CallEvent Int → Option Visible
  | .call target _ => some (.call target)
  | .branch taken => some (.branch taken)
  | _ => none

end Qbt.Asm
