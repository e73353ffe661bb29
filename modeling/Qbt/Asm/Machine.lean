import Mathlib.Logic.Function.Basic
import Qbt.Asm.Asm

/-!
# Execution of assembly

Registers hold words, memory holds trytes, and a word occupies three of them. `x0` reads
as zero.
-/

namespace Qbt.Asm

/-- The number a numeral denotes. Two signs in a row are no signed decimal number. -/
def Numeral.value : Numeral → Option Int
  | .plain v => some v
  | .negated v => if 0 ≤ v then some (-v) else none

/-- The number that is printed for the field `v` of a value. The field is 0 where there is none,
and of a reference it is the pointer. -/
def printedField : Val → Option Int
  | .imm v _ => some v
  | .mem _ offset => some offset
  | .ref _ => none
  | .reg _ | .tmp _ | .noclass => some 0

/-- How words are stored in trytes. -/
structure Encoding (T : Type) where
  /-- the trytes of a word -/
  split : Int → Fin 3 → T
  /-- the word in three trytes -/
  join : (Fin 3 → T) → Int
  /-- the tryte `st t` stores of a word -/
  narrow : Int → T
  /-- the word `ld t` makes of a tryte -/
  widen : T → Int

/-- A word that is stored can be read back. -/
structure Encoding.Lawful {T : Type} (E : Encoding T) : Prop where
  join_split : ∀ w, E.join (E.split w) = w

/-- Trytes that hold whole words. -/
def Encoding.whole : Encoding Int where
  split w _ := w
  join trytes := trytes 0
  narrow := id
  widen := id

/-- Words that are stored whole are read back. -/
theorem Encoding.whole_lawful : Encoding.whole.Lawful := ⟨fun _ => rfl⟩

/-- The state of the machine. -/
structure MachineState (T : Type) where
  regs : Nat → Int
  mem : Int → T

variable {T : Type}

namespace MachineState

/-- The word in a register. -/
def read (s : MachineState T) (r : Nat) : Int := if r = rx0 then 0 else s.regs r

/-- Write a register. -/
def write (s : MachineState T) (r : Nat) (w : Int) : MachineState T :=
  if r = rx0 then s else { s with regs := Function.update s.regs r w }

/-- The value of an operand. -/
def value (s : MachineState T) : Val → Int
  | .reg r => s.read r
  | .imm v _ => v
  | _ => 0

@[simp] theorem value_reg (s : MachineState T) (r : Nat) : s.value (.reg r) = s.read r := rfl

@[simp] theorem read_rx0 (s : MachineState T) : s.read rx0 = 0 := if_pos rfl

/-- Registers other than `x0` read as written. -/
theorem read_of_ne (s : MachineState T) {r : Nat} (real : r ≠ rx0) : s.read r = s.regs r :=
  if_neg real

/-- Writes of `x0` are dropped. -/
theorem write_rx0 (s : MachineState T) (w : Int) : s.write rx0 w = s := if_pos rfl

/-- A write of another register updates that register only. -/
theorem write_of_ne (s : MachineState T) {r : Nat} (real : r ≠ rx0) (w : Int) :
    s.write r w = { s with regs := Function.update s.regs r w } :=
  if_neg real

@[simp] theorem write_mem (s : MachineState T) (r : Nat) (w : Int) : (s.write r w).mem = s.mem := by
  unfold write
  split <;> rfl

/-- A write changes the reading of its own register only. -/
theorem read_write (s : MachineState T) (r other : Nat) (w : Int) (real : r ≠ rx0) :
    (s.write r w).read other = if other = r then w else s.read other := by
  rw [write_of_ne s real]
  by_cases zero : other = rx0
  · subst other
    rw [if_neg real.symm]
    rfl
  · rw [read_of_ne _ zero, read_of_ne _ zero]
    by_cases same : other = r
    · subst other
      simp
    · simp [same]

end MachineState

/-- A state to try a line on. -/
def trial (E : Encoding T) (value : Int) : MachineState T where
  regs _ := value
  mem _ := E.split 0 0

/-- Whether the branch is taken. -/
def Cond.holds : Cond → Int → Int → Prop
  | .lt, w, x => w < x
  | .le, w, x => w ≤ x
  | .ne, w, x => w ≠ x
  | .eq, w, x => w = x

instance (cond : Cond) (w x : Int) : Decidable (cond.holds w x) :=
  match cond with
  | .lt => inferInstanceAs (Decidable (w < x))
  | .le => inferInstanceAs (Decidable (w ≤ x))
  | .ne => inferInstanceAs (Decidable (w ≠ x))
  | .eq => inferInstanceAs (Decidable (w = x))

/-- Store a value of the given width. -/
def storeMem (E : Encoding T) (width : Width) (mem : Int → T) (address w : Int) : Int → T :=
  match width with
  | .word => fun i =>
    if i = address then E.split w 0
    else if i = address + 1 then E.split w 1
    else if i = address + 2 then E.split w 2
    else mem i
  | .tryte => Function.update mem address (E.narrow w)

/-- Load a value of the given width. -/
def loadMem (E : Encoding T) (width : Width) (mem : Int → T) (address : Int) : Int :=
  match width with
  | .word => E.join fun i => mem (address + i)
  | .tryte => E.widen (mem address)

/-- The numbers of a line are signed decimal numbers that depend on the program only. -/
def Line.Readable : Line → Prop
  | .addi _ _ v => v.value.isSome
  | .li _ operand => (printedField operand).isSome
  | _ => True

/-- What a readable line other than a branch, a call or a return does. -/
def Line.effect (E : Encoding T) (s : MachineState T) : Line → MachineState T
  | .st width src offset base =>
    { s with mem := storeMem E width s.mem (s.read base + offset) (s.read src) }
  | .ld width dst offset base => s.write dst (loadMem E width s.mem (s.read base + offset))
  | .mv dst src => s.write dst (s.read src)
  | .addi dst src v => s.write dst (s.read src + v.value.getD 0)
  | .add dst left right => s.write dst (s.read left + s.read right)
  | .sub dst left right => s.write dst (s.read left - s.read right)
  | .slt dst left right => s.write dst (if s.read left < s.read right then 1 else 0)
  | .slti dst left v => s.write dst (if s.read left < v then 1 else 0)
  | .li dst operand => s.write dst ((printedField operand).getD 0)
  | _ => s

/-- Where control goes behind some lines. -/
inductive Exit where
  /-- to what is printed behind them -/
  | falls
  | jumps (id : Nat)
  /-- to another function, with the lines that are left -/
  | calls (rest : List Line)
  | returns
deriving DecidableEq, Repr

/-- Execute lines up to the first that transfers control. -/
def exec (E : Encoding T) : List Line → MachineState T → Exit × MachineState T
  | [], s => (.falls, s)
  | .branch cond left right id :: rest, s =>
    if cond.holds (s.read left) (s.read right) then (.jumps id, s) else exec E rest s
  | .jal id :: _, s => (.jumps id, s)
  | .call _ :: rest, s => (.calls rest, s)
  | .jalr _ :: rest, s => (.calls rest, s)
  | .ret :: _, s => (.returns, s)
  | line :: rest, s => exec E rest (line.effect E s)

end Qbt.Asm
