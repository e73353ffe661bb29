import Mathlib.Data.List.Basic

/-!
# Blocks of memory

An allocated block is the list of its bytes. Reading and writing fail outside of it. What is
newly allocated holds arbitrary bytes. `read_append` and `write_append` describe an access to
the middle of a block, `flatten_length` the room that elements of one size take.
-/

namespace Qbt.Bytes

variable {β : Type}

/-- Read `len` bytes from `start` on. -/
def read (memory : List β) (start len : Nat) : Option (List β) :=
  if start + len ≤ memory.length then some ((memory.drop start).take len) else none

/-- Write bytes from `start` on. -/
def write (memory : List β) (start : Nat) (bytes : List β) : Option (List β) :=
  if start + bytes.length ≤ memory.length then
    some (memory.take start ++ (bytes ++ memory.drop (start + bytes.length)))
  else none

/-- `malloc`, where `fresh` are the bytes that are found there. -/
def malloc (fresh : Nat → β) (size : Nat) : List β := (List.range size).map fresh

/-- `realloc`, where `fresh` are the bytes that are found behind the old ones. -/
def realloc (fresh : Nat → β) (memory : List β) (size : Nat) : List β :=
  memory.take size ++ malloc fresh (size - memory.length)

/-- `memcpy` from another object. -/
def memcpy (memory : List β) (dst : Nat) (src : List β) (len : Nat) : Option (List β) := do
  write memory dst (← read src 0 len)

/-- `memmove` within one object. -/
def memmove (memory : List β) (dst src len : Nat) : Option (List β) := do
  write memory dst (← read memory src len)

/-- Bytes are read where they stand. -/
theorem read_append {before bytes after : List β} {start len : Nat} (starts : start = before.length)
    (lengths : len = bytes.length) : read (before ++ (bytes ++ after)) start len = some bytes := by
  subst starts lengths
  simp [read]

/-- Bytes are written over as many others. -/
theorem write_append {before old after bytes : List β} {start : Nat}
    (starts : start = before.length) (lengths : bytes.length = old.length) :
    write (before ++ (old ++ after)) start bytes = some (before ++ (bytes ++ after)) := by
  subst starts
  simp [write, lengths, List.drop_append]

/-- An object is copied as a whole. -/
theorem memcpy_append {before old after bytes : List β} {start len : Nat}
    (starts : start = before.length) (lengths : bytes.length = len) (room : old.length = len) :
    memcpy (before ++ (old ++ after)) start bytes len = some (before ++ (bytes ++ after)) := by
  have whole : read bytes 0 len = some bytes := by
    simp [read, lengths, List.take_of_length_le]
  simp only [memcpy, whole, Option.bind_eq_bind, Option.bind_some]
  exact write_append starts (lengths.trans room.symm)

@[simp] theorem length_malloc (fresh : Nat → β) (size : Nat) :
    (malloc fresh size).length = size := by
  simp [malloc]

/-- A block that grows keeps its bytes. -/
theorem realloc_of_le {memory : List β} {size : Nat} (grows : memory.length ≤ size)
    (fresh : Nat → β) :
    realloc fresh memory size = memory ++ malloc fresh (size - memory.length) := by
  rw [realloc, List.take_of_length_le grows]

/-- A block is split at a position inside. -/
theorem exists_split {memory : List β} {start : Nat} (inside : start ≤ memory.length) :
    ∃ before after, memory = before ++ after ∧ before.length = start :=
  ⟨memory.take start, memory.drop start, (List.take_append_drop ..).symm,
    List.length_take_of_le inside⟩

/-- Bytes are shifted into spare room behind them, and leave spare room in front of them. -/
theorem memmove_shift (before bytes spare after : List β) {start size len : Nat}
    (starts : start = before.length) (room : spare.length = size) (lengths : len = bytes.length) :
    ∃ left, left.length = size ∧
      memmove (before ++ (bytes ++ (spare ++ after))) (start + size) start len =
        some (before ++ (left ++ (bytes ++ after))) := by
  have inside : size ≤ (bytes ++ spare).length := by
    rw [List.length_append, room]
    exact Nat.le_add_left _ _
  obtain ⟨left, old, split, leftLength⟩ := exists_split inside
  have oldLength : bytes.length = old.length := by
    have total := congrArg List.length split
    rw [List.length_append, List.length_append] at total
    omega
  refine ⟨left, leftLength, ?_⟩
  have regrouped : before ++ (bytes ++ (spare ++ after)) = (before ++ left) ++ (old ++ after) := by
    rw [← List.append_assoc bytes, split]
    simp
  have shifted : start + size = (before ++ left).length := by
    rw [List.length_append, starts, leftLength]
  simp only [memmove, read_append starts lengths, Option.bind_eq_bind, Option.bind_some]
  rw [regrouped, write_append shifted oldLength, List.append_assoc]

/-- Elements of one size one after the other. -/
theorem flatten_length {elems : List (List β)} {size : Nat}
    (sized : ∀ x ∈ elems, x.length = size) : elems.flatten.length = elems.length * size := by
  induction elems with
  | nil => simp
  | cons x rest ih =>
    rw [List.flatten_cons, List.length_append, sized x List.mem_cons_self,
      ih fun y member => sized y (List.mem_cons_of_mem _ member), List.length_cons, Nat.succ_mul,
      Nat.add_comm]

end Qbt.Bytes
