import Mathlib.Data.List.Basic

/-!
# Padded vectors

A growable vector that is written at arbitrary indices. A write past the end
first appends a padding value until the index exists, so the vector behaves as a
total map which is the padding value almost everywhere. Reads therefore go
through `List.getD`, and `getD_write` is the only fact a client needs about the
representation.
-/

namespace Qbt.Padded

variable {α : Type} {pad : α}

/-- Write `value` at `index`, first padding the vector up to that index. -/
def write (pad : α) (entries : List α) (index : Nat) (value : α) : List α :=
  (entries ++ List.replicate (index + 1 - entries.length) pad).set index value

/-- Overwrite an existing entry with the padding value; a missing entry already
reads as padding. -/
def erase (pad : α) (entries : List α) (index : Nat) : List α :=
  entries.set index pad

/-- A write extends the vector exactly as far as the written index. -/
@[simp] theorem length_write (entries : List α) (index : Nat) (value : α) :
    (write pad entries index value).length = max entries.length (index + 1) := by
  simp only [write, List.length_set, List.length_append, List.length_replicate]
  omega

@[simp] theorem length_erase (entries : List α) (index : Nat) :
    (erase pad entries index).length = entries.length := by
  simp [erase]

/-- Padding a vector does not change what it reads. -/
theorem getD_append_replicate (entries : List α) (count index : Nat) :
    (entries ++ List.replicate count pad).getD index pad = entries.getD index pad := by
  simp only [List.getD_eq_getElem?_getD, List.getElem?_append, List.getElem?_replicate]
  by_cases inside : index < entries.length
  · simp [inside]
  · rw [if_neg inside, List.getElem?_eq_none (Nat.le_of_not_lt inside)]
    split <;> rfl

/-- A write changes the reading at its own index only. -/
theorem getD_write (entries : List α) (index other : Nat) (value : α) :
    (write pad entries index value).getD other pad =
      if other = index then value else entries.getD other pad := by
  have inside : index < (entries ++ List.replicate (index + 1 - entries.length) pad).length := by
    simp only [List.length_append, List.length_replicate]
    omega
  by_cases same : other = index
  · subst other
    rw [if_pos rfl, write, List.getD_eq_getElem?_getD, List.getElem?_set_self inside]
    rfl
  · rw [if_neg same, ← getD_append_replicate entries (index + 1 - entries.length) other]
    simp [write, List.getD_eq_getElem?_getD, List.getElem?_set_ne (Ne.symm same)]

/-- Erasing makes the entry read as padding and changes no other reading. -/
theorem getD_erase (entries : List α) (index other : Nat) :
    (erase pad entries index).getD other pad =
      if other = index then pad else entries.getD other pad := by
  by_cases same : other = index
  · subst other
    by_cases inside : index < entries.length <;>
      simp [erase, List.getD_eq_getElem?_getD, inside]
  · rw [if_neg same]
    simp [erase, List.getD_eq_getElem?_getD, List.getElem?_set_ne (Ne.symm same)]

/-- What a vector holds besides padding is exactly what its indices read. -/
theorem mem_iff_exists_getD {entries : List α} {value : α} (real : value ≠ pad) :
    value ∈ entries ↔ ∃ index, entries.getD index pad = value := by
  constructor
  · intro member
    obtain ⟨index, inside, rfl⟩ := List.mem_iff_getElem.mp member
    exact ⟨index, by simp [List.getD_eq_getElem?_getD, inside]⟩
  · rintro ⟨index, rfl⟩
    by_cases inside : index < entries.length
    · have reads : entries.getD index pad = entries[index] := by
        simp [List.getD_eq_getElem?_getD, inside]
      rw [reads]
      exact List.getElem_mem inside
    · exact absurd (by simp [List.getD_eq_getElem?_getD, Nat.le_of_not_lt inside]) real

end Qbt.Padded
