import Qbt.Std.Lists
import Qbt.Vec.Vec

/-!
# `vec` refines lists

`Holds` relates a vector to the list of its elements. Every operation that is allowed on the
list succeeds on the vector, so that no assertion fails and no access is outside of the block,
and the vector then holds what the operation makes of the list.
-/

namespace Qbt.Vec

variable {β : Type}

/-- The block starts with the elements of a list, and there is room for one more. -/
structure Stores (v : Vec β) (l : List (List β)) : Prop where
  sized : ∀ x ∈ l, x.length = v.ns
  room : v.n < v.s
  allocated : v.buf.length = v.s * v.ns
  stored : l.flatten <+: v.buf

/-- The elements of the vector are those of the list. -/
structure Holds (v : Vec β) (l : List (List β)) : Prop extends Stores v l where
  count : v.n = l.length

section Operations

variable {v : Vec β} {l : List (List β)}

private theorem vecAt_of_lt {i : Nat} (inside : i < v.n) : vecAt v i = some (i * v.ns) := by
  simp [vecAt, inside]

/-- A vector has been created without elements. -/
theorem vecCreate_holds (fresh : Nat → β) (ns : Nat) : Holds (vecCreate fresh ns) [] where
  sized := by simp
  room := Nat.zero_lt_one
  allocated := by simp [vecCreate]
  stored := List.nil_prefix
  count := rfl

/-- The room behind the elements is enough for one more. -/
theorem Stores.spare (stores : Stores v l) (less : l.length < v.s) :
    ∃ old after, v.buf = l.flatten ++ (old ++ after) ∧ old.length = v.ns := by
  obtain ⟨rest, split⟩ := stores.stored
  have lengths := congrArg List.length split
  rw [List.length_append, stores.allocated, Bytes.flatten_length stores.sized] at lengths
  have enough : (l.length + 1) * v.ns ≤ v.s * v.ns := Nat.mul_le_mul_right _ less
  rw [Nat.succ_mul] at enough
  have inside : v.ns ≤ rest.length := by omega
  obtain ⟨old, after, rfl, size⟩ := Bytes.exists_split inside
  exact ⟨old, after, split.symm, size⟩

/-- There is room for one more element when the vector has grown. -/
theorem grow_stores (holds : Holds v l) (fresh : Nat → β) :
    Stores (grow fresh v) l ∧ (grow fresh v).n = l.length + 1 ∧ (grow fresh v).ns = v.ns := by
  have room := holds.room
  have count := holds.count
  by_cases full : v.n + 1 ≥ v.s
  · have larger : v.buf.length ≤ v.s * 2 * v.ns := by
      rw [holds.allocated]
      exact Nat.mul_le_mul_right _ (by omega)
    have grown : grow fresh v = ⟨v.n + 1, v.s * 2, v.ns,
        v.buf ++ Bytes.malloc fresh (v.s * 2 * v.ns - v.buf.length)⟩ := by
      simp [grow, full, Bytes.realloc_of_le larger]
    rw [grown]
    refine ⟨⟨holds.sized, ?_, ?_, holds.stored.trans (List.prefix_append _ _)⟩, ?_, rfl⟩
    · show v.n + 1 < v.s * 2
      omega
    · rw [List.length_append, Bytes.length_malloc]
      exact Nat.add_sub_cancel' larger
    · rw [count]
  · have same : grow fresh v = ⟨v.n + 1, v.s, v.ns, v.buf⟩ := by
      simp [grow, full]
    rw [same]
    exact ⟨⟨holds.sized, Nat.lt_of_not_le full, holds.allocated, holds.stored⟩, by rw [count], rfl⟩

/-- A block that has been written holds what it starts with. -/
theorem Stores.written {l' : List (List β)} {after : List β} (stores : Stores v l)
    (sized : ∀ x ∈ l', x.length = v.ns) (count : v.n = l'.length)
    (length : (l'.flatten ++ after).length = v.buf.length) :
    Holds { v with buf := l'.flatten ++ after } l' where
  sized := sized
  room := stores.room
  allocated := length.trans stores.allocated
  stored := List.prefix_append _ _
  count := count

/-- `vec_append` appends to the list. -/
theorem vecAppend_holds (holds : Holds v l) (fresh : Nat → β) {x : List β}
    (size : x.length = v.ns) :
    ∃ v', vecAppend fresh v x = some v' ∧ Holds v' (l ++ [x]) ∧ v'.ns = v.ns := by
  obtain ⟨stores, count, same⟩ := grow_stores holds fresh
  have less : l.length < (grow fresh v).s := by
    have room := stores.room
    omega
  obtain ⟨old, after, block, room⟩ := stores.spare less
  have position : vecAt (grow fresh v) ((grow fresh v).n - 1) = some l.flatten.length := by
    rw [vecAt_of_lt (by omega), count, Bytes.flatten_length stores.sized]
    rfl
  have copied : Bytes.memcpy (grow fresh v).buf l.flatten.length x (grow fresh v).ns =
      some ((l ++ [x]).flatten ++ after) := by
    rw [block, Bytes.memcpy_append rfl (size.trans same.symm) room]
    simp
  refine ⟨{ grow fresh v with buf := (l ++ [x]).flatten ++ after }, ?_, ?_, same⟩
  · simp only [vecAppend, position, copied, Option.bind_eq_bind, Option.bind_some, Option.pure_def]
  · refine stores.written ?_ (by simp [count]) ?_
    · intro y member
      rcases List.mem_append.mp member with old | new
      · exact stores.sized y old
      · rw [List.mem_singleton.mp new, size, same]
    · rw [block]
      simp [room, size, same]

/-- `vec_insert` inserts into the list. -/
theorem vecInsert_holds (holds : Holds v l) (fresh : Nat → β) {x : List β}
    (size : x.length = v.ns) {i : Nat} (inside : i ≤ l.length) :
    ∃ v', vecInsert fresh v x i = some v' ∧ Holds v' (l.insertIdx i x) ∧ v'.ns = v.ns := by
  obtain ⟨before, behind, rfl, rfl⟩ := Bytes.exists_split inside
  rw [Lists.insertIdx_length]
  have allowed : ¬ vecLen v < before.length := by
    rw [vecLen, holds.count]
    exact Nat.not_lt_of_le inside
  by_cases last : before.length = vecLen v
  · have none : behind = [] := by
      rw [vecLen, holds.count, List.length_append] at last
      exact List.length_eq_zero_iff.mp (by omega)
    subst none
    rw [List.append_nil] at holds
    obtain ⟨v', returned, result⟩ := vecAppend_holds holds fresh size
    refine ⟨v', ?_, result⟩
    simp [vecInsert, last, returned]
  · obtain ⟨stores, count, same⟩ := grow_stores holds fresh
    rw [List.length_append] at count
    have less : (before ++ behind).length < (grow fresh v).s := by
      have room := stores.room
      rw [List.length_append]
      omega
    obtain ⟨spare, after, block, room⟩ := stores.spare less
    rw [List.flatten_append, List.append_assoc] at block
    have sizedBefore : ∀ y ∈ before, y.length = (grow fresh v).ns := fun y member =>
      stores.sized y (List.mem_append_left _ member)
    have sizedBehind : ∀ y ∈ behind, y.length = (grow fresh v).ns := fun y member =>
      stores.sized y (List.mem_append_right _ member)
    have position : vecAt (grow fresh v) before.length = some before.flatten.length := by
      rw [vecAt_of_lt (by omega), Bytes.flatten_length sizedBefore]
    have tail : ((grow fresh v).n - before.length - 1) * (grow fresh v).ns =
        behind.flatten.length := by
      rw [Bytes.flatten_length sizedBehind, count]
      congr 1
      omega
    obtain ⟨left, leftLength, shifted⟩ := Bytes.memmove_shift before.flatten behind.flatten spare
      after rfl room tail
    have block' : before.flatten ++ (x ++ (behind.flatten ++ after)) =
        (before ++ x :: behind).flatten ++ after := by
      simp
    have copied : Bytes.memcpy (before.flatten ++ (left ++ (behind.flatten ++ after)))
        before.flatten.length x (grow fresh v).ns =
          some ((before ++ x :: behind).flatten ++ after) := by
      rw [← block']
      exact Bytes.memcpy_append rfl (size.trans same.symm) leftLength
    refine ⟨{ grow fresh v with buf := (before ++ x :: behind).flatten ++ after }, ?_, ?_, same⟩
    · simp only [vecInsert, allowed, last, if_false, position, block, shifted, copied,
        Option.bind_eq_bind, Option.bind_some, Option.pure_def]
    · refine stores.written ?_ (by simp [count, Nat.add_assoc]) ?_
      · intro y member
        rcases List.mem_append.mp member with old | new
        · exact sizedBefore y old
        · rcases List.mem_cons.mp new with rfl | old
          · exact size.trans same.symm
          · exact sizedBehind y old
      · rw [block]
        simp [room, size, same]
        omega

/-- The block around an element. -/
theorem Holds.around {before behind : List (List β)} {x : List β}
    (holds : Holds v (before ++ x :: behind)) :
    ∃ after, v.buf = before.flatten ++ (x ++ (behind.flatten ++ after)) ∧
      vecAt v before.length = some before.flatten.length ∧ x.length = v.ns := by
  obtain ⟨after, block⟩ := holds.stored
  refine ⟨after, ?_, ?_, holds.sized x (by simp)⟩
  · rw [← block]
    simp
  · have inside : before.length < v.n := by
      rw [holds.count, List.length_append, List.length_cons]
      omega
    rw [vecAt_of_lt inside, Bytes.flatten_length fun y member => holds.sized y (by simp [member])]

/-- `vect_at` reads an element of the list. -/
theorem vectAt_holds (holds : Holds v l) {i : Nat} {x : List β} (found : l[i]? = some x) :
    vectAt v i = some x := by
  obtain ⟨before, behind, rfl, rfl⟩ := Lists.exists_around found
  obtain ⟨after, block, position, size⟩ := holds.around
  simp only [vectAt, position, block, Option.bind_eq_bind, Option.bind_some]
  exact Bytes.read_append rfl size.symm

/-- An assignment to `vect_at` replaces an element of the list. -/
theorem vectSet_holds (holds : Holds v l) {i : Nat} (inside : i < l.length) {x : List β}
    (size : x.length = v.ns) :
    ∃ v', vectSet v i x = some v' ∧ Holds v' (l.set i x) ∧ v'.ns = v.ns := by
  obtain ⟨y, found⟩ : ∃ y, l[i]? = some y := ⟨_, List.getElem?_eq_getElem inside⟩
  obtain ⟨before, behind, rfl, rfl⟩ := Lists.exists_around found
  obtain ⟨after, block, position, size'⟩ := holds.around
  rw [Lists.set_length]
  have block' : before.flatten ++ (x ++ (behind.flatten ++ after)) =
      (before ++ x :: behind).flatten ++ after := by
    simp
  have written : Bytes.write v.buf before.flatten.length x =
      some ((before ++ x :: behind).flatten ++ after) := by
    rw [block, ← block']
    exact Bytes.write_append rfl (size.trans size'.symm)
  refine ⟨{ v with buf := (before ++ x :: behind).flatten ++ after }, ?_, ?_, rfl⟩
  · simp only [vectSet, position, written, Option.bind_eq_bind, Option.bind_some, Option.pure_def]
  · refine holds.toStores.written ?_ (by simp [holds.count]) ?_
    · intro y member
      rcases List.mem_append.mp member with old | new
      · exact holds.sized y (List.mem_append_left _ old)
      · rcases List.mem_cons.mp new with rfl | old
        · exact size
        · exact holds.sized y (List.mem_append_right _ (List.mem_cons_of_mem _ old))
    · rw [← block', block]
      simp [size, size']

/-- `vec_pop` takes the last element off the list. -/
theorem vectPop_holds {x : List β} (holds : Holds v (l ++ [x])) :
    ∃ v', vectPop v = some (x, v') ∧ Holds v' l ∧ v'.ns = v.ns := by
  obtain ⟨after, block, _, size⟩ := holds.around
  have count : v.n = l.length + 1 := by simp [holds.count]
  have sized : ∀ y ∈ l, y.length = v.ns := fun y member =>
    holds.sized y (List.mem_append_left _ member)
  have last : Bytes.read v.buf ((v.n - 1) * v.ns) v.ns = some x := by
    rw [block, count, Nat.add_sub_cancel, ← Bytes.flatten_length sized]
    exact Bytes.read_append rfl size.symm
  refine ⟨{ v with n := v.n - 1 }, ?_, ⟨⟨sized, ?_, holds.allocated, ?_⟩, ?_⟩, rfl⟩
  · have notEmpty : v.n ≠ 0 := by omega
    simp only [vectPop, vecPop, notEmpty, last, if_false, Option.bind_eq_bind, Option.bind_some,
      Option.pure_def]
  · exact Nat.lt_of_le_of_lt (Nat.sub_le _ _) holds.room
  · rw [block]
    exact List.prefix_append _ _
  · show v.n - 1 = l.length
    rw [count, Nat.add_sub_cancel]

/-- `vec_reset` empties the list. -/
theorem vecReset_holds (holds : Holds v l) : Holds (vecReset v) [] where
  sized := by simp
  room := Nat.zero_lt_of_lt holds.room
  allocated := holds.allocated
  stored := List.nil_prefix
  count := rfl

/-- A loop over the vector sees the elements of the list. -/
theorem elems_holds (holds : Holds v l) : elems v = some l := by
  have seen : ∀ k ≤ l.length, (List.range k).mapM (vectAt v) = some (l.take k) := by
    intro k bounded
    induction k with
    | zero => rfl
    | succ k ih =>
      have found : l[k]? = some l[k] := List.getElem?_eq_getElem bounded
      rw [List.range_succ, List.mapM_append, ih (Nat.le_of_succ_le bounded), List.take_add_one,
        found]
      simp [vectAt_holds holds found]
  rw [elems, vecLen, holds.count, seen _ (Nat.le_refl _), List.take_length]

end Operations

/-- An operation with the bytes of its element. -/
inductive Op (β : Type) where
  | append (x : List β)
  | insert (x : List β) (i : Nat)
  | pop
  | reset
  | set (i : Nat) (x : List β)
deriving DecidableEq, Repr

namespace Op

/-- The element an operation returns, and the list it leaves. -/
def onList : Op β → List (List β) → Option (List β) × List (List β)
  | append x, l => (none, l ++ [x])
  | insert x i, l => (none, l.insertIdx i x)
  | pop, l => (l.getLast?, l.dropLast)
  | reset, _ => (none, [])
  | set i x, l => (none, l.set i x)

/-- The same of a vector, where `fresh` are the bytes found in what is allocated. -/
def onVec (fresh : Nat → β) : Op β → Vec β → Option (Option (List β) × Vec β)
  | append x, v => (vecAppend fresh v x).map (none, ·)
  | insert x i, v => (vecInsert fresh v x i).map (none, ·)
  | pop, v => (vectPop v).map fun popped => (some popped.1, popped.2)
  | reset, v => some (none, vecReset v)
  | set i x, v => (vectSet v i x).map (none, ·)

/-- What the caller has to see to: elements have their size, indices are inside, and an
element is taken off a vector that has one. -/
def Allowed (ns : Nat) (l : List (List β)) : Op β → Prop
  | append x => x.length = ns
  | insert x i => x.length = ns ∧ i ≤ l.length
  | pop => l ≠ []
  | reset => True
  | set i x => x.length = ns ∧ i < l.length

/-- An operation on a vector is the operation on its list. -/
theorem onVec_holds {v : Vec β} {l : List (List β)} (holds : Holds v l) (fresh : Nat → β)
    {op : Op β} (allowed : op.Allowed v.ns l) :
    ∃ v', op.onVec fresh v = some ((op.onList l).1, v') ∧ Holds v' (op.onList l).2 ∧
      v'.ns = v.ns := by
  cases op with
  | append x =>
    obtain ⟨v', returned, result⟩ := vecAppend_holds holds fresh allowed
    exact ⟨v', by simp [onVec, returned, onList], result⟩
  | insert x i =>
    obtain ⟨v', returned, result⟩ := vecInsert_holds holds fresh allowed.1 allowed.2
    exact ⟨v', by simp [onVec, returned, onList], result⟩
  | pop =>
    obtain none | ⟨rest, x, rfl⟩ := List.eq_nil_or_concat l
    · exact absurd none allowed
    · rw [List.concat_eq_append] at holds ⊢
      obtain ⟨v', returned, holds', same⟩ := vectPop_holds holds
      exact ⟨v', by simp [onVec, returned, onList], by simpa [onList] using holds', same⟩
  | reset => exact ⟨_, rfl, vecReset_holds holds, rfl⟩
  | set i x =>
    obtain ⟨v', returned, result⟩ := vectSet_holds holds allowed.2 allowed.1
    exact ⟨v', by simp [onVec, returned, onList], result⟩

end Op

/-- Operations on a list one after the other. -/
def runList : List (Op β) → List (List β) → List (Option (List β)) × List (List β)
  | [], l => ([], l)
  | op :: ops, l =>
    let done := op.onList l
    let others := runList ops done.2
    (done.1 :: others.1, others.2)

/-- Operations on a vector one after the other, each with what an allocation finds. -/
def runVec : List ((Nat → β) × Op β) → Vec β → Option (List (Option (List β)) × Vec β)
  | [], v => some ([], v)
  | (fresh, op) :: ops, v => do
    let (x, v) ← op.onVec fresh v
    let (xs, v) ← runVec ops v
    pure (x :: xs, v)

/-- Every operation is allowed in the list it finds. -/
def AllAllowed (ns : Nat) : List (List β) → List (Op β) → Prop
  | _, [] => True
  | l, op :: ops => op.Allowed ns l ∧ AllAllowed ns (op.onList l).2 ops

/-- Operations on a vector are the operations on its list. -/
theorem runVec_holds {v : Vec β} {l : List (List β)} (holds : Holds v l)
    {ops : List ((Nat → β) × Op β)} (allowed : AllAllowed v.ns l (ops.map Prod.snd)) :
    ∃ v', runVec ops v = some ((runList (ops.map Prod.snd) l).1, v') ∧
      Holds v' (runList (ops.map Prod.snd) l).2 ∧ v'.ns = v.ns := by
  induction ops generalizing v l with
  | nil => exact ⟨v, rfl, holds, rfl⟩
  | cons step ops ih =>
    obtain ⟨fresh, op⟩ := step
    obtain ⟨v₁, first, holds₁, same⟩ := Op.onVec_holds holds fresh allowed.1
    obtain ⟨v₂, others, holds₂, same'⟩ := ih holds₁ (same.symm ▸ allowed.2)
    refine ⟨v₂, ?_, holds₂, same'.trans same⟩
    simp [runVec, first, others, runList]

/-- Operations that are allowed succeed on a vector from `vec_create` on, return what they
return for lists, and leave the elements they leave for lists, with room for one more in a
block of `s` elements. -/
theorem run_refines (fresh : Nat → β) (ns : Nat) {ops : List ((Nat → β) × Op β)}
    (allowed : AllAllowed ns [] (ops.map Prod.snd)) :
    ∃ v, runVec ops (vecCreate fresh ns) = some ((runList (ops.map Prod.snd) []).1, v) ∧
      elems v = some (runList (ops.map Prod.snd) []).2 ∧ v.ns = ns ∧
      vecLen v = (runList (ops.map Prod.snd) []).2.length ∧ vecLen v < v.s ∧
      v.buf.length = v.s * v.ns := by
  obtain ⟨v, returned, holds, same⟩ := runVec_holds (vecCreate_holds fresh ns) allowed
  exact ⟨v, returned, elems_holds holds, same, holds.count, holds.room, holds.allocated⟩

/-- Elements of two bytes are inserted in front and at the end, and one is taken off. -/
theorem run_refines_inserts : ∃ v, runVec
      [((fun _ => 9), .append [1, 2]), ((fun _ => 8), .insert [3, 4] 0),
        ((fun _ => 7), .insert [5, 6] 2), ((fun _ => 9), .pop),
        ((fun _ => 9), .set 1 [0, 0])] (vecCreate (fun _ => 9) 2) =
        some ([none, none, none, some [5, 6], none], v) ∧
      elems v = some [[3, 4], [0, 0]] ∧ v.ns = 2 ∧ vecLen v = 2 ∧ vecLen v < v.s ∧
      v.buf.length = v.s * v.ns :=
  run_refines (fun _ => 9) 2 (by simp [AllAllowed, Op.Allowed, Op.onList])

end Qbt.Vec
