import Mathlib.Data.List.Forall2
import Mathlib.Data.List.TakeWhile

/-!
# Lists that grow at the end

Indexing facts for lists that are built by appending one element.
-/

namespace Qbt.Lists

variable {α β : Type}

/-- An entry of a list with one element appended is an old entry or the new one. -/
theorem getElem?_snoc_iff {entries : List α} {last found : α} {index : Nat} :
    (entries ++ [last])[index]? = some found ↔
      entries[index]? = some found ∨ index = entries.length ∧ last = found := by
  rcases Nat.lt_trichotomy index entries.length with inside | rfl | outside
  · rw [List.getElem?_append_left inside]
    constructor
    · exact Or.inl
    · rintro (old | ⟨rfl, _⟩)
      · exact old
      · exact absurd inside (Nat.lt_irrefl _)
  · simp
  · rw [List.getElem?_eq_none (by simp; omega), List.getElem?_eq_none (by omega)]
    simp
    omega

/-- What is around an entry. -/
theorem exists_around {entries : List α} {index : Nat} {found : α}
    (present : entries[index]? = some found) :
    ∃ before after, entries = before ++ found :: after ∧ before.length = index := by
  obtain ⟨inside, rfl⟩ := List.getElem?_eq_some_iff.mp present
  refine ⟨entries.take index, entries.drop (index + 1), ?_, List.length_take_of_le inside.le⟩
  rw [List.getElem_cons_drop, List.take_append_drop]

/-- Overwriting the entry behind a prefix. -/
theorem set_length (before after : List α) (old new : α) :
    (before ++ old :: after).set before.length new = before ++ new :: after := by
  rw [List.set_append_right _ _ (Nat.le_refl _)]
  simp

/-- Inserting an entry behind a prefix. -/
theorem insertIdx_length (before after : List α) (new : α) :
    (before ++ after).insertIdx before.length new = before ++ new :: after := by
  induction before with
  | nil => simp
  | cons first rest ih => simp [ih]

/-- The entries before the end of a list are unaffected by what is appended. -/
theorem getElem?_append_of_some {entries more : List α} {found : α} {index : Nat}
    (present : entries[index]? = some found) : (entries ++ more)[index]? = some found := by
  have inside : index < entries.length := (List.getElem?_eq_some_iff.mp present).1
  rw [List.getElem?_append_left inside, present]

/-- The entry beside an entry of the second of two related lists. -/
theorem getElem?_of_forall₂ {related : α → β → Prop} {lefts : List α} {rights : List β}
    (entries : List.Forall₂ related lefts rights) {index : Nat} {right : β}
    (present : rights[index]? = some right) :
    ∃ left, lefts[index]? = some left ∧ related left right := by
  obtain ⟨inside, rfl⟩ := List.getElem?_eq_some_iff.mp present
  have inside' : index < lefts.length := by rwa [entries.length_eq]
  exact ⟨_, List.getElem?_eq_getElem inside', entries.get inside' inside⟩

/-- A split of the second of two related lists comes from a split of the first. -/
theorem split_of_forall₂ {related : α → β → Prop} {lefts : List α} {before : List β} {right : β}
    {after : List β} (entries : List.Forall₂ related lefts (before ++ right :: after)) :
    ∃ before' left after', lefts = before' ++ left :: after' ∧
      List.Forall₂ related before' before ∧ related left right ∧
        List.Forall₂ related after' after := by
  induction before generalizing lefts with
  | nil =>
    obtain ⟨left, after', head, tail, rfl⟩ := List.forall₂_cons_right_iff.mp entries
    exact ⟨[], left, after', rfl, .nil, head, tail⟩
  | cons first rest ih =>
    obtain ⟨other, lefts', here, tail, rfl⟩ := List.forall₂_cons_right_iff.mp entries
    obtain ⟨before', left, after', rfl, front, head, behind⟩ := ih tail
    exact ⟨other :: before', left, after', rfl, .cons here front, head, behind⟩

/-- The entry beside a member of the second of two related lists. -/
theorem mem_of_forall₂ {related : α → β → Prop} {lefts : List α} {rights : List β}
    (entries : List.Forall₂ related lefts rights) {right : β} (member : right ∈ rights) :
    ∃ left ∈ lefts, related left right := by
  obtain ⟨before, after, rfl⟩ := List.append_of_mem member
  obtain ⟨before', left, after', rfl, _, head, _⟩ := split_of_forall₂ entries
  exact ⟨left, by simp, head⟩

/-- Related lists are split alike. -/
theorem append_of_forall₂ {related : α → β → Prop} {first second : List α} {rights : List β}
    (entries : List.Forall₂ related (first ++ second) rights) :
    ∃ first' second', rights = first' ++ second' ∧ List.Forall₂ related first first' ∧
      List.Forall₂ related second second' := by
  refine ⟨rights.take first.length, rights.drop first.length, (List.take_append_drop _ _).symm,
    ?_, ?_⟩
  · exact (List.forall₂_take_append _ _ _ entries.flip).flip
  · exact (List.forall₂_drop_append _ _ _ entries.flip).flip

/-- Lists related entry by entry to a third one are related entry by entry. -/
theorem forall₂_comp {γ : Type} {first : α → β → Prop} {second : β → γ → Prop}
    {both : α → γ → Prop} (comp : ∀ {a b c}, first a b → second b c → both a c)
    {as : List α} {bs : List β} {cs : List γ} (entries : List.Forall₂ first as bs)
    (entries' : List.Forall₂ second bs cs) : List.Forall₂ both as cs := by
  induction entries generalizing cs with
  | nil =>
    obtain rfl := List.forall₂_nil_left_iff.mp entries'
    exact .nil
  | cons head _ ih =>
    obtain ⟨c, rest, head', tail', rfl⟩ := List.forall₂_cons_left_iff.mp entries'
    exact .cons (comp head head') (ih tail')

/-- What the first of two related lists finds has its counterpart found in the second. -/
theorem find?_forall₂ {related : α → β → Prop} {lefts : List α} {rights : List β}
    (entries : List.Forall₂ related lefts rights) {p : α → Bool} {q : β → Bool}
    (agree : ∀ left right, related left right → q right = p left) {left : α}
    (found : lefts.find? p = some left) : ∃ right, rights.find? q = some right ∧
      related left right := by
  induction entries with
  | nil => simp at found
  | @cons first second lefts rights head _ ih =>
    have same := agree first second head
    by_cases here : p first
    · rw [List.find?_cons_of_pos here, Option.some.injEq] at found
      subst found
      exact ⟨second, List.find?_cons_of_pos (by rw [same, here]), head⟩
    · rw [List.find?_cons_of_neg here] at found
      obtain ⟨right, present, entry⟩ := ih found
      exact ⟨right, by rw [List.find?_cons_of_neg (by rwa [same])]; exact present, entry⟩

/-- Looking a key up in two tables that agree entry by entry succeeds in both or in
neither, with related values. -/
theorem lookup_forall₂ {γ : Type} [BEq γ] [LawfulBEq γ] {related : γ × α → γ × β → Prop}
    (keys : ∀ {left right}, related left right → right.1 = left.1)
    {lefts : List (γ × α)} {rights : List (γ × β)} (entries : List.Forall₂ related lefts rights)
    (key : γ) :
    (lefts.lookup key = none ∧ rights.lookup key = none) ∨
      ∃ left right, lefts.lookup key = some left ∧ rights.lookup key = some right ∧
        related (key, left) (key, right) := by
  induction entries with
  | nil => exact Or.inl ⟨rfl, rfl⟩
  | @cons left right lefts rights head _ ih =>
    obtain ⟨leftKey, left⟩ := left
    obtain ⟨rightKey, right⟩ := right
    obtain rfl : rightKey = leftKey := keys head
    by_cases same : key = rightKey
    · subst key
      exact Or.inr ⟨left, right, by simp, by simp, head⟩
    · simpa [List.lookup_cons, beq_eq_false_iff_ne.mpr same] using ih

/-- Two adjacent intervals. -/
theorem range'_append_sub {low middle high : Nat} (first : low ≤ middle) (second : middle ≤ high) :
    List.range' low (middle - low) ++ List.range' middle (high - middle) =
      List.range' low (high - low) := by
  have splits : high - low = (middle - low) + (high - middle) := by omega
  rw [splits, ← List.range'_append_1, Nat.add_sub_cancel' first]

/-- A list starts with a longest run of elements that satisfy a test. -/
theorem exists_leading (p : α → Bool) (xs : List α) : ∃ run rest, xs = run ++ rest ∧
    (∀ a ∈ run, p a) ∧ ∀ a ∈ rest.head?, p a = false := by
  refine ⟨xs.takeWhile p, xs.dropWhile p, List.takeWhile_append_dropWhile.symm,
    fun a member => List.mem_takeWhile_imp member, fun a first => ?_⟩
  have stops := List.head?_dropWhile_not p xs
  rw [first] at stops
  exact stops

/-- A list ends with a longest run of elements that satisfy a test. -/
theorem exists_trailing (p : α → Bool) (xs : List α) : ∃ rest run, xs = rest ++ run ∧
    (∀ a ∈ run, p a) ∧ ∀ a ∈ rest.getLast?, p a = false := by
  obtain ⟨run, rest, split, all, stops⟩ := exists_leading p xs.reverse
  refine ⟨rest.reverse, run.reverse, ?_, fun a member => all a (List.mem_reverse.mp member), ?_⟩
  · rw [← List.reverse_append, ← split, List.reverse_reverse]
  · rw [List.getLast?_reverse]
    exact stops

/-- Where the `k`-th of the elements that satisfy a test stands. -/
theorem split_of_filter {p : α → Bool} {xs : List α} {k : Nat} {a : α}
    (found : (xs.filter p)[k]? = some a) : ∃ before after, xs = before ++ a :: after ∧
      (before.filter p).length = k ∧ p a := by
  obtain ⟨inside, here⟩ := List.getElem?_eq_some_iff.mp found
  have split : xs.filter p = (xs.filter p).take k ++ a :: (xs.filter p).drop (k + 1) := by
    rw [← here, ← List.drop_eq_getElem_cons inside, List.take_append_drop]
  obtain ⟨front, rest, rfl, first, later⟩ := List.filter_eq_append_iff.mp split
  obtain ⟨skipped, after, rfl, none, kept, _⟩ := List.filter_eq_cons_iff.mp later
  refine ⟨front ++ skipped, after, (List.append_assoc _ _ _).symm, ?_, kept⟩
  have empty : skipped.filter p = [] := List.filter_eq_nil_iff.mpr none
  rw [List.filter_append, first, empty, List.append_nil, List.length_take]
  omega

/-- What skips whole runs of elements skips each of them. -/
theorem eq_of_run {f : List α → β} {p : α → Bool}
    (skips : ∀ a run rest, (∀ b ∈ a :: run, p b = true) → (∀ b ∈ rest.head?, p b = false) →
      f (a :: run ++ rest) = f rest) {a : α} (l : List α) (holds : p a = true) :
    f (a :: l) = f l := by
  obtain ⟨run, rest, rfl, all, stops⟩ := exists_leading p l
  rw [← List.cons_append, skips a run rest (List.forall_mem_cons.mpr ⟨holds, all⟩) stops]
  cases run with
  | nil => rfl
  | cons b run => rw [skips b run rest all stops]

/-- What is behind the first occurrence of an element that ends the list. -/
theorem eq_nil_of_append_eq {front other behind : List α} {a : α} (first : a ∉ front)
    (last : a ∉ other) (same : front ++ a :: behind = other ++ [a]) : behind = [] := by
  induction front generalizing other with
  | nil =>
    cases other with
    | nil => simpa using same
    | cons b other => exact absurd ((List.cons.inj same).1 ▸ List.mem_cons_self) last
  | cons b front ih =>
    cases other with
    | nil => exact absurd ((List.cons.inj same).1 ▸ List.mem_cons_self) first
    | cons c other =>
      exact ih (fun member => first (List.mem_cons_of_mem _ member))
        (fun member => last (List.mem_cons_of_mem _ member)) (List.cons.inj same).2

end Qbt.Lists
