import Mathlib.Data.Set.Basic
import Mathlib.Order.Lattice

/-!
# Scans for overlapping intervals

Half-open intervals with a start and a finish. A scan collects the intervals of a list that
overlap a span, and stops at one that starts behind the span. In a list sorted by start it finds
all of them. `Carries.refresh` is for scanning what an earlier scan has collected, with a sorted
table behind it: nothing is lost as long as what overlaps the later interval has overlapped the
earlier one or is in the table.
-/

namespace Qbt.IntervalScan

variable {α τ : Type} [LinearOrder τ] {start finish : α → τ}

/-- Both intervals go on at some point. -/
def Overlaps (start finish : α → τ) (a b : α) : Prop := start a < finish b ∧ start b < finish a

/-- Collect what overlaps the span from `lo` to `hi`, up to what starts behind it. -/
def scan (start finish : α → τ) (lo hi : τ) : List α → List α
  | [] => []
  | a :: rest =>
    if finish a ≤ lo then scan start finish lo hi rest
    else if hi ≤ start a then []
    else a :: scan start finish lo hi rest

section Scan

variable {lo hi : τ} {xs ys : List α} {k : α}

/-- What a scan collects overlaps the span. -/
theorem mem_of_mem_scan (member : k ∈ scan start finish lo hi xs) :
    k ∈ xs ∧ lo < finish k ∧ start k < hi := by
  induction xs with
  | nil => cases member
  | cons a rest ih =>
    unfold scan at member
    split at member
    · exact ⟨List.mem_cons_of_mem _ (ih member).1, (ih member).2⟩
    · rename_i lasts
      split at member
      · cases member
      · rename_i starts
        rcases List.mem_cons.mp member with rfl | member
        · exact ⟨List.mem_cons_self, lt_of_not_ge lasts, lt_of_not_ge starts⟩
        · exact ⟨List.mem_cons_of_mem _ (ih member).1, (ih member).2⟩

/-- The scan goes on behind what starts in front of the end of the span. -/
theorem scan_append (before : ∀ a ∈ xs, lo < finish a → start a < hi) :
    scan start finish lo hi (xs ++ ys) =
      scan start finish lo hi xs ++ scan start finish lo hi ys := by
  induction xs with
  | nil => rfl
  | cons a rest ih =>
    obtain ⟨first, others⟩ := List.forall_mem_cons.mp before
    rw [List.cons_append, scan, scan, ih others]
    split
    · rfl
    · rename_i lasts
      rw [if_neg (not_le_of_gt (first (lt_of_not_ge lasts))),
        if_neg (not_le_of_gt (first (lt_of_not_ge lasts))), List.cons_append]

/-- A scan of a list is a scan of a part of it with nothing that starts behind the span. -/
theorem exists_scanned (start finish : α → τ) (lo hi : τ) (xs : List α) :
    ∃ seen unseen, xs = seen ++ unseen ∧ (∀ a ∈ seen, lo < finish a → start a < hi) ∧
      scan start finish lo hi xs = scan start finish lo hi seen ∧
      ∀ a ∈ unseen.head?, lo < finish a ∧ hi ≤ start a := by
  induction xs with
  | nil => exact ⟨[], [], rfl, by simp, rfl, by simp⟩
  | cons a rest ih =>
    obtain ⟨seen, unseen, rfl, inside, same, stops⟩ := ih
    by_cases breaks : lo < finish a ∧ hi ≤ start a
    · refine ⟨[], a :: (seen ++ unseen), rfl, by simp, ?_, by simpa using breaks⟩
      rw [scan.eq_2, if_neg (not_le_of_gt breaks.1), if_pos breaks.2]
      rfl
    · have first : lo < finish a → start a < hi := fun lasts =>
        lt_of_not_ge fun behind => breaks ⟨lasts, behind⟩
      refine ⟨a :: seen, unseen, rfl, List.forall_mem_cons.mpr ⟨first, inside⟩, ?_, stops⟩
      rw [scan.eq_2, scan.eq_2, same]

/-- Without a break a scan collects everything that overlaps the span. -/
theorem mem_scan_of_seen (seen : ∀ a ∈ xs, lo < finish a → start a < hi) (member : k ∈ xs)
    (lasts : lo < finish k) : k ∈ scan start finish lo hi xs := by
  obtain ⟨before, after, rfl⟩ := List.append_of_mem member
  rw [scan_append fun a among => seen a (List.mem_append_left _ among)]
  refine List.mem_append_right _ ?_
  have starts : start k < hi := seen k (by simp) lasts
  rw [scan, if_neg (not_le_of_gt lasts), if_neg (not_le_of_gt starts)]
  exact List.mem_cons_self

/-- What is in front of an element of a scan has been scanned without a break. -/
theorem split_of_scan {e : α} {before after : List α}
    (split : scan start finish lo hi xs = before ++ e :: after) :
    ∃ front behind, xs = front ++ e :: behind ∧ (∀ a ∈ front, lo < finish a → start a < hi) ∧
      scan start finish lo hi front = before := by
  induction xs generalizing before with
  | nil => simp [scan] at split
  | cons a rest ih =>
    rw [scan] at split
    split at split
    · rename_i ended
      obtain ⟨front, behind, rfl, seen, same⟩ := ih split
      refine ⟨a :: front, behind, rfl, List.forall_mem_cons.mpr ⟨?_, seen⟩, ?_⟩
      · exact fun lasts => absurd ended (not_le_of_gt lasts)
      · rw [scan, if_pos ended, same]
    · rename_i lasts
      split at split
      · simp at split
      · rename_i starts
        cases before with
        | nil =>
          obtain ⟨rfl, _⟩ := List.cons.inj split
          exact ⟨[], rest, rfl, by simp, rfl⟩
        | cons first before =>
          obtain ⟨rfl, split'⟩ := List.cons.inj split
          obtain ⟨front, behind, rfl, seen, same⟩ := ih split'
          refine ⟨a :: front, behind, rfl, List.forall_mem_cons.mpr ⟨?_, seen⟩, ?_⟩
          · exact fun _ => lt_of_not_ge starts
          · rw [scan, if_neg lasts, if_neg starts, same]

end Scan

/-- The interval is listed in front of everything that starts later. -/
def Leads (start : α → τ) (k : α) (xs : List α) : Prop :=
  ∀ before e after, xs = before ++ e :: after → start k < start e → k ∈ before

section Leads

variable {lo hi : τ} {xs ys : List α} {k : α}

/-- A scan does not stop in front of what leads. -/
theorem Leads.mem_scan (leads : Leads start k xs) (member : k ∈ xs) (lasts : lo < finish k)
    (starts : start k < hi) : k ∈ scan start finish lo hi xs := by
  obtain ⟨seen, unseen, rfl, inside, same, stops⟩ := exists_scanned start finish lo hi xs
  rw [same]
  refine mem_scan_of_seen inside ?_ lasts
  cases unseen with
  | nil => simpa using member
  | cons e after => exact leads seen e after rfl (lt_of_lt_of_le starts (stops e rfl).2)

/-- What leads still leads behind a scan. -/
theorem Leads.scan (leads : Leads start k xs) (lasts : lo < finish k) :
    Leads start k (scan start finish lo hi xs) := by
  intro before e after split later
  obtain ⟨front, behind, rfl, seen, rfl⟩ := split_of_scan split
  exact mem_scan_of_seen seen (leads front e behind rfl later) lasts

/-- In a sorted list everything leads. -/
theorem leads_of_sorted (sorted : xs.Pairwise fun a b => start a ≤ start b) (member : k ∈ xs) :
    Leads start k xs := by
  rintro before e after rfl later
  obtain ⟨_, behind, _⟩ := List.pairwise_append.mp sorted
  rcases List.mem_append.mp member with front | back
  · exact front
  · rcases List.mem_cons.mp back with rfl | back
    · exact absurd later (lt_irrefl _)
    · exact absurd later (not_lt_of_ge ((List.pairwise_cons.mp behind).1 k back))

/-- In a sorted list a scan finds all that overlaps the span. -/
theorem mem_scan_iff_of_sorted (sorted : xs.Pairwise fun a b => start a ≤ start b) :
    k ∈ IntervalScan.scan start finish lo hi xs ↔ k ∈ xs ∧ lo < finish k ∧ start k < hi := by
  constructor
  · exact mem_of_mem_scan
  · rintro ⟨member, lasts, starts⟩
    exact (leads_of_sorted sorted member).mem_scan member lasts starts

/-- What leads both lists leads them in a row. -/
theorem Leads.append (leads : Leads start k xs) (others : k ∈ xs ∨ Leads start k ys) :
    Leads start k (xs ++ ys) := by
  intro before e after split later
  rcases List.append_eq_append_iff.mp split with ⟨more, rfl, rest⟩ | ⟨more, rfl, rest⟩
  · rcases others with member | leads'
    · exact List.mem_append_left _ member
    · exact List.mem_append_right _ (leads' more e after rest later)
  · cases more with
    | nil =>
      rcases others with member | leads'
      · simpa using member
      · exact absurd (leads' [] e after (by simpa using rest.symm) later) (by simp)
    | cons first more =>
      obtain ⟨rfl, _⟩ := List.cons.inj rest
      exact leads before e more rfl later

end Leads

/-- The list holds the intervals of `S` that overlap `j`, each in front of what starts later. -/
structure Carries (start finish : α → τ) (S : Set α) (j : α) (xs : List α) : Prop where
  only : ∀ a ∈ xs, a ∈ S ∧ Overlaps start finish a j
  all : ∀ k ∈ S, Overlaps start finish k j → k ∈ xs
  leads : ∀ k ∈ S, Overlaps start finish k j → Leads start k xs

section Carries

variable {S : Set α} {i j : α} {xs table : List α}

/-- A scan of a list and a sorted table behind it, where what overlaps leads in the list. -/
theorem carries_scan (sorted : table.Pairwise fun a b => start a ≤ start b)
    (within : ∀ a ∈ xs ++ table, a ∈ S)
    (leads : ∀ k ∈ S, Overlaps start finish k i → Leads start k xs)
    (known : ∀ k ∈ S, Overlaps start finish k i → k ∈ xs ∨ k ∈ table) :
    Carries start finish S i
      (scan start finish (start i) (finish i) xs ++
        scan start finish (start i) (finish i) table) where
  only a member := by
    rcases List.mem_append.mp member with member | member
    · obtain ⟨listed, lasts, starts⟩ := mem_of_mem_scan member
      exact ⟨within a (List.mem_append_left _ listed), starts, lasts⟩
    · obtain ⟨listed, lasts, starts⟩ := mem_of_mem_scan member
      exact ⟨within a (List.mem_append_right _ listed), starts, lasts⟩
  all k among overlaps := by
    rcases known k among overlaps with member | member
    · exact List.mem_append_left _
        ((leads k among overlaps).mem_scan member overlaps.2 overlaps.1)
    · exact List.mem_append_right _
        ((leads_of_sorted sorted member).mem_scan member overlaps.2 overlaps.1)
  leads k among overlaps := by
    refine ((leads k among overlaps).scan overlaps.2).append ?_
    rcases known k among overlaps with member | member
    · exact Or.inl ((leads k among overlaps).mem_scan member overlaps.2 overlaps.1)
    · exact Or.inr ((leads_of_sorted sorted member).scan overlaps.2)

/-- What has been collected for an earlier interval is enough, if what overlaps the later one
overlaps the earlier one or is in the table. -/
theorem Carries.refresh (carries : Carries start finish S j xs) (later : start j ≤ start i)
    (sorted : table.Pairwise fun a b => start a ≤ start b) (within : ∀ a ∈ table, a ∈ S)
    (known : ∀ k ∈ S, Overlaps start finish k i → Overlaps start finish k j ∨ k ∈ table) :
    Carries start finish S i
      (scan start finish (start i) (finish i) xs ++
        scan start finish (start i) (finish i) table) := by
  refine carries_scan sorted (fun a member => ?_) (fun k among overlaps => ?_)
    fun k among overlaps => (known k among overlaps).imp_left (carries.all k among)
  · exact (List.mem_append.mp member).elim (fun old => (carries.only a old).1) (within a)
  -- What starts later than `k` and is in the list overlaps `j`, and so does `k` then.
  intro before e after split behind
  have listed : e ∈ xs := by simp [split]
  have both : Overlaps start finish k j :=
    ⟨behind.trans (carries.only e listed).2.1, lt_of_le_of_lt later overlaps.2⟩
  exact carries.leads k among both before e after split behind

end Carries

end Qbt.IntervalScan
