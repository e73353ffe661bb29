import Mathlib.Data.List.Basic

/-!
# Phrases and readers

A phrase of a grammar is a relation between a text, what the phrase at its start stands for,
and the text behind the phrase. A reader decides a phrase where it finds exactly that, given
that the text behind the phrase is one that may follow it. Phrases that are decided are
unambiguous.

Lists with separators, which may end with one, and lists that may be left out are decided by
readers that are built from those of their elements. Phrases one behind another are the same
list whether a grammar builds it from the left or from the right.
-/

namespace Qbt.Phrases

variable {τ α : Type}

/-- The text starts with a phrase for the value, and the rest is behind it. -/
abbrev Phrase (τ α : Type) := List τ → α → List τ → Prop

/-- A value off the start of a text, and the text behind it. -/
abbrev Reader (τ α : Type) := List τ → Option (α × List τ)

/-- What is read are the phrases. -/
structure Decides (read : Reader τ α) (phrase : Phrase τ α) (follow : List τ → Prop) : Prop where
  sound : ∀ {text v rest}, read text = some (v, rest) → phrase text v rest
  complete : ∀ {text v rest}, phrase text v rest → follow rest → read text = some (v, rest)

/-- Elements with a separator between them, and perhaps another one at the end. -/
inductive Separated (comma : τ) (element : Phrase τ α) : Phrase τ (List α) where
  | cons {text middle rest : List τ} {v : α} {vs : List α}
      (first : element text v (comma :: middle)) (others : Separated comma element middle vs rest) :
      Separated comma element text (v :: vs) rest
  | trailing {text rest : List τ} {v : α} (last : element text v (comma :: rest)) :
      Separated comma element text [v] rest
  | last {text rest : List τ} {v : α} (last : element text v rest) :
      Separated comma element text [v] rest

/-- A list, or nothing. -/
inductive Optional (phrase : Phrase τ (List α)) : Phrase τ (List α) where
  | some {text rest : List τ} {vs : List α} (present : phrase text vs rest) :
      Optional phrase text vs rest
  | none {text : List τ} : Optional phrase text [] text

/-- Phrases one behind another. -/
inductive Repeated (element : Phrase τ α) : Phrase τ (List α) where
  | nil {text : List τ} : Repeated element text [] text
  | cons {text middle rest : List τ} {v : α} {vs : List α} (first : element text v middle)
      (others : Repeated element middle vs rest) : Repeated element text (v :: vs) rest

/-- A phrase with a token in front of it. -/
inductive Behind (t : τ) (phrase : Phrase τ α) : Phrase τ α where
  | behind {text rest : List τ} {v : α} (inside : phrase text v rest) :
      Behind t phrase (t :: text) v rest

section Repetition

variable {element : Phrase τ α}

/-- One more phrase at the end. -/
theorem Repeated.snoc {text middle rest : List τ} {v : α} {vs : List α}
    (repeated : Repeated element text vs middle) (last : element middle v rest) :
    Repeated element text (vs ++ [v]) rest := by
  induction repeated with
  | nil => exact .cons last .nil
  | cons first _ ih => exact .cons first (ih last)

/-- A list that grows at its end takes in all the phrases behind it. -/
theorem Repeated.onto (list : List α → List τ → Prop)
    (grow : ∀ {vs v middle rest}, list vs middle → element middle v rest → list (vs ++ [v]) rest)
    {middle rest : List τ} {vs ws : List α} (start : list vs middle)
    (repeated : Repeated element middle ws rest) : list (vs ++ ws) rest := by
  induction repeated generalizing vs with
  | nil => rwa [List.append_nil]
  | cons first _ ih => simpa using ih (grow start first)

/-- Repeating what makes no text longer makes none longer. -/
theorem Repeated.length_le (noLonger : ∀ {text v rest}, element text v rest →
    rest.length ≤ text.length) {text rest : List τ} {vs : List α}
    (repeated : Repeated element text vs rest) : rest.length ≤ text.length := by
  induction repeated with
  | nil => exact Nat.le_refl _
  | cons first _ ih => exact Nat.le_trans ih (noLonger first)

end Repetition

variable [DecidableEq τ]

/-- Read at most some number of elements. -/
def readUpTo (comma : τ) (read : Reader τ α) : Nat → Reader τ (List α)
  | 0, _ => none
  | fuel + 1, text =>
    match read text with
    | none => none
    | some (v, rest) =>
      match rest with
      | [] => some ([v], [])
      | t :: behind =>
        if t = comma then
          match readUpTo comma read fuel behind with
          | none => some ([v], behind)
          | some (vs, rest) => some (v :: vs, rest)
        else some ([v], t :: behind)

/-- Read a list with separators. -/
def readSeparated (comma : τ) (read : Reader τ α) : Reader τ (List α) :=
  fun text => readUpTo comma read text.length text

/-- Read a list that may be left out. -/
def readOptional (read : Reader τ (List α)) : Reader τ (List α) :=
  fun text => some ((read text).getD ([], text))

section Decided

variable {read : Reader τ α} {phrase : Phrase τ α} {follow : List τ → Prop}

omit [DecidableEq τ] in
/-- A list is no shorter than what is behind it. -/
theorem Optional.length_le {comma : τ}
    (shrinks : ∀ {text v rest}, phrase text v rest → rest.length < text.length)
    {text rest : List τ} {vs : List α} (optional : Optional (Separated comma phrase) text vs rest) :
    rest.length ≤ text.length := by
  cases optional with
  | none => exact Nat.le_refl _
  | some separated =>
    induction separated with
    | cons first _ ih =>
      have shorter := shrinks first
      rw [List.length_cons] at shorter
      omega
    | trailing last =>
      have shorter := shrinks last
      rw [List.length_cons] at shorter
      omega
    | last last => exact Nat.le_of_lt (shrinks last)

/-- What may follow a list: an element may end there, and no element and no separator may
start there. -/
structure Closes (comma : τ) (read : Reader τ α) (elementFollow follow : List τ → Prop) : Prop where
  inside : ∀ text, elementFollow (comma :: text)
  ends : ∀ {rest}, follow rest → elementFollow rest
  noComma : ∀ {rest}, follow rest → rest.head? ≠ some comma
  noElement : ∀ {rest}, follow rest → read rest = none

private theorem readUpTo_sound {comma : τ} (sound : ∀ {text v rest}, read text = some (v, rest) →
    phrase text v rest) {fuel : Nat} {text rest : List τ} {vs : List α}
    (returned : readUpTo comma read fuel text = some (vs, rest)) :
    Separated comma phrase text vs rest := by
  induction fuel generalizing text vs with
  | zero => simp [readUpTo] at returned
  | succ fuel ih =>
    unfold readUpTo at returned
    split at returned
    · cases returned
    · rename_i v behind element
      split at returned
      · cases returned
        exact .last (sound element)
      · split at returned
        · rename_i t behind isComma
          subst isComma
          split at returned
          · cases returned
            exact .trailing (sound element)
          · rename_i ws rest' others
            cases returned
            exact .cons (sound element) (ih others)
        · cases returned
          exact .last (sound element)

private theorem readUpTo_complete {comma : τ} {elementFollow : List τ → Prop}
    (decides : Decides read phrase elementFollow)
    (shrinks : ∀ {text v rest}, phrase text v rest → rest.length < text.length)
    (closes : Closes comma read elementFollow follow) {fuel : Nat} {text rest : List τ}
    {vs : List α} (separated : Separated comma phrase text vs rest) (follows : follow rest)
    (enough : text.length ≤ fuel) : readUpTo comma read fuel text = some (vs, rest) := by
  have positive : ∀ {text v rest}, phrase text v rest → ∀ {fuel}, text.length ≤ fuel →
      ∃ fuel', fuel = fuel' + 1 ∧ rest.length ≤ fuel' := by
    intro text v rest element fuel enough
    have shorter := shrinks element
    exact ⟨fuel - 1, by omega, by omega⟩
  induction separated generalizing fuel with
  | cons first _ ih =>
    obtain ⟨fuel, rfl, shorter⟩ := positive first enough
    rw [List.length_cons] at shorter
    simp only [readUpTo, decides.complete first (closes.inside _), if_true,
      ih follows (Nat.le_of_succ_le shorter)]
  | @trailing text rest v last =>
    obtain ⟨fuel, rfl, -⟩ := positive last enough
    have nothing : readUpTo comma read fuel rest = none := by
      cases fuel with
      | zero => rfl
      | succ fuel => simp only [readUpTo, closes.noElement follows]
    simp only [readUpTo, decides.complete last (closes.inside _), if_true, nothing]
  | @last text rest v last =>
    obtain ⟨fuel, rfl, -⟩ := positive last enough
    simp only [readUpTo, decides.complete last (closes.ends follows)]
    cases rest with
    | nil => rfl
    | cons t rest =>
      have other : t ≠ comma := fun same => closes.noComma follows (same ▸ rfl)
      simp only [if_neg other]

/-- Lists with separators are decided where their elements are. -/
theorem Decides.separated {comma : τ} {elementFollow : List τ → Prop}
    (decides : Decides read phrase elementFollow)
    (shrinks : ∀ {text v rest}, phrase text v rest → rest.length < text.length)
    (closes : Closes comma read elementFollow follow) :
    Decides (readSeparated comma read) (Separated comma phrase) follow where
  sound := readUpTo_sound decides.sound
  complete separated follows :=
    readUpTo_complete decides shrinks closes separated follows (Nat.le_refl _)

omit [DecidableEq τ] in
/-- Lists that may be left out are decided where the lists are, and none starts with what
may follow. -/
theorem Decides.optional {read : Reader τ (List α)} {phrase : Phrase τ (List α)}
    (decides : Decides read phrase follow) (rejects : ∀ {rest}, follow rest → read rest = none) :
    Decides (readOptional read) (Optional phrase) follow where
  sound := by
    intro text vs rest returned
    rw [readOptional, Option.some.injEq] at returned
    cases present : read text with
    | none =>
      rw [present, Option.getD_none] at returned
      cases returned
      exact .none
    | some found =>
      rw [present, Option.getD_some] at returned
      subst returned
      exact .some (decides.sound present)
  complete := by
    intro text vs rest optional follows
    cases optional with
    | some present => rw [readOptional, decides.complete present follows, Option.getD_some]
    | none => rw [readOptional, rejects follows, Option.getD_none]

/-- Nothing is read where there is no first element. -/
theorem readSeparated_eq_none {comma : τ} {text : List τ} (noElement : read text = none) :
    readSeparated comma read text = none := by
  cases text with
  | nil => rfl
  | cons t text => simp only [readSeparated, List.length_cons, readUpTo, noElement]

end Decided

end Qbt.Phrases
