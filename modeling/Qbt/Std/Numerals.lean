import Mathlib.Data.Nat.Digits.Defs

/-!
# Numerals

Digits with their values, and `strtoll` of the C library: it skips blanks and reads a sign
and the digits of its base as far as they go. Base 0 is 16 behind `0x`, 8 behind another
`0` and 10 otherwise. The result saturates at the limits of `long long`.
-/

namespace Qbt.Numerals

/-- The value of a digit. Letters are digits from ten on. -/
def digitValue (c : Char) : Option Nat :=
  if c.isDigit then some (c.toNat - '0'.toNat)
  else if c.isLower then some (c.toNat - 'a'.toNat + 10)
  else if c.isUpper then some (c.toNat - 'A'.toNat + 10)
  else none

/-- The values of the digits of a text. -/
def digitsOf (text : List Char) : List Nat := text.filterMap digitValue

/-- The value of digits, the last of which counts once. -/
def value (radix : Nat) (digits : List Nat) : Nat := Nat.ofDigits radix digits.reverse

/-- A number with its sign. -/
def signed (negative : Bool) (n : Nat) : Int := if negative then -n else n

/-- `LLONG_MIN`. -/
def llongMin : Int := -2 ^ 63

/-- `LLONG_MAX`. -/
def llongMax : Int := 2 ^ 63 - 1

/-- The number is a `long long`. -/
def InRange (v : Int) : Prop := llongMin ≤ v ∧ v ≤ llongMax

instance (v : Int) : Decidable (InRange v) :=
  inferInstanceAs (Decidable (llongMin ≤ v ∧ v ≤ llongMax))

/-- The `long long` next to a number. -/
def saturate (v : Int) : Int := max llongMin (min v llongMax)

/-- `isspace`. -/
def isSpace (c : Char) : Bool := c ∈ [' ', '\t', '\n', '\x0b', '\x0c', '\r']

/-- The character is a digit of the base. -/
def isDigitOf (base : Nat) (c : Char) : Bool := (digitValue c).any (· < base)

/-- The digits of the base the text starts with. -/
def leading (base : Nat) (text : List Char) : List Nat :=
  digitsOf (text.takeWhile (isDigitOf base))

/-- The text starts with `0x` and a digit. -/
def hexPrefixed : List Char → Bool
  | '0' :: x :: c :: _ => (x = 'x' ∨ x = 'X') && isDigitOf 16 c
  | _ => false

/-- The base that is used and the text behind its prefix. -/
def subject (base : Nat) (text : List Char) : Nat × List Char :=
  if (base = 0 ∨ base = 16) ∧ hexPrefixed text then (16, text.drop 2)
  else if base = 0 then (if text.head? = some '0' then 8 else 10, text)
  else (base, text)

/-- The number behind the sign. -/
def magnitude (base : Nat) (text : List Char) : Nat :=
  value (subject base text).1 (leading (subject base text).1 (subject base text).2)

/-- `strtoll`. -/
def strtoll (text : List Char) (base : Nat) : Int :=
  match text.dropWhile isSpace with
  | '-' :: rest => saturate (signed true (magnitude base rest))
  | '+' :: rest => saturate (signed false (magnitude base rest))
  | rest => saturate (signed false (magnitude base rest))

private theorem value_nil (radix : Nat) : value radix [] = 0 := rfl

private theorem value_cons (radix d : Nat) (ds : List Nat) :
    value radix (d :: ds) = value radix ds + radix ^ ds.length * d :=
  Nat.ofDigits_reverse_cons ds d

/-- Zeros have no value. -/
theorem value_eq_zero_iff {radix : Nat} (positive : 0 < radix) {ds : List Nat} :
    value radix ds = 0 ↔ ∀ d ∈ ds, d = 0 := by
  induction ds with
  | nil => simp [value_nil]
  | cons d ds ih =>
    have power : radix ^ ds.length ≠ 0 := (Nat.pow_pos positive).ne'
    rw [value_cons, Nat.add_eq_zero_iff, ih, Nat.mul_eq_zero, List.forall_mem_cons]
    tauto

/-- All characters of a text are digits of some base. -/
def AllDigits (text : List Char) : Prop := ∀ c ∈ text, (digitValue c).isSome

/-- Part of a number is read as the whole if it is the whole, and no limit is exceeded. -/
theorem saturate_signed_eq_iff {negative : Bool} {n m : Nat} (le : n ≤ m) :
    saturate (signed negative n) = signed negative m ↔ n = m ∧ InRange (signed negative m) := by
  cases negative <;> simp only [saturate, signed, InRange, llongMin, llongMax] <;> simp <;> omega

section Leading

variable {base : Nat}

/-- Digits of a base are characters with a value below it. -/
theorem isDigitOf_iff {c : Char} :
    isDigitOf base c = true ↔ ∃ d < base, digitValue c = some d := by
  cases digit : digitValue c <;> simp [isDigitOf, digit]

private theorem leading_cons_of_lt {c : Char} {d : Nat} (digit : digitValue c = some d)
    (small : d < base) (text : List Char) : leading base (c :: text) = d :: leading base text := by
  have isDigit : isDigitOf base c := isDigitOf_iff.mpr ⟨d, small, digit⟩
  simp [leading, digitsOf, isDigit, digit]

private theorem leading_cons_of_not {c : Char} (other : isDigitOf base c = false)
    (text : List Char) : leading base (c :: text) = [] := by
  simp [leading, digitsOf, other]

/-- Digits of the base are read up to the end. -/
theorem leading_of_small {text : List Char} (digits : AllDigits text)
    (small : ∀ d ∈ digitsOf text, d < base) : leading base text = digitsOf text := by
  induction text with
  | nil => rfl
  | cons c rest ih =>
    obtain ⟨d, digit⟩ := Option.isSome_iff_exists.mp (digits c List.mem_cons_self)
    have all : digitsOf (c :: rest) = d :: digitsOf rest := by simp [digitsOf, digit]
    rw [all] at small ⊢
    rw [leading_cons_of_lt digit (small d List.mem_cons_self), ih
      (fun c' member => digits c' (List.mem_cons_of_mem _ member))
      (fun d' member => small d' (List.mem_cons_of_mem _ member))]

/-- Up to another digit less is read than there is. -/
theorem value_leading_lt (positive : 0 < base) {text : List Char} (digits : AllDigits text)
    (large : ¬ ∀ d ∈ digitsOf text, d < base) :
    value base (leading base text) < value base (digitsOf text) := by
  induction text with
  | nil => exact absurd (by simp [digitsOf]) large
  | cons c rest ih =>
    obtain ⟨d, digit⟩ := Option.isSome_iff_exists.mp (digits c List.mem_cons_self)
    have all : digitsOf (c :: rest) = d :: digitsOf rest := by simp [digitsOf, digit]
    rw [all, value_cons]
    by_cases small : d < base
    · have less := ih (fun c' member => digits c' (List.mem_cons_of_mem _ member)) (by
        intro rest
        exact large (all ▸ List.forall_mem_cons.mpr ⟨small, rest⟩))
      rw [leading_cons_of_lt digit small, value_cons]
      have shorter : (leading base rest).length ≤ (digitsOf rest).length :=
        ((List.takeWhile_sublist _).filterMap _).length_le
      exact Nat.add_lt_add_of_lt_of_le less
        (Nat.mul_le_mul_right d (Nat.pow_le_pow_right positive shorter))
    · have stops : isDigitOf base c = false := by simpa [isDigitOf, digit] using small
      rw [leading_cons_of_not stops, value_nil]
      have counts : 0 < base ^ (digitsOf rest).length * d :=
        Nat.mul_pos (Nat.pow_pos positive) (by omega)
      omega

/-- What follows the digits is not read. -/
theorem leading_append {tail : List Char} (stops : ∀ c ∈ tail.head?, isDigitOf base c = false)
    (text : List Char) : leading base (text ++ tail) = leading base text := by
  induction text with
  | nil =>
    cases tail with
    | nil => rfl
    | cons c rest => exact leading_cons_of_not (stops c rfl) rest
  | cons c rest ih =>
    by_cases isDigit : isDigitOf base c
    · obtain ⟨d, small, digit⟩ := isDigitOf_iff.mp isDigit
      rw [List.cons_append, leading_cons_of_lt digit small, leading_cons_of_lt digit small, ih]
    · have other : isDigitOf base c = false := by simpa using isDigit
      rw [List.cons_append, leading_cons_of_not other, leading_cons_of_not other]

/-- Digits are read in full if and only if all of them are digits of the base and the
number is in range. -/
theorem read_iff (positive : 0 < base) {text tail : List Char} (digits : AllDigits text)
    (stops : ∀ c ∈ tail.head?, isDigitOf base c = false) (negative : Bool) :
    saturate (signed negative (value base (leading base (text ++ tail)))) =
        signed negative (value base (digitsOf text)) ↔
      (∀ d ∈ digitsOf text, d < base) ∧ InRange (signed negative (value base (digitsOf text))) := by
  rw [leading_append stops]
  by_cases small : ∀ d ∈ digitsOf text, d < base
  · rw [leading_of_small digits small, saturate_signed_eq_iff (Nat.le_refl _)]
    tauto
  · have less := value_leading_lt positive digits small
    rw [saturate_signed_eq_iff less.le]
    exact iff_of_false (fun same => less.ne same.1) fun fits => small fits.1

/-- The same of a text that ends with the digits. -/
theorem read_all_iff (positive : 0 < base) {text : List Char} (digits : AllDigits text)
    (negative : Bool) :
    saturate (signed negative (value base (leading base text))) =
        signed negative (value base (digitsOf text)) ↔
      (∀ d ∈ digitsOf text, d < base) ∧ InRange (signed negative (value base (digitsOf text))) := by
  have none : ∀ c ∈ ([] : List Char).head?, isDigitOf base c = false := by simp
  have read := read_iff positive digits none negative
  rwa [List.append_nil] at read

end Leading

/-- A text without an `x` has no prefix. -/
theorem hexPrefixed_of_unmarked {text : List Char} (unmarked : ∀ c ∈ text, c ≠ 'x' ∧ c ≠ 'X') :
    hexPrefixed text = false := by
  unfold hexPrefixed
  split
  · rename_i x c rest
    have other := unmarked x (by simp)
    simp [other.1, other.2]
  · rfl

/-- A base that is given is used for a text without a prefix. -/
theorem magnitude_of_unmarked {base : Nat} {text : List Char} (given : base ≠ 0)
    (unmarked : ∀ c ∈ text, c ≠ 'x' ∧ c ≠ 'X') :
    magnitude base text = value base (leading base text) := by
  simp [magnitude, subject, hexPrefixed_of_unmarked unmarked, given]

/-- Without a prefix `0x` base 0 is 8 or 10. -/
theorem magnitude_zero_of_unmarked {text : List Char} (unmarked : hexPrefixed text = false) :
    magnitude 0 text = value (if text.head? = some '0' then 8 else 10)
      (leading (if text.head? = some '0' then 8 else 10) text) := by
  simp [magnitude, subject, unmarked]

/-- Base 0 is 16 behind `0x`. -/
theorem magnitude_zero_of_marked {text : List Char} (marked : hexPrefixed text = true) :
    magnitude 0 text = value 16 (leading 16 (text.drop 2)) := by
  simp [magnitude, subject, marked]

/-- A check of every character of a list. -/
theorem forall_mem_of_all {cs : List Char} {p : Char → Prop} [DecidablePred p]
    (all : cs.all (fun c => decide (p c)) = true) : ∀ c ∈ cs, p c :=
  fun c member => of_decide_eq_true (List.all_eq_true.mp all c member)

/-- A digit is neither a blank nor a sign. -/
theorem plain_of_digit {c : Char} (digit : (digitValue c).isSome) :
    isSpace c = false ∧ c ≠ '-' ∧ c ≠ '+' := by
  refine ⟨?_, ?_, ?_⟩
  · rw [Bool.eq_false_iff]
    intro blank
    have member : c ∈ [' ', '\t', '\n', '\x0b', '\x0c', '\r'] := of_decide_eq_true blank
    have none : ∀ b ∈ [' ', '\t', '\n', '\x0b', '\x0c', '\r'], digitValue b = none :=
      forall_mem_of_all (by decide)
    rw [none c member] at digit
    cases digit
  · rintro rfl
    exact absurd digit (by decide)
  · rintro rfl
    exact absurd digit (by decide)

theorem strtoll_negative (rest : List Char) (base : Nat) :
    strtoll ('-' :: rest) base = saturate (signed true (magnitude base rest)) := rfl

/-- A text that starts with a digit has no sign. -/
theorem strtoll_digit {c : Char} (digit : (digitValue c).isSome) (rest : List Char) (base : Nat) :
    strtoll (c :: rest) base = saturate (signed false (magnitude base (c :: rest))) := by
  obtain ⟨notBlank, notMinus, notPlus⟩ := plain_of_digit digit
  unfold strtoll
  rw [List.dropWhile_cons, notBlank]
  split
  · rename_i same
    cases same
    exact absurd rfl notMinus
  · rename_i same
    cases same
    exact absurd rfl notPlus
  · rfl

end Qbt.Numerals
