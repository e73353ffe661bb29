import Mathlib.Computability.RegularExpressions
import Qbt.Std.Numerals

/-!
# Numerals in `lexer.l`

The rules that turn digits into the integer of a token, in the order of the file. A lexeme is
what the longest match takes from the input, and the first rule whose pattern matches it is
the one that acts. No other rule of the file precedes them with a match of such a lexeme.

The radix of a numeral is announced by what it starts with. `scan_iff` says which numerals are
read as they are written.
-/

namespace Qbt.Frontend

open Numerals

namespace Pattern

/-- `[a-b]`. -/
def chars (a b : Char) : List Char :=
  (List.range' a.toNat (b.toNat + 1 - a.toNat)).map Char.ofNat

/-- One of some characters. -/
def oneOf (cs : List Char) : RegularExpression Char := (cs.map .char).sum

/-- The given characters one after the other. -/
def literal (cs : List Char) : RegularExpression Char := (cs.map .char).prod

/-- `P+`. -/
def many (P : RegularExpression Char) : RegularExpression Char := P * P.star

/-- `[0-9a-fA-F]`. -/
def hexDigits : List Char := chars '0' '9' ++ chars 'a' 'f' ++ chars 'A' 'F'

/-- `[0-9]`. -/
def decDigits : List Char := chars '0' '9'

/-- `[0-8]`. -/
def octDigits : List Char := chars '0' '8'

/-- `[0-1]`. -/
def binDigits : List Char := chars '0' '1'

/-- `HEX`. -/
def hex : RegularExpression Char := literal ['0'] * oneOf ['x', 'X'] * many (oneOf hexDigits)

/-- `DEC`. -/
def dec : RegularExpression Char := (literal ['-'] + 1) * many (oneOf decDigits)

/-- `OCT`. -/
def oct : RegularExpression Char := literal ['0'] * many (oneOf octDigits)

/-- `BIN`. -/
def bin : RegularExpression Char := literal ['0', 'b'] * many (oneOf binDigits)

/-- `INT`. -/
def int : RegularExpression Char := hex + dec + oct + bin

/-- A character constant that is given by digits behind a prefix. -/
def constant (start digits : List Char) : RegularExpression Char :=
  literal start * many (oneOf digits) * literal ['\'']

/-- The pattern of a hex character constant. -/
def hexConstant : RegularExpression Char := constant ['\'', '\\', 'x'] hexDigits

/-- The pattern of an octal character constant. -/
def octConstant : RegularExpression Char := constant ['\'', '\\'] octDigits

/-- The pattern of a binary character constant. -/
def binConstant : RegularExpression Char := constant ['\'', '\\', 'b'] binDigits

variable {x : List Char}

/-- A set matches each of its characters. -/
theorem mem_oneOf {cs : List Char} : x ∈ (oneOf cs).matches' ↔ ∃ c ∈ cs, x = [c] := by
  induction cs with
  | nil => simp [oneOf, Language.notMem_zero]
  | cons c cs ih =>
    have unfolded : (oneOf (c :: cs)).matches' = {[c]} + (oneOf cs).matches' := rfl
    rw [unfolded, Language.mem_add, ih, List.exists_mem_cons_iff]
    rfl

/-- A literal matches itself. -/
theorem mem_literal {cs : List Char} : x ∈ (literal cs).matches' ↔ x = cs := by
  induction cs generalizing x with
  | nil => simp [literal]
  | cons c cs ih =>
    have unfolded : (literal (c :: cs)).matches' = {[c]} * (literal cs).matches' := rfl
    rw [unfolded, Language.mem_mul]
    constructor
    · rintro ⟨_, rfl, b, member, rfl⟩
      rw [ih.mp member]
      rfl
    · rintro rfl
      exact ⟨[c], rfl, cs, ih.mpr rfl, rfl⟩

/-- Some digits, but at least one. -/
def Digits (cs x : List Char) : Prop := x ≠ [] ∧ ∀ c ∈ x, c ∈ cs

/-- A repeated set matches its nonempty words. -/
theorem mem_many {cs : List Char} : x ∈ (many (oneOf cs)).matches' ↔ Digits cs x := by
  have unfolded : (many (oneOf cs)).matches' =
      (oneOf cs).matches' * KStar.kstar (oneOf cs).matches' := rfl
  rw [unfolded, Language.mem_mul]
  constructor
  · rintro ⟨_, first, _, rest, rfl⟩
    obtain ⟨c, listed, rfl⟩ := mem_oneOf.mp first
    obtain ⟨pieces, rfl, each⟩ := Language.mem_kstar.mp rest
    refine ⟨by simp, List.forall_mem_cons.mpr ⟨listed, fun d member => ?_⟩⟩
    obtain ⟨piece, among, member⟩ := List.mem_flatten.mp member
    obtain ⟨e, listed', rfl⟩ := mem_oneOf.mp (each piece among)
    rwa [List.mem_singleton.mp member]
  · rintro ⟨some, listed⟩
    obtain ⟨c, rest, rfl⟩ := List.exists_cons_of_ne_nil some
    refine ⟨[c], mem_oneOf.mpr ⟨c, listed c List.mem_cons_self, rfl⟩, rest, ?_, rfl⟩
    refine Language.mem_kstar.mpr ⟨rest.map ([·]), ?_, fun piece among => ?_⟩
    · rw [← List.flatMap_def, List.flatMap_singleton']
    · obtain ⟨d, member, rfl⟩ := List.mem_map.mp among
      exact mem_oneOf.mpr ⟨d, listed d (List.mem_cons_of_mem _ member), rfl⟩

/-- Hexadecimal numerals are `0x` or `0X` and hexadecimal digits. -/
theorem mem_hex : x ∈ hex.matches' ↔
    ∃ c d, (c = 'x' ∨ c = 'X') ∧ Digits hexDigits d ∧ x = '0' :: c :: d := by
  have unfolded : hex.matches' =
      (literal ['0']).matches' * (oneOf ['x', 'X']).matches' * (many (oneOf hexDigits)).matches' :=
    rfl
  simp only [unfolded, Language.mem_mul, mem_literal, mem_oneOf, mem_many]
  constructor
  · rintro ⟨_, ⟨_, rfl, _, ⟨c, listed, rfl⟩, rfl⟩, d, digits, rfl⟩
    exact ⟨c, d, by simpa using listed, digits, rfl⟩
  · rintro ⟨c, d, either, digits, rfl⟩
    exact ⟨['0', c], ⟨['0'], rfl, [c], ⟨c, by simpa using either, rfl⟩, rfl⟩, d, digits, rfl⟩

/-- Decimal numerals are decimal digits, with or without a sign. -/
theorem mem_dec : x ∈ dec.matches' ↔
    ∃ d, Digits decDigits d ∧ (x = '-' :: d ∨ x = d) := by
  have unfolded : dec.matches' =
      ((literal ['-']).matches' + 1) * (many (oneOf decDigits)).matches' := rfl
  simp only [unfolded, Language.mem_mul, Language.mem_add, Language.mem_one, mem_literal, mem_many]
  constructor
  · rintro ⟨_, rfl | rfl, d, digits, rfl⟩
    · exact ⟨d, digits, Or.inl rfl⟩
    · exact ⟨d, digits, Or.inr rfl⟩
  · rintro ⟨d, digits, rfl | rfl⟩
    · exact ⟨['-'], Or.inl rfl, d, digits, rfl⟩
    · exact ⟨[], Or.inr rfl, x, digits, rfl⟩

/-- What is behind a fixed start. -/
theorem mem_behind {start cs : List Char} :
    x ∈ (literal start * many (oneOf cs)).matches' ↔ ∃ d, Digits cs d ∧ x = start ++ d := by
  rw [RegularExpression.matches'_mul]
  simp only [Language.mem_mul, mem_literal, mem_many]
  constructor
  · rintro ⟨_, rfl, d, digits, rfl⟩
    exact ⟨d, digits, rfl⟩
  · rintro ⟨d, digits, rfl⟩
    exact ⟨start, rfl, d, digits, rfl⟩

/-- A numeric constant is its digits between the start and a quote. -/
theorem mem_constant {start cs : List Char} :
    x ∈ (constant start cs).matches' ↔ ∃ d, Digits cs d ∧ x = start ++ (d ++ ['\'']) := by
  rw [constant, RegularExpression.matches'_mul]
  simp only [Language.mem_mul, mem_behind, mem_literal]
  constructor
  · rintro ⟨_, ⟨d, digits, rfl⟩, _, rfl, rfl⟩
    exact ⟨d, digits, List.append_assoc ..⟩
  · rintro ⟨d, digits, rfl⟩
    exact ⟨start ++ d, ⟨d, digits, rfl⟩, _, rfl, List.append_assoc ..⟩

/-- A numeral is of one of the four kinds. -/
theorem mem_int : x ∈ int.matches' ↔
    x ∈ hex.matches' ∨ x ∈ dec.matches' ∨ x ∈ oct.matches' ∨ x ∈ bin.matches' := by
  have unfolded : int.matches' = hex.matches' + dec.matches' + oct.matches' + bin.matches' := rfl
  rw [unfolded, Language.mem_add, Language.mem_add, Language.mem_add, or_assoc, or_assoc]

/-- All digits of the patterns are hexadecimal ones. -/
theorem digits_subset : decDigits ⊆ hexDigits ∧ octDigits ⊆ hexDigits ∧ binDigits ⊆ hexDigits := by
  decide

private theorem digit_of_hexDigits : ∀ c ∈ hexDigits, isDigitOf 16 c ∧ c ≠ 'x' ∧ c ≠ 'X' :=
  forall_mem_of_all (by decide)

/-- Digits of any base are digits of base 16. -/
theorem Digits.allDigits {cs : List Char} (subset : cs ⊆ hexDigits) (digits : Digits cs x) :
    AllDigits x := by
  intro c member
  obtain ⟨d, _, digit⟩ := isDigitOf_iff.mp (digit_of_hexDigits c (subset (digits.2 c member))).1
  rw [digit]
  rfl

end Pattern

open Pattern

/-- What an action changes: the integer of the token, and the flag of the parser that tells
of an error. -/
structure Scanner where
  integer : Int
  failed : Bool
deriving DecidableEq, Repr

/-- A pattern with the action for what it matches. -/
structure Rule where
  pattern : RegularExpression Char
  action : List Char → Scanner → Scanner

/-- `yylval->integer = strtoll(yytext + skip, NULL, base)`. -/
def readInteger (skip base : Nat) (yytext : List Char) (s : Scanner) : Scanner :=
  { s with integer := strtoll (yytext.drop skip) base }

/-- The rules for numerals. -/
def numeralRules : List Rule :=
  [⟨hexConstant, readInteger 3 16⟩, ⟨octConstant, readInteger 2 8⟩,
    ⟨binConstant, readInteger 3 2⟩, ⟨int, readInteger 0 0⟩]

/-- A rule matches the text. -/
def Numeral (yytext : List Char) : Prop :=
  ∃ rule ∈ numeralRules, yytext ∈ rule.pattern.matches'

/-- The action of the first rule that matches the lexeme. -/
def scan (yytext : List Char) (s : Scanner) : Option Scanner :=
  (numeralRules.find? fun rule => yytext ∈ rule.pattern.matches').map
    fun rule => rule.action yytext s

/-- The radix that is announced by what a numeral starts with, and the digits. -/
def announced : List Char → Nat × List Char
  | '0' :: 'x' :: digits => (16, digits)
  | '0' :: 'X' :: digits => (16, digits)
  | '0' :: 'b' :: digits => (2, digits)
  | '0' :: digits => (8, '0' :: digits)
  | digits => (10, digits)

/-- The parts of a numeral. -/
structure Written where
  negative : Bool
  radix : Nat
  digits : List Char
deriving DecidableEq, Repr

/-- What is written in a lexeme. A character constant ends with a quote. -/
def written : List Char → Written
  | '-' :: text => ⟨true, (announced text).1, (announced text).2⟩
  | '\'' :: '\\' :: 'x' :: text => ⟨false, 16, text.dropLast⟩
  | '\'' :: '\\' :: 'b' :: text => ⟨false, 2, text.dropLast⟩
  | '\'' :: '\\' :: text => ⟨false, 8, text.dropLast⟩
  | text => ⟨false, (announced text).1, (announced text).2⟩

/-- The value of all digits in the announced radix, with the sign. -/
def Written.meaning (w : Written) : Int := signed w.negative (value w.radix (digitsOf w.digits))

/-- The integer is what is written, or an error is reported. -/
def Scanner.Reads (s : Scanner) (yytext : List Char) : Prop :=
  s.failed = true ∨ s.integer = (written yytext).meaning

/-- The digits are digits of the announced radix, the number is a `long long`, and the value
behind `0b` is zero. -/
structure Fits (yytext : List Char) : Prop where
  digits : ∀ d ∈ digitsOf (written yytext).digits, d < (written yytext).radix
  range : InRange (written yytext).meaning
  binary : ['0', 'b'] <+: yytext → ∀ d ∈ digitsOf (written yytext).digits, d = 0

section Reads

variable {yytext : List Char}

private theorem fits_iff (plain : ¬ ['0', 'b'] <+: yytext) : Fits yytext ↔
    (∀ d ∈ digitsOf (written yytext).digits, d < (written yytext).radix) ∧
      InRange (written yytext).meaning :=
  ⟨fun fits => ⟨fits.digits, fits.range⟩, fun fits => ⟨fits.1, fits.2, fun isBinary =>
    absurd isBinary plain⟩⟩

/-- Digits are read in the base they are given in, up to the quote behind them. -/
theorem strtoll_constant_iff {base : Nat} (positive : 0 < base) {cs digits : List Char}
    (subset : cs ⊆ hexDigits) (some : Digits cs digits) :
    strtoll (digits ++ ['\'']) base = signed false (value base (digitsOf digits)) ↔
      (∀ d ∈ digitsOf digits, d < base) ∧
        InRange (signed false (value base (digitsOf digits))) := by
  have allDigits := some.allDigits subset
  have unmarked : ∀ c ∈ digits ++ ['\''], c ≠ 'x' ∧ c ≠ 'X' := by
    intro c member
    rcases List.mem_append.mp member with member | quote
    · exact (digit_of_hexDigits c (subset (some.2 c member))).2
    · rw [List.mem_singleton.mp quote]
      decide
  have stops : ∀ c ∈ ['\''].head?, isDigitOf base c = false := by
    rintro _ ⟨⟩
    rfl
  have read := read_iff positive allDigits stops false
  rw [← magnitude_of_unmarked positive.ne' unmarked] at read
  obtain ⟨c, rest, rfl⟩ := List.exists_cons_of_ne_nil some.1
  rwa [List.cons_append, strtoll_digit (allDigits c List.mem_cons_self)]

/-- A character constant is read in full if and only if it fits. -/
theorem readInteger_constant_iff {start cs : List Char} {base : Nat} (positive : 0 < base)
    (subset : cs ⊆ hexDigits) (quoted : start.head? = some '\'')
    {digits : List Char} (some : Digits cs digits)
    (parts : written (start ++ (digits ++ ['\''])) = ⟨false, base, digits⟩)
    {s : Scanner} (sound : s.failed = false) :
    (readInteger start.length base (start ++ (digits ++ ['\''])) s).Reads
        (start ++ (digits ++ ['\''])) ↔ Fits (start ++ (digits ++ ['\''])) := by
  have plain : ¬ ['0', 'b'] <+: start ++ (digits ++ ['\'']) := by
    cases start with
    | nil => cases quoted
    | cons c rest =>
      cases quoted
      simp
  rw [fits_iff plain, Scanner.Reads, parts]
  simp only [readInteger, List.drop_left, sound, Bool.false_eq_true, false_or, Written.meaning]
  exact strtoll_constant_iff positive subset some

private theorem written_hexConstant (digits : List Char) :
    written (['\'', '\\', 'x'] ++ (digits ++ ['\''])) = ⟨false, 16, digits⟩ := by
  simp [written]

private theorem written_binConstant (digits : List Char) :
    written (['\'', '\\', 'b'] ++ (digits ++ ['\''])) = ⟨false, 2, digits⟩ := by
  simp [written]

private theorem written_octConstant {digits : List Char} (some : Digits octDigits digits) :
    written (['\'', '\\'] ++ (digits ++ ['\''])) = ⟨false, 8, digits⟩ := by
  obtain ⟨c, rest, rfl⟩ := List.exists_cons_of_ne_nil some.1
  have noPrefix : ∀ c ∈ octDigits, c ≠ 'x' ∧ c ≠ 'b' := forall_mem_of_all (by decide)
  obtain ⟨notX, notB⟩ := noPrefix c (some.2 c List.mem_cons_self)
  have parts : written ('\'' :: '\\' :: c :: (rest ++ ['\''])) =
      ⟨false, 8, (c :: (rest ++ ['\''])).dropLast⟩ := by
    simp [written, notX, notB]
  rw [← List.cons_append, List.dropLast_concat] at parts
  exact parts

/-- Decimal digits are octal ones behind a `0`. -/
theorem announced_dec {digits : List Char} (some : Digits decDigits digits) :
    announced digits = (if digits.head? = Option.some '0' then 8 else 10, digits) := by
  have noPrefix : ∀ c ∈ decDigits, c ≠ 'x' ∧ c ≠ 'X' ∧ c ≠ 'b' := forall_mem_of_all (by decide)
  unfold announced
  split
  · exact absurd rfl (noPrefix 'x' (some.2 'x' (by simp))).1
  · exact absurd rfl (noPrefix 'X' (some.2 'X' (by simp))).2.1
  · exact absurd rfl (noPrefix 'b' (some.2 'b' (by simp))).2.2
  · rfl
  · rename_i other
    have notZero : digits.head? ≠ Option.some '0' := by
      intro zero
      obtain ⟨rest, rfl⟩ := List.head?_eq_some_iff.mp zero
      exact other rest rfl
    rw [if_neg notZero]

/-- A decimal numeral is read in full behind its sign if and only if it fits. -/
theorem strtoll_dec_iff (negative : Bool) {digits : List Char} (some : Digits decDigits digits) :
    saturate (signed negative (magnitude 0 digits)) =
        signed negative (value (announced digits).1 (digitsOf (announced digits).2)) ↔
      (∀ d ∈ digitsOf (announced digits).2, d < (announced digits).1) ∧
        InRange (signed negative (value (announced digits).1 (digitsOf (announced digits).2))) := by
  have unmarked : hexPrefixed digits = false := hexPrefixed_of_unmarked fun c member =>
    (digit_of_hexDigits c (digits_subset.1 (some.2 c member))).2
  have positive : 0 < if digits.head? = Option.some '0' then 8 else 10 := by
    split <;> decide
  have read := read_all_iff positive (some.allDigits digits_subset.1) negative
  rw [← magnitude_zero_of_unmarked unmarked] at read
  rw [announced_dec some]
  exact read

/-- A hexadecimal numeral is read in full if and only if it fits. -/
theorem int_hex_iff {c : Char} (either : c = 'x' ∨ c = 'X') {digits : List Char}
    (some : Digits hexDigits digits) {s : Scanner} (sound : s.failed = false) :
    (readInteger 0 0 ('0' :: c :: digits) s).Reads ('0' :: c :: digits) ↔
      Fits ('0' :: c :: digits) := by
  have parts : written ('0' :: c :: digits) = ⟨false, 16, digits⟩ := by
    rcases either with rfl | rfl <;> rfl
  have plain : ¬ ['0', 'b'] <+: '0' :: c :: digits := by
    rcases either with rfl | rfl <;> simp
  have marked : hexPrefixed ('0' :: c :: digits) = true := by
    obtain ⟨d, rest, rfl⟩ := List.exists_cons_of_ne_nil some.1
    simpa [hexPrefixed, either] using (digit_of_hexDigits d (some.2 d List.mem_cons_self)).1
  have read := read_all_iff (Nat.zero_lt_succ 15) (some.allDigits fun _ => id) false
  rw [fits_iff plain, Scanner.Reads, parts]
  simp only [readInteger, sound, Bool.false_eq_true, false_or, List.drop_zero, Written.meaning]
  rwa [strtoll_digit rfl, magnitude_zero_of_marked marked]

/-- A decimal or octal numeral is read in full if and only if it fits. -/
theorem int_dec_iff {digits : List Char} (some : Digits decDigits digits) {s : Scanner}
    (sound : s.failed = false) : (readInteger 0 0 digits s).Reads digits ↔ Fits digits := by
  have allDigits := some.allDigits digits_subset.1
  have other : ∀ c ∈ decDigits, c ≠ '-' ∧ c ≠ '\'' ∧ c ≠ 'b' := forall_mem_of_all (by decide)
  have parts : written digits = ⟨false, (announced digits).1, (announced digits).2⟩ := by
    unfold written
    split
    · exact absurd rfl (other _ (some.2 '-' (by simp))).1
    · exact absurd rfl (other _ (some.2 '\'' (by simp))).2.1
    · exact absurd rfl (other _ (some.2 '\'' (by simp))).2.1
    · exact absurd rfl (other _ (some.2 '\'' (by simp))).2.1
    · rfl
  have plain : ¬ ['0', 'b'] <+: digits := fun isBinary =>
    absurd rfl (other _ (some.2 'b' (isBinary.subset (by simp)))).2.2
  have read := strtoll_dec_iff false some
  rw [fits_iff plain, Scanner.Reads, parts]
  simp only [readInteger, sound, Bool.false_eq_true, false_or, List.drop_zero, Written.meaning]
  obtain ⟨c, rest, rfl⟩ := List.exists_cons_of_ne_nil some.1
  rwa [strtoll_digit (allDigits c List.mem_cons_self)]

/-- A negative numeral is read in full if and only if it fits. -/
theorem int_negative_iff {digits : List Char} (some : Digits decDigits digits) {s : Scanner}
    (sound : s.failed = false) :
    (readInteger 0 0 ('-' :: digits) s).Reads ('-' :: digits) ↔ Fits ('-' :: digits) := by
  rw [fits_iff (by simp), Scanner.Reads]
  simp only [readInteger, sound, Bool.false_eq_true, false_or, List.drop_zero, strtoll_negative]
  exact strtoll_dec_iff true some

/-- The `0` of a binary numeral is all that is read of it. -/
theorem strtoll_bin (digits : List Char) : strtoll ('0' :: 'b' :: digits) 0 = 0 := by
  have unmarked : hexPrefixed ('0' :: 'b' :: digits) = false := by
    cases digits <;> rfl
  rw [strtoll_digit rfl, magnitude_zero_of_unmarked unmarked]
  rfl

/-- A binary numeral is read in full if and only if it fits. -/
theorem int_bin_iff {digits : List Char} (some : Digits binDigits digits) {s : Scanner}
    (sound : s.failed = false) :
    (readInteger 0 0 ('0' :: 'b' :: digits) s).Reads ('0' :: 'b' :: digits) ↔
      Fits ('0' :: 'b' :: digits) := by
  have parts : written ('0' :: 'b' :: digits) = ⟨false, 2, digits⟩ := rfl
  have zeros : value 2 (digitsOf digits) = 0 ↔ ∀ d ∈ digitsOf digits, d = 0 :=
    value_eq_zero_iff (by decide)
  have small : ∀ d ∈ digitsOf digits, d < 2 := by
    intro d member
    obtain ⟨c, listed, digit⟩ := List.mem_filterMap.mp member
    have binary : ∀ c ∈ binDigits, isDigitOf 2 c := forall_mem_of_all (by decide)
    obtain ⟨d', less, digit'⟩ := isDigitOf_iff.mp (binary c (some.2 c listed))
    rw [digit, Option.some.injEq] at digit'
    rwa [digit']
  rw [Scanner.Reads, parts]
  simp only [readInteger, sound, Bool.false_eq_true, false_or, List.drop_zero, strtoll_bin]
  constructor
  · intro zero
    have none : value 2 (digitsOf digits) = 0 := Int.ofNat_eq_zero.mp zero.symm
    refine ⟨small, ?_, fun _ => zeros.mp none⟩
    rw [parts, Written.meaning, none]
    exact (by decide : InRange (signed false 0))
  · intro fits
    rw [Written.meaning, zeros.mpr (fits.binary (by simp))]
    rfl

/-- A numeral without quotes is read in full if and only if it fits. -/
theorem int_iff (matched : yytext ∈ int.matches') {s : Scanner} (sound : s.failed = false) :
    (readInteger 0 0 yytext s).Reads yytext ↔ Fits yytext := by
  rcases mem_int.mp matched with matched | matched | matched | matched
  · obtain ⟨c, digits, either, some, rfl⟩ := mem_hex.mp matched
    exact int_hex_iff either some sound
  · obtain ⟨digits, some, rfl | rfl⟩ := mem_dec.mp matched
    · exact int_negative_iff some sound
    · exact int_dec_iff some sound
  · -- What `OCT` matches are decimal digits as well.
    obtain ⟨digits, some, rfl⟩ := mem_behind.mp matched
    have decimal : octDigits ⊆ decDigits ∧ '0' ∈ decDigits := by decide
    exact int_dec_iff ⟨List.cons_ne_nil _ _, List.forall_mem_cons.mpr
      ⟨decimal.2, fun c member => decimal.1 (some.2 c member)⟩⟩ sound
  · obtain ⟨digits, some, rfl⟩ := mem_behind.mp matched
    exact int_bin_iff some sound

/-- The first rule that matches a numeral reads it in full if and only if its digits fit the
radix and its value a `long long`, and it is no binary numeral other than zero. -/
theorem scan_iff (numeral : Numeral yytext) {s : Scanner} (sound : s.failed = false) :
    ∃ s', scan yytext s = some s' ∧ (s'.Reads yytext ↔ Fits yytext) := by
  by_cases isHex : yytext ∈ hexConstant.matches'
  · refine ⟨readInteger 3 16 yytext s, by simp [scan, numeralRules, isHex], ?_⟩
    obtain ⟨digits, some, rfl⟩ := mem_constant.mp isHex
    exact readInteger_constant_iff (by decide) (fun _ => id) rfl some (written_hexConstant _) sound
  by_cases isOct : yytext ∈ octConstant.matches'
  · refine ⟨readInteger 2 8 yytext s, by simp [scan, numeralRules, isHex, isOct], ?_⟩
    obtain ⟨digits, some, rfl⟩ := mem_constant.mp isOct
    exact readInteger_constant_iff (by decide) digits_subset.2.1 rfl some
      (written_octConstant some) sound
  by_cases isBin : yytext ∈ binConstant.matches'
  · refine ⟨readInteger 3 2 yytext s, by simp [scan, numeralRules, isHex, isOct, isBin], ?_⟩
    obtain ⟨digits, some, rfl⟩ := mem_constant.mp isBin
    exact readInteger_constant_iff (by decide) digits_subset.2.2 rfl some (written_binConstant _)
      sound
  have isInt : yytext ∈ int.matches' := by
    obtain ⟨rule, listed, matched⟩ := numeral
    simp only [numeralRules, List.mem_cons, List.not_mem_nil, or_false] at listed
    rcases listed with rfl | rfl | rfl | rfl
    · exact absurd matched isHex
    · exact absurd matched isOct
    · exact absurd matched isBin
    · exact matched
  refine ⟨readInteger 0 0 yytext s, ?_, int_iff isInt sound⟩
  simp [scan, numeralRules, isHex, isOct, isBin, isInt]

/-- The octal character constant that `lexer.l` gives as an example is read in full. -/
theorem scan_iff_octal : ∃ s', scan ['\'', '\\', '0', '3', '3', '\''] ⟨0, false⟩ = some s' ∧
    s'.Reads ['\'', '\\', '0', '3', '3', '\''] := by
  have fits : Fits ['\'', '\\', '0', '3', '3', '\''] := ⟨by decide, by decide, by decide⟩
  obtain ⟨s', scanned, reads⟩ := @scan_iff ['\'', '\\', '0', '3', '3', '\'']
    ⟨⟨octConstant, readInteger 2 8⟩, by simp [numeralRules], by decide⟩ ⟨0, false⟩ rfl
  exact ⟨s', scanned, reads.mpr fits⟩

/-- Five in binary is read as zero, and no error is reported. -/
theorem scan_binary : Numeral ['0', 'b', '1', '0', '1'] ∧
    scan ['0', 'b', '1', '0', '1'] ⟨0, false⟩ = some ⟨0, false⟩ ∧
    ¬ Scanner.Reads ⟨0, false⟩ ['0', 'b', '1', '0', '1'] := by
  refine ⟨⟨⟨int, readInteger 0 0⟩, by simp [numeralRules], by decide⟩, by decide, ?_⟩
  rintro (failed | value)
  · cases failed
  · exact absurd value (by decide)

end Reads

end Qbt.Frontend
