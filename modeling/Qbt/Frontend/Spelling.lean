import Qbt.Frontend.Layout

/-!
# Spellings

Which texts stand for which tokens. A numeral stands for the integer that `scan` reads in it,
a name for itself unless it is reserved, a text with quotes for itself, and every other token
has one spelling.
-/

namespace Qbt.Frontend

open Numerals Lexing Pattern

section Rules

variable {x : List Char}

/-- The rules in front of the punctuation match comments only. -/
theorem firstRule_initial (noComment : ∀ c rest, x ≠ '/' :: c :: rest) :
    firstRule initialRules x = firstRule (punctuation.map fixed ++ (constantRules ++
      (operators.map fixed ++ (wordRules ++
        [⟨many (oneOf spaces), skip⟩, ⟨oneOf dot, unexpected⟩])))) x := by
  simp only [initialRules, visibleRules, List.append_assoc]
  refine firstRule_append (firstRule_eq_none_iff.mpr fun rule listed matched => ?_)
  simp only [List.mem_cons, List.not_mem_nil, or_false] at listed
  rcases listed with rfl | rfl
  · obtain ⟨line, _, rfl⟩ := mem_lineComment.mp matched
    exact noComment _ _ rfl
  · exact noComment _ _ (mem_literal.mp matched)

private theorem fixed_matches {entry : List Char × Token} :
    x ∈ (fixed entry).pattern.matches' ↔ x = entry.1 := mem_literal

/-- The rules of a table match its texts only. -/
theorem firstRule_fixed {table : List (List Char × Token)} (other : ∀ entry ∈ table, entry.1 ≠ x) :
    firstRule (table.map fixed) x = none := by
  refine firstRule_eq_none_iff.mpr fun rule listed matched => ?_
  obtain ⟨entry, member, rfl⟩ := List.mem_map.mp listed
  exact other entry member (fixed_matches.mp matched).symm

/-- The first entry of a table with a text acts. -/
theorem firstRule_fixed_of_mem {table : List (List Char × Token)} {t : Token}
    (distinct : (table.map (·.1)).Nodup) (member : (x, t) ∈ table) :
    firstRule (table.map fixed) x = some (fixed (x, t)) := by
  induction table with
  | nil => cases member
  | cons entry table ih =>
    obtain ⟨notAgain, distinct⟩ := List.nodup_cons.mp distinct
    rw [List.map_cons, firstRule_cons]
    rcases List.mem_cons.mp member with rfl | later
    · exact if_pos (fixed_matches.mpr rfl)
    · rw [if_neg, ih distinct later]
      intro matched
      obtain rfl := fixed_matches.mp matched
      exact notAgain (List.mem_map.mpr ⟨_, later, rfl⟩)

private theorem firstRule_constants (notQuote : x.head? ≠ some '\'') :
    firstRule constantRules x = none := by
  refine firstRule_eq_none_iff.mpr fun rule listed matched => notQuote ?_
  cases constantText_of_rule listed matched <;> rfl

end Rules

/-- Their texts are distinct, so that the order of the rules does not matter. -/
theorem fixed_distinct : (punctuation.map (·.1)).Nodup ∧ (operators.map (·.1)).Nodup ∧
    ∀ entry ∈ punctuation, ∀ entry' ∈ operators, entry.1 ≠ entry'.1 := by
  decide

/-- Marks and keywords spell their token. -/
theorem spells_fixed {x : List Char} {t : Token} (listed : (x, t) ∈ punctuation ++ operators) :
    Spells x t := by
  refine ⟨fixed (x, t), ?_, fun s => rfl⟩
  obtain ⟨-, plain, alone⟩ := fixed_text _ listed
  have noComment : ∀ c rest, x ≠ '/' :: c :: rest := by
    rintro c rest rfl
    exact absurd (alone rfl) (by simp)
  have notQuote : x.head? ≠ some '\'' := by
    intro quote
    exact (plain '\'' (List.mem_of_mem_head? quote)).2.2 rfl
  obtain ⟨distinct, distinct', disjoint⟩ := fixed_distinct
  rw [firstRule_initial noComment]
  rcases List.mem_append.mp listed with member | member
  · exact firstRule_append_of_some (firstRule_fixed_of_mem distinct member)
  · have other : ∀ entry ∈ punctuation, entry.1 ≠ x :=
      fun entry among => disjoint entry among _ member
    rw [firstRule_append (firstRule_fixed other), firstRule_append (firstRule_constants notQuote)]
    exact firstRule_append_of_some (firstRule_fixed_of_mem distinct' member)

/-- The character a numeral without quotes starts with. -/
theorem head_of_int {x : List Char} (matched : x ∈ int.matches') :
    ∃ c rest, x = c :: rest ∧ (c ∈ decDigits ∨ c = '-' ∧ ∃ d ∈ decDigits, d ∈ rest) := by
  have zero : '0' ∈ decDigits := by decide
  rcases mem_int.mp matched with matched | matched | matched | matched
  · obtain ⟨c, digits, _, _, rfl⟩ := mem_hex.mp matched
    exact ⟨_, _, rfl, Or.inl zero⟩
  · obtain ⟨digits, some, rfl | rfl⟩ := mem_dec.mp matched
    · obtain ⟨d, digits, rfl⟩ := List.exists_cons_of_ne_nil some.1
      exact ⟨_, _, rfl, Or.inr ⟨rfl, d, some.2 d List.mem_cons_self, List.mem_cons_self⟩⟩
    · obtain ⟨d, digits, rfl⟩ := List.exists_cons_of_ne_nil some.1
      exact ⟨d, digits, rfl, Or.inl (some.2 d List.mem_cons_self)⟩
  · obtain ⟨digits, _, rfl⟩ := mem_behind.mp matched
    exact ⟨_, _, rfl, Or.inl zero⟩
  · obtain ⟨digits, _, rfl⟩ := mem_behind.mp matched
    exact ⟨_, _, rfl, Or.inl zero⟩

/-- No token with one spelling is written like a numeral. -/
theorem fixed_not_int : ∀ entry ∈ punctuation ++ operators,
    (∀ c ∈ entry.1.head?, c ∉ decDigits) ∧
    (entry.1.head? = some '-' → ∀ d ∈ entry.1, d ∉ decDigits) := by
  simp [punctuation, operators]
  and_intros <;> decide

/-- A numeral spells its value. -/
theorem spells_int {x : List Char} (matched : x ∈ int.matches') :
    Spells x (.int (strtoll x 0)) := by
  obtain ⟨c, rest, rfl, either⟩ := head_of_int matched
  have plain : c ≠ '/' ∧ c ≠ '\'' ∧ c ≠ '"' := by
    have inClass := (int_text matched).2 c List.mem_cons_self
    obtain ⟨-, notText, notConstant, notSlash⟩ := plain_char c (List.mem_append_left _ inClass)
    exact ⟨notSlash, notConstant, notText⟩
  have other : ∀ entry ∈ punctuation ++ operators, entry.1 ≠ c :: rest := by
    rintro entry among isText
    obtain ⟨notDigit, noDigits⟩ := fixed_not_int entry among
    rw [isText] at notDigit noDigits
    rcases either with digit | ⟨rfl, d, digit, member⟩
    · exact notDigit c rfl digit
    · exact noDigits rfl d (List.mem_cons_of_mem _ member) digit
  refine ⟨⟨int, giveInteger 0 0⟩, ?_, fun s => rfl⟩
  rw [firstRule_initial (by simp [plain.1]),
    firstRule_append (firstRule_fixed fun e member => other e (List.mem_append_left _ member)),
    firstRule_append (firstRule_constants (by simpa using plain.2.1)),
    firstRule_append (firstRule_fixed fun e member => other e (List.mem_append_right _ member))]
  refine firstRule_append_of_some ?_
  rw [wordRules, firstRule_cons, if_neg, firstRule_cons, if_pos matched]
  intro isString
  obtain ⟨body, _, same⟩ := mem_string.mp isString
  exact plain.2.2 (List.cons.inj same).1

/-- A character constant stands for what its first rule makes of it. -/
theorem spells_constant {x : List Char} {rule : Lexing.Rule Char LexState Token} {t : Token}
    (first : firstRule constantRules x = some rule) (gives : ∀ s, rule.action x s = (some t, s)) :
    Spells x t := by
  obtain ⟨listed, matched⟩ := mem_of_firstRule first
  have text := constantText_of_rule listed matched
  have noComment : ∀ c rest, x ≠ '/' :: c :: rest := by
    rintro c rest rfl
    generalize whole : '/' :: c :: rest = y at text
    cases text <;> exact absurd (List.cons.inj whole).1 (by decide)
  have other : ∀ entry ∈ punctuation, entry.1 ≠ x := by
    rintro entry among rfl
    have plain := (fixed_text entry (List.mem_append_left _ among)).2.1
    have quoted : '\'' ∈ entry.1 := by
      generalize entry.1 = y at text
      cases text <;> exact List.mem_cons_self
    exact (plain _ quoted).2.2 rfl
  refine ⟨rule, ?_, gives⟩
  rw [firstRule_initial noComment, firstRule_append (firstRule_fixed other)]
  exact firstRule_append_of_some first

/-- A numeral stands for the integer that its rule reads, among all rules as among those for
numerals. -/
theorem spells_numeral {x : List Char} (numeral : Numeral x) :
    ∃ n, scan x ⟨0, false⟩ = some ⟨n, false⟩ ∧ Spells x (.int n) := by
  have notChar : ∀ {behind : List Char}, x = '\'' :: '\\' :: behind →
      x ∉ charConstant.matches' := by
    intro behind shape isChar
    obtain ⟨c, listed, same⟩ := mem_enclosed.mp isChar
    have isEscape := (List.cons.inj (List.cons.inj (shape.symm.trans same)).2).1
    exact (mem_anyBut.mp listed).2 (by simp [← isEscape])
  by_cases isHex : x ∈ hexConstant.matches'
  · obtain ⟨digits, _, shape⟩ := mem_constant.mp isHex
    have first : firstRule constantRules x = some ⟨hexConstant, giveInteger 3 16⟩ := by
      rw [constantRules, firstRule_cons, if_neg (notChar shape), firstRule_cons, if_pos isHex]
    refine ⟨strtoll (x.drop 3) 16, ?_, spells_constant first fun s => rfl⟩
    simp [scan, numeralRules, isHex, readInteger]
  by_cases isOct : x ∈ octConstant.matches'
  · obtain ⟨digits, _, shape⟩ := mem_constant.mp isOct
    have first : firstRule constantRules x = some ⟨octConstant, giveInteger 2 8⟩ := by
      rw [constantRules, firstRule_cons, if_neg (notChar shape), firstRule_cons, if_neg isHex,
        firstRule_cons, if_pos isOct]
    refine ⟨strtoll (x.drop 2) 8, ?_, spells_constant first fun s => rfl⟩
    simp [scan, numeralRules, isHex, isOct, readInteger]
  by_cases isBin : x ∈ binConstant.matches'
  · obtain ⟨digits, _, shape⟩ := mem_constant.mp isBin
    have first : firstRule constantRules x = some ⟨binConstant, giveInteger 3 2⟩ := by
      rw [constantRules, firstRule_cons, if_neg (notChar shape), firstRule_cons, if_neg isHex,
        firstRule_cons, if_neg isOct, firstRule_cons, if_pos isBin]
    refine ⟨strtoll (x.drop 3) 2, ?_, spells_constant first fun s => rfl⟩
    simp [scan, numeralRules, isHex, isOct, isBin, readInteger]
  have isInt : x ∈ int.matches' := by
    obtain ⟨rule, listed, matched⟩ := numeral
    simp only [numeralRules, List.mem_cons, List.not_mem_nil, or_false] at listed
    rcases listed with rfl | rfl | rfl | rfl
    · exact absurd matched isHex
    · exact absurd matched isOct
    · exact absurd matched isBin
    · exact matched
  refine ⟨strtoll x 0, ?_, spells_int isInt⟩
  simp [scan, numeralRules, isHex, isOct, isBin, isInt, readInteger]

/-- A numeral in front of a blank or the end is one token for the whole scanner, and what it gives
is what the rules for numerals read. -/
theorem lex_numeral {x text : List Char} {s : LexState} (numeral : Numeral x)
    (outside : s.start = .initial) (apart : Apart text) :
    ∃ n, scan x ⟨0, false⟩ = some ⟨n, false⟩ ∧ lex s (x ++ text) =
      (lex s text).map fun scanned => (.int n :: scanned.1, scanned.2) := by
  obtain ⟨n, read, spells⟩ := spells_numeral numeral
  exact ⟨n, read, lex_token outside spells apart⟩

/-- `0b101` is scanned in full, and gives zero. -/
theorem lex_numeral_binary : lex {} ['0', 'b', '1', '0', '1'] = some ([.int 0], {}) := by
  have numeral : Numeral ['0', 'b', '1', '0', '1'] :=
    ⟨⟨int, readInteger 0 0⟩, by simp [numeralRules], by decide⟩
  have apart : Apart [] := by simp [Apart]
  obtain ⟨n, read, scanned⟩ := lex_numeral (s := {}) numeral rfl apart
  obtain rfl : 0 = n := by
    have zero : scan ['0', 'b', '1', '0', '1'] ⟨0, false⟩ = some ⟨0, false⟩ := by decide
    simpa using zero.symm.trans read
  rwa [List.append_nil] at scanned

end Qbt.Frontend
