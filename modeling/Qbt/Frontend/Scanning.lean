import Qbt.Frontend.Tokens
import Qbt.Std.Lists

/-!
# Layout

What a token is does not depend on the blanks and the comments around it. Where a lexeme
stands in front of a blank, no rule matches more than the lexeme, and blanks, line comments
and nested comments are skipped. `lex_layout` puts this together for a whole text.
-/

namespace Qbt.Frontend

open Numerals Lexing Pattern

/-- What the rules for character constants match: up to the last quote there is none, except
behind the backslash. -/
inductive ConstantText : List Char → Prop where
  | regular {c : Char} (plain : c ≠ '\\') : ConstantText ['\'', c, '\'']
  | escaped {c : Char} {middle : List Char} (unquoted : '\'' ∉ middle) :
      ConstantText ('\'' :: '\\' :: c :: (middle ++ ['\'']))

/-- A rule in front of the one for blanks, with what it matches. -/
inductive Visible : Lexing.Rule Char LexState Token → List Char → Prop where
  | lineComment {line : List Char} (all : ∀ c ∈ line, c ∈ dot) :
      Visible ⟨lineComment, skip⟩ ('/' :: '/' :: line)
  | blockComment : Visible ⟨literal ['/', '*'], beginComment⟩ ['/', '*']
  | fixed {entry : List Char × Token} (listed : entry ∈ punctuation ++ operators) :
      Visible (fixed entry) entry.1
  | constant {rule : Lexing.Rule Char LexState Token} {x : List Char}
      (listed : rule ∈ constantRules) (text : ConstantText x) : Visible rule x
  | string {body : List Char} (isBody : StringBody body) :
      Visible ⟨string, fun yytext s => (some (.string yytext), s)⟩ ('"' :: (body ++ ['"']))
  | int {x : List Char} (matched : x ∈ int.matches') : Visible ⟨int, giveInteger 0 0⟩ x
  | id {c : Char} {rest : List Char} (first : c ∈ idStart) (all : ∀ d ∈ rest, d ∈ idRest) :
      Visible ⟨Pattern.id, fun yytext s => (some (.id yytext), s)⟩ (c :: rest)

/-- A rule outside of comments with what it matches. -/
inductive Matches : Lexing.Rule Char LexState Token → List Char → Prop where
  | visible {rule : Lexing.Rule Char LexState Token} {x : List Char} (kind : Visible rule x) :
      Matches rule x
  | blanks {c : Char} {rest : List Char} (all : ∀ d ∈ c :: rest, isSpace d = true) :
      Matches ⟨many (oneOf spaces), skip⟩ (c :: rest)
  | unexpected {c : Char} (line : c ∈ dot) : Matches ⟨oneOf dot, unexpected⟩ [c]

private theorem unquoted_of_digits {cs digits : List Char} (subset : cs ⊆ hexDigits)
    (some : Digits cs digits) : '\'' ∉ digits := by
  intro quoted
  have none : '\'' ∉ hexDigits := by decide
  exact none (subset (some.2 _ quoted))

/-- What a rule for character constants matches. -/
theorem constantText_of_rule {rule : Lexing.Rule Char LexState Token} {x : List Char}
    (listed : rule ∈ constantRules) (matched : x ∈ rule.pattern.matches') : ConstantText x := by
  simp only [constantRules, List.mem_cons, List.not_mem_nil, or_false] at listed
  rcases listed with rfl | rfl | rfl | rfl | rfl
  · obtain ⟨c, listed, rfl⟩ := mem_enclosed.mp matched
    apply ConstantText.regular
    rintro rfl
    exact (mem_anyBut.mp listed).2 (by simp)
  · obtain ⟨digits, some, rfl⟩ := mem_constant.mp matched
    exact .escaped (unquoted_of_digits (fun _ member => member) some)
  · obtain ⟨digits, some, rfl⟩ := mem_constant.mp matched
    have unquoted := unquoted_of_digits digits_subset.2.1 some
    obtain ⟨c, rest, rfl⟩ := List.exists_cons_of_ne_nil some.1
    exact .escaped fun quoted => unquoted (List.mem_cons_of_mem _ quoted)
  · obtain ⟨digits, some, rfl⟩ := mem_constant.mp matched
    exact .escaped (unquoted_of_digits digits_subset.2.2 some)
  · obtain ⟨c, _, rfl⟩ := mem_enclosed.mp matched
    exact .escaped (by simp : '\'' ∉ [])

/-- Every match of a rule is of one of the kinds. -/
theorem visible_of_rule {rule : Lexing.Rule Char LexState Token} {x : List Char}
    (listed : rule ∈ visibleRules) (matched : x ∈ rule.pattern.matches') : Visible rule x := by
  simp only [visibleRules, wordRules, List.mem_append, List.mem_cons, List.mem_map,
    List.not_mem_nil, or_false, or_assoc] at listed
  rcases listed with rfl | rfl | ⟨entry, listed, rfl⟩ | constant | ⟨entry, listed, rfl⟩ | rfl |
    rfl | rfl
  · obtain ⟨line, all, rfl⟩ := mem_lineComment.mp matched
    exact .lineComment all
  · obtain rfl := mem_literal.mp matched
    exact .blockComment
  · obtain rfl := mem_literal.mp matched
    exact .fixed (List.mem_append_left _ listed)
  · exact .constant constant (constantText_of_rule constant matched)
  · obtain rfl := mem_literal.mp matched
    exact .fixed (List.mem_append_right _ listed)
  · obtain ⟨body, isBody, rfl⟩ := mem_string.mp matched
    exact .string isBody
  · exact .int matched
  · obtain ⟨c, rest, first, all, rfl⟩ := mem_id.mp matched
    exact .id first all

/-- Each rule of the initial condition is one of the matches. -/
theorem matches_of_rule {rule : Lexing.Rule Char LexState Token} {x : List Char}
    (listed : rule ∈ initialRules) (matched : x ∈ rule.pattern.matches') : Matches rule x := by
  simp only [initialRules, List.mem_append, List.mem_cons, List.not_mem_nil, or_false] at listed
  rcases listed with visible | rfl | rfl
  · exact .visible (visible_of_rule visible matched)
  · obtain ⟨some, all⟩ := mem_many.mp matched
    obtain ⟨c, rest, rfl⟩ := List.exists_cons_of_ne_nil some
    exact .blanks fun d member => (List.mem_filter.mp (all d member)).2
  · obtain ⟨c, line, rfl⟩ := mem_oneOf.mp matched
    exact .unexpected line

/-- The texts of the tokens with one spelling hold no blanks and no quotes, and only one
starts with a slash. -/
theorem fixed_text : ∀ entry ∈ punctuation ++ operators, entry.1 ≠ [] ∧
    (∀ c ∈ entry.1, isSpace c = false ∧ c ≠ '"' ∧ c ≠ '\'') ∧
    (entry.1.head? = some '/' → entry.1 = ['/']) := by
  simp [punctuation, operators, isSpace]

/-- The characters of numerals. -/
theorem int_text {x : List Char} (matched : x ∈ int.matches') :
    x ≠ [] ∧ ∀ c ∈ x, c ∈ hexDigits ++ ['-', 'x', 'X'] := by
  have digit : ∀ {cs digits : List Char}, cs ⊆ hexDigits → Digits cs digits →
      ∀ c ∈ digits, c ∈ hexDigits ++ ['-', 'x', 'X'] :=
    fun subset some c member => List.mem_append_left _ (subset (some.2 c member))
  have marks : '0' ∈ hexDigits ++ ['-', 'x', 'X'] ∧ 'b' ∈ hexDigits ++ ['-', 'x', 'X'] := by
    decide
  rcases mem_int.mp matched with matched | matched | matched | matched
  · obtain ⟨c, digits, either, some, rfl⟩ := mem_hex.mp matched
    refine ⟨List.cons_ne_nil _ _, List.forall_mem_cons.mpr ⟨marks.1, List.forall_mem_cons.mpr
      ⟨?_, digit (fun _ member => member) some⟩⟩⟩
    rcases either with rfl | rfl <;> simp
  · obtain ⟨digits, some, rfl | rfl⟩ := mem_dec.mp matched
    · refine ⟨List.cons_ne_nil _ _, List.forall_mem_cons.mpr ⟨by simp, ?_⟩⟩
      exact digit digits_subset.1 some
    · exact ⟨some.1, digit digits_subset.1 some⟩
  · obtain ⟨digits, some, rfl⟩ := mem_behind.mp matched
    exact ⟨List.cons_ne_nil _ _, List.forall_mem_cons.mpr
      ⟨marks.1, digit digits_subset.2.1 some⟩⟩
  · obtain ⟨digits, some, rfl⟩ := mem_behind.mp matched
    exact ⟨List.cons_ne_nil _ _, List.forall_mem_cons.mpr
      ⟨marks.1, List.forall_mem_cons.mpr ⟨marks.2, digit digits_subset.2.2 some⟩⟩⟩

/-- Numerals and names hold no blanks, no quotes and no slashes. -/
theorem plain_char : ∀ c ∈ hexDigits ++ ['-', 'x', 'X'] ++ idRest,
    isSpace c = false ∧ c ≠ '"' ∧ c ≠ '\'' ∧ c ≠ '/' :=
  forall_mem_of_all (by decide)

/-- The text with quotes ends at its last character. -/
theorem Pattern.StringBody.closed {body other behind : List Char} (isBody : StringBody body)
    (isBody' : StringBody other) (same : body ++ '"' :: behind = other ++ ['"']) :
    behind = [] := by
  have unmarked : ∀ {c : Char}, c ∈ anyBut ['"', '\\'] → c ≠ '"' ∧ c ≠ '\\' := by
    intro c inClass
    simpa using (mem_anyBut.mp inClass).2
  induction isBody generalizing other with
  | nil =>
    cases isBody' with
    | nil => simpa using same
    | plain inClass _ => exact absurd (List.cons.inj same).1.symm (unmarked inClass).1
    | escaped _ _ => exact absurd (List.cons.inj same).1 (by decide)
  | plain inClass _ ih =>
    cases isBody' with
    | nil => exact absurd (List.cons.inj same).1 (unmarked inClass).1
    | plain _ isBody' => exact ih isBody' (List.cons.inj same).2
    | escaped _ _ => exact absurd (List.cons.inj same).1 (unmarked inClass).2
  | escaped _ _ ih =>
    cases isBody' with
    | nil => exact absurd (List.cons.inj same).1 (by decide)
    | plain inClass _ => exact absurd (List.cons.inj same).1.symm (unmarked inClass).2
    | escaped _ isBody' => exact ih isBody' (List.cons.inj (List.cons.inj same).2).2

/-- A character constant ends at its last quote. -/
theorem ConstantText.closed {x behind : List Char} (constant : ConstantText x)
    (longer : ConstantText (x ++ behind)) : behind = [] := by
  generalize whole : x ++ behind = y at longer
  cases constant with
  | regular plain =>
    cases longer with
    | regular _ => simpa using (List.cons.inj (List.cons.inj (List.cons.inj whole).2).2).2
    | escaped _ => exact absurd (List.cons.inj (List.cons.inj whole).2).1 plain
  | escaped unquoted =>
    cases longer with
    | regular plain => exact absurd (List.cons.inj (List.cons.inj whole).2).1.symm plain
    | escaped unquoted' =>
      simp only [List.cons_append, List.append_assoc, List.nil_append, List.cons.injEq,
        true_and] at whole
      exact Lists.eq_nil_of_append_eq unquoted unquoted' whole.2

section Blank

variable {x more : List Char} {b : Char} {rule : Lexing.Rule Char LexState Token}

/-- Blanks are the bytes that `isspace` accepts. -/
theorem mem_spaces {c : Char} : c ∈ spaces ↔ isSpace c = true := by
  have small : ∀ d ∈ [' ', '\t', '\n', '\x0b', '\x0c', '\r'], d.toNat < 256 := by simp
  simp only [spaces, List.mem_filter]
  constructor
  · exact And.right
  · intro blank
    exact ⟨mem_bytes.mpr (small c (of_decide_eq_true blank)), blank⟩

/-- Numerals and names hold no blank. -/
theorem notMem_of_blank (blank : isSpace b = true) :
    b ∉ hexDigits ++ ['-', 'x', 'X'] ++ idRest := by
  intro member
  rw [(plain_char b member).1] at blank
  cases blank

/-- A match of a rule in front of the one for blanks starts with no blank. -/
theorem Visible.exists_cons (kind : Visible rule x) :
    ∃ c rest, x = c :: rest ∧ isSpace c = false := by
  cases kind with
  | lineComment _ => exact ⟨_, _, rfl, by decide⟩
  | blockComment => exact ⟨_, _, rfl, by decide⟩
  | fixed listed =>
    obtain ⟨some, all, -⟩ := fixed_text _ listed
    obtain ⟨c, rest, isText⟩ := List.exists_cons_of_ne_nil some
    exact ⟨c, rest, isText, (all c (isText ▸ List.mem_cons_self)).1⟩
  | constant _ text => cases text <;> exact ⟨_, _, rfl, by decide⟩
  | string _ => exact ⟨_, _, rfl, by decide⟩
  | int matched =>
    obtain ⟨some, all⟩ := int_text matched
    obtain ⟨c, rest, isText⟩ := List.exists_cons_of_ne_nil some
    refine ⟨c, rest, isText, (plain_char c ?_).1⟩
    exact List.mem_append_left _ (all c (isText ▸ List.mem_cons_self))
  | id first _ =>
    refine ⟨_, _, rfl, (plain_char _ ?_).1⟩
    exact List.mem_append_right _ (List.mem_append_left _ first)

/-- A match with a blank behind a visible character is that of a comment, a constant or a
text. -/
theorem not_visible_longer (blank : isSpace b = true)
    (noLine : ∀ line, x ++ b :: more ≠ '/' :: '/' :: line)
    (noConstant : ¬ ConstantText (x ++ b :: more))
    (noString : ∀ body, StringBody body → x ++ b :: more ≠ '"' :: (body ++ ['"'])) :
    ¬ Visible rule (x ++ b :: more) := by
  have among : b ∈ x ++ b :: more := by simp
  intro kind
  generalize x ++ b :: more = y at kind among noLine noConstant noString
  cases kind with
  | lineComment _ => exact noLine _ rfl
  | blockComment =>
    have other : ∀ d ∈ ['/', '*'], isSpace d = false := by simp [isSpace]
    rw [other b among] at blank
    cases blank
  | fixed listed =>
    rw [((fixed_text _ listed).2.1 b among).1] at blank
    cases blank
  | constant _ text => exact noConstant text
  | string isBody => exact noString _ isBody rfl
  | int matched =>
    exact notMem_of_blank blank (List.mem_append_left _ ((int_text matched).2 b among))
  | id first all =>
    apply notMem_of_blank blank
    apply List.mem_append_right
    rcases List.mem_cons.mp among with rfl | behind
    · exact List.mem_append_left _ first
    · exact all _ behind

/-- No rule for blanks or anything else matches more than one character behind a visible
one. -/
theorem visible_of_matches {c : Char} (notBlank : isSpace c = false) (some : more ≠ [])
    (kind : Matches rule (c :: more)) : Visible rule (c :: more) := by
  cases kind with
  | visible kind => exact kind
  | blanks all =>
    rw [all c List.mem_cons_self] at notBlank
    cases notBlank
  | unexpected _ => exact absurd rfl some

/-- No rule matches more than a token in front of a blank. -/
theorem not_matches_behind_token (blank : isSpace b = true) (kind : Visible rule x)
    {s : LexState} {t : Token} (gives : (rule.action x s).1 = some t)
    {other : Lexing.Rule Char LexState Token} : ¬ Matches other (x ++ b :: more) := by
  intro longer
  obtain ⟨c, rest, isText, notBlank⟩ := kind.exists_cons
  have longer : Visible other (x ++ b :: more) := by
    rw [isText] at longer ⊢
    exact visible_of_matches notBlank (by simp) longer
  revert longer
  have apart : c ≠ '"' ∧ c ≠ '\'' → (c = '/' → rest = []) → ¬ Visible other (x ++ b :: more) := by
    rintro ⟨notText, notConstant⟩ alone
    subst isText
    refine not_visible_longer blank ?_ ?_ ?_
    · intro line whole
      obtain ⟨slash, behind⟩ := List.cons.inj whole
      obtain rfl := alone slash
      rw [(List.cons.inj behind).1] at blank
      exact absurd blank (by decide)
    · intro constant
      generalize whole : c :: rest ++ b :: more = y at constant
      cases constant with
      | regular _ => exact notConstant (List.cons.inj whole).1
      | escaped _ => exact notConstant (List.cons.inj whole).1
    · intro body _ whole
      exact notText (List.cons.inj whole).1
  have plain : c ∈ hexDigits ++ ['-', 'x', 'X'] ++ idRest → ¬ Visible other (x ++ b :: more) := by
    intro inClass
    obtain ⟨-, notText, notConstant, notSlash⟩ := plain_char c inClass
    exact apart ⟨notText, notConstant⟩ fun slash => absurd slash notSlash
  cases kind with
  | lineComment _ => cases gives
  | blockComment => cases gives
  | fixed listed =>
    obtain ⟨-, all, slash⟩ := fixed_text _ listed
    rw [isText] at all slash
    refine apart (all c List.mem_cons_self).2 fun isSlash => ?_
    subst isSlash
    exact (List.cons.inj (slash rfl)).2
  | constant _ text =>
    have quoted : ∃ rest, x = '\'' :: rest := by
      cases text <;> exact ⟨_, rfl⟩
    obtain ⟨rest, rfl⟩ := quoted
    refine not_visible_longer blank ?_ ?_ ?_
    · intro line whole
      exact absurd (List.cons.inj whole).1 (by decide)
    · intro longer
      exact absurd (text.closed longer) (by simp)
    · intro body _ whole
      exact absurd (List.cons.inj whole).1 (by decide)
  | @string body isBody =>
    refine not_visible_longer blank ?_ ?_ ?_
    · intro line whole
      exact absurd (List.cons.inj whole).1 (by decide)
    · intro longer
      generalize whole : '"' :: (body ++ ['"']) ++ b :: more = y at longer
      cases longer with
      | regular _ => exact absurd (List.cons.inj whole).1 (by decide)
      | escaped _ => exact absurd (List.cons.inj whole).1 (by decide)
    · intro other isBody' whole
      have behind : (body ++ ['"']) ++ b :: more = other ++ ['"'] := (List.cons.inj whole).2
      rw [List.append_assoc] at behind
      exact absurd (isBody.closed isBody' behind) (by simp)
  | int matched =>
    apply plain
    exact List.mem_append_left _ ((int_text matched).2 c (isText ▸ List.mem_cons_self))
  | id first _ =>
    obtain ⟨rfl, -⟩ := List.cons.inj isText
    apply plain
    exact List.mem_append_right _ (List.mem_append_left _ first)

end Blank

section Steps

variable {s : LexState} {text : List Char}

/-- Where no rule matches, none is the first. -/
theorem firstRule_of_not_matches {x : List Char} (none : ∀ rule, ¬ Matches rule x) :
    firstRule initialRules x = Option.none :=
  firstRule_eq_none_iff.mpr fun rule listed matched => none rule (matches_of_rule listed matched)

/-- The scanner goes on behind the next lexeme. -/
theorem lex_of_munch (outside : s.start = .initial) {x rest : List Char}
    {rule : Lexing.Rule Char LexState Token} (some : x ≠ [])
    (first : firstRule initialRules x = Option.some rule)
    (longest : ∀ more, more ≠ [] → more <+: rest → ∀ other, ¬ Matches other (x ++ more)) :
    lex s (x ++ rest) = (lex (rule.action x s).2 rest).map
      fun scanned => ((rule.action x s).1.toList ++ scanned.1, scanned.2) := by
  apply tokens_of_munch
  rw [lexRules, outside]
  refine munch_eq_some_iff.mpr ⟨rfl, some, first, fun more other start => ?_⟩
  exact firstRule_of_not_matches (longest more other start)

/-- The text stands alone for a token: some rule that gives the token is the first one that
matches it. -/
def Spells (x : List Char) (t : Token) : Prop :=
  ∃ rule, firstRule initialRules x = some rule ∧ ∀ s, rule.action x s = (some t, s)

/-- The text ends here, or goes on with a blank. -/
def Apart (text : List Char) : Prop := ∀ c ∈ text.head?, isSpace c = true

/-- What stands for a token is matched by a rule in front of the one for blanks. -/
theorem Spells.visible {x : List Char} {t : Token} (spells : Spells x t) :
    ∃ rule, firstRule initialRules x = some rule ∧ Visible rule x ∧
      ∀ s, rule.action x s = (some t, s) := by
  obtain ⟨rule, first, gives⟩ := spells
  obtain ⟨listed, matched⟩ := mem_of_firstRule first
  have token : (rule.action x {}).1 = some t := by rw [gives]
  refine ⟨rule, first, ?_, gives⟩
  cases matches_of_rule listed matched with
  | visible kind => exact kind
  | blanks _ => cases token
  | unexpected _ => cases token

/-- Every token is spelled with at least one character. -/
theorem Spells.ne_nil {x : List Char} {t : Token} (spells : Spells x t) : x ≠ [] := by
  obtain ⟨rule, -, kind, -⟩ := spells.visible
  obtain ⟨c, rest, rfl, -⟩ := kind.exists_cons
  simp

/-- No rule matches more than a token that stands apart. -/
theorem Spells.longest {x : List Char} {t : Token} (spells : Spells x t) (apart : Apart text)
    {more : List Char} (some : more ≠ []) (start : more <+: text)
    (other : Lexing.Rule Char LexState Token) : ¬ Matches other (x ++ more) := by
  obtain ⟨rule, -, kind, gives⟩ := spells.visible
  have token : (rule.action x {}).1 = Option.some t := by rw [gives]
  obtain ⟨behind, rfl⟩ := start
  obtain ⟨b, more, rfl⟩ := List.exists_cons_of_ne_nil some
  exact not_matches_behind_token (apart b rfl) kind token

/-- A token that stands apart is read as it stands alone. -/
theorem lex_token (outside : s.start = .initial) {x : List Char} {t : Token} (spells : Spells x t)
    (apart : Apart text) : lex s (x ++ text) =
      (lex s text).map fun scanned => (t :: scanned.1, scanned.2) := by
  obtain ⟨rule, first, -, gives⟩ := spells.visible
  rw [lex_of_munch outside spells.ne_nil first fun more some start other =>
    spells.longest apart some start other, gives]
  rfl

/-- A blank is skipped. -/
theorem lex_blank (outside : s.start = .initial) {b : Char} (blank : isSpace b = true) :
    lex s (b :: text) = lex s text := by
  refine Lists.eq_of_run (f := lex s) (p := isSpace) ?_ text blank
  intro b run rest all stops
  have notVisible : ∀ {behind : List Char} {rule}, ¬ Visible rule (b :: behind) := by
    intro behind rule kind
    obtain ⟨c, rest, isText, notBlank⟩ := kind.exists_cons
    rw [← (List.cons.inj isText).1, all b List.mem_cons_self] at notBlank
    cases notBlank
  have first : firstRule initialRules (b :: run) = some ⟨many (oneOf spaces), skip⟩ := by
    rw [initialRules, firstRule_append, firstRule_cons, if_pos]
    · exact mem_many.mpr ⟨by simp, fun d member => mem_spaces.mpr (all d member)⟩
    · exact firstRule_eq_none_iff.mpr fun rule listed matched =>
        notVisible (visible_of_rule listed matched)
  rw [lex_of_munch outside (by simp) first ?_]
  · simp [skip]
  · rintro more nonempty ⟨behind, rfl⟩ other longer
    obtain ⟨c, more, rfl⟩ := List.exists_cons_of_ne_nil nonempty
    generalize whole : b :: run ++ c :: more = x at longer
    cases longer with
    | visible kind =>
      rw [← whole] at kind
      exact notVisible kind
    | blanks all =>
      have notBlank := stops c rfl
      rw [← whole] at all
      rw [all c (by simp)] at notBlank
      cases notBlank
    | unexpected _ => simp at whole

/-- A match that starts with a slash is the slash, or starts a comment. -/
theorem slash_matches {rule : Lexing.Rule Char LexState Token} {c : Char} {rest : List Char}
    (kind : Matches rule ('/' :: c :: rest)) :
    (c = '/' ∧ ∀ d ∈ rest, d ∈ dot) ∨ (c = '*' ∧ rest = []) := by
  generalize whole : '/' :: c :: rest = x at kind
  cases kind with
  | visible kind =>
    cases kind with
    | lineComment all =>
      obtain ⟨-, rfl, rfl⟩ : '/' = '/' ∧ c = '/' ∧ rest = _ := by simpa using whole
      exact Or.inl ⟨rfl, all⟩
    | blockComment => exact Or.inr (by simpa using whole)
    | fixed listed =>
      have alone := (fixed_text _ listed).2.2
      rw [← whole] at alone
      exact absurd (alone rfl) (by simp)
    | constant _ text => cases text <;> exact absurd (List.cons.inj whole).1 (by decide)
    | string _ => exact absurd (List.cons.inj whole).1 (by decide)
    | int matched =>
      have inClass := (int_text matched).2 '/' (whole ▸ List.mem_cons_self)
      exact absurd rfl (plain_char _ (List.mem_append_left _ inClass)).2.2.2
    | id first _ =>
      rw [← (List.cons.inj whole).1] at first
      exact absurd first (by decide)
  | blanks all =>
    rw [← whole] at all
    exact absurd (all '/' List.mem_cons_self) (by decide)
  | unexpected _ => simp at whole

/-- A line comment is skipped up to the end of the line. -/
theorem lex_lineComment (outside : s.start = .initial) {line : List Char}
    (all : ∀ c ∈ line, c ∈ dot) (stops : ∀ c ∈ text.head?, c ∉ dot) :
    lex s ('/' :: '/' :: line ++ text) = lex s text := by
  have first : firstRule initialRules ('/' :: '/' :: line) = some ⟨lineComment, skip⟩ := by
    apply firstRule_append_of_some
    rw [visibleRules, List.append_assoc, List.append_assoc, List.append_assoc]
    apply firstRule_append_of_some
    rw [firstRule_cons, if_pos (mem_lineComment.mpr ⟨line, all, rfl⟩)]
  rw [lex_of_munch outside (by simp) first ?_]
  · simp [skip]
  · rintro more nonempty ⟨behind, rfl⟩ other longer
    obtain ⟨c, more, rfl⟩ := List.exists_cons_of_ne_nil nonempty
    rcases slash_matches longer with ⟨-, all⟩ | ⟨same, -⟩
    · exact stops c rfl (all c (by simp))
    · exact absurd same (by decide)

/-- The start of a comment. -/
theorem lex_beginComment (outside : s.start = .initial) :
    lex s ('/' :: '*' :: text) = lex { s with start := .comment } text := by
  have first : firstRule initialRules ['/', '*'] =
      some ⟨literal ['/', '*'], beginComment⟩ := by
    apply firstRule_append_of_some
    rw [visibleRules, List.append_assoc, List.append_assoc, List.append_assoc]
    apply firstRule_append_of_some
    rw [firstRule_cons, if_neg, firstRule_cons, if_pos (mem_literal.mpr rfl)]
    rw [mem_lineComment]
    rintro ⟨line, -, same⟩
    simp at same
  have split : '/' :: '*' :: text = ['/', '*'] ++ text := rfl
  rw [split, lex_of_munch outside (by simp) first ?_]
  · simp [beginComment]
  · rintro more nonempty ⟨behind, rfl⟩ other longer
    rcases slash_matches longer with ⟨same, -⟩ | ⟨-, none⟩
    · exact absurd same (by decide)
    · exact nonempty none

end Steps

end Qbt.Frontend
