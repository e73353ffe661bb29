import Qbt.Frontend.Spelling

/-!
# Accepted texts

Which texts are scanned without an error, and what their tokens are: blanks, line comments,
nested comments and lexemes that stand for tokens, each of them as long as possible. A comment
that is not closed is accepted, too.
-/

namespace Qbt.Frontend

open Numerals Lexing Pattern

/-- The text consists of blanks, comments and the longest lexemes of the tokens. -/
inductive Lexemes : List Token → List Char → Prop where
  | nil : Lexemes [] []
  | blank {b : Char} {rest : List Char} {ts : List Token} (isBlank : isSpace b = true)
      (others : Lexemes ts rest) : Lexemes ts (b :: rest)
  | line {line rest : List Char} {ts : List Token} (all : ∀ c ∈ line, c ∈ dot)
      (stops : ∀ c ∈ rest.head?, c ∉ dot) (others : Lexemes ts rest) :
      Lexemes ts ('/' :: '/' :: line ++ rest)
  | comment {text rest : List Char} {ts : List Token} (closed : behindComment 0 text = some rest)
      (others : Lexemes ts rest) : Lexemes ts ('/' :: '*' :: text)
  | unclosed {text : List Char} (goesOn : behindComment 0 text = none) :
      Lexemes [] ('/' :: '*' :: text)
  | token {x rest : List Char} {t : Token} {ts : List Token} (spells : Spells x t)
      (longest : ∀ more, more ≠ [] → more <+: rest → firstRule initialRules (x ++ more) = none)
      (others : Lexemes ts rest) : Lexemes (t :: ts) (x ++ rest)

/-- No action takes an error back. -/
theorem failed_of_action {s : LexState} (failed : s.failed = true)
    {rule : Lexing.Rule Char LexState Token} (listed : rule ∈ lexRules s) (x : List Char) :
    (rule.action x s).2.failed = true := by
  cases start : s.start with
  | initial =>
    simp only [lexRules, start, initialRules, visibleRules, constantRules, wordRules,
      List.mem_append, List.mem_cons, List.mem_map, List.not_mem_nil, or_false] at listed
    rcases listed with (((((rfl | rfl) | fixed) | constant) | fixed) | word) | rfl | rfl
    · exact failed
    · exact failed
    · obtain ⟨entry, -, rfl⟩ := fixed
      exact failed
    · rcases constant with rfl | rfl | rfl | rfl | rfl <;> exact failed
    · obtain ⟨entry, -, rfl⟩ := fixed
      exact failed
    · rcases word with rfl | rfl | rfl <;> exact failed
    · exact failed
    · rfl
  | comment =>
    simp only [lexRules, start, commentRules, List.mem_cons, List.not_mem_nil, or_false] at listed
    rcases listed with rfl | rfl | rfl | rfl | rfl | rfl
    · exact failed
    · simp only [endComment]
      split <;> exact failed
    · exact failed
    · exact failed
    · exact failed
    · exact failed

/-- A text in which an error was found is not accepted. -/
theorem failed_of_lex {s s' : LexState} {text : List Char} {ts : List Token}
    (failed : s.failed = true) (scanned : lex s text = some (ts, s')) : s'.failed = true :=
  tokens_keeps (·.failed = true) (fun _ failed _ listed x => failed_of_action failed listed x)
    failed scanned

private theorem giveInteger_gives (skip base : Nat) (x : List Char) :
    ∃ t, ∀ s, giveInteger skip base x s = (some t, s) :=
  ⟨.int (strtoll (x.drop skip) base), fun _ => rfl⟩

/-- A rule in front of the one for blanks starts a comment or gives a token. -/
theorem Visible.gives {rule : Lexing.Rule Char LexState Token} {x : List Char}
    (kind : Visible rule x) : (∃ line, rule = ⟨Pattern.lineComment, skip⟩ ∧
      x = '/' :: '/' :: line ∧ ∀ c ∈ line, c ∈ dot) ∨
        (rule = ⟨literal ['/', '*'], beginComment⟩ ∧ x = ['/', '*']) ∨
          ∃ t, ∀ s, rule.action x s = (some t, s) := by
  cases kind with
  | lineComment all => exact Or.inl ⟨_, rfl, rfl, all⟩
  | blockComment => exact Or.inr (Or.inl ⟨rfl, rfl⟩)
  | fixed _ => exact Or.inr (Or.inr ⟨_, fun _ => rfl⟩)
  | constant listed _ =>
    simp only [constantRules, List.mem_cons, List.not_mem_nil, or_false] at listed
    rcases listed with rfl | rfl | rfl | rfl | rfl
    · exact Or.inr (Or.inr ⟨_, fun _ => rfl⟩)
    · exact Or.inr (Or.inr (giveInteger_gives 3 16 x))
    · exact Or.inr (Or.inr (giveInteger_gives 2 8 x))
    · exact Or.inr (Or.inr (giveInteger_gives 3 2 x))
    · exact Or.inr (Or.inr ⟨_, fun _ => rfl⟩)
  | string _ => exact Or.inr (Or.inr ⟨_, fun _ => rfl⟩)
  | int _ => exact Or.inr (Or.inr (giveInteger_gives 0 0 x))
  | id _ _ => exact Or.inr (Or.inr ⟨_, fun _ => rfl⟩)

section Accepted

variable {text : List Char} {ts : List Token}

/-- The next lexeme of a text of bytes. -/
theorem exists_lexeme {c : Char} {rest : List Char} (byte : c ∈ bytes) :
    ∃ x rule behind, c :: rest = x ++ behind ∧ x ≠ [] ∧
      firstRule initialRules x = some rule ∧
        (∀ more, more ≠ [] → more <+: behind → firstRule initialRules (x ++ more) = none) ∧
          lex {} (c :: rest) = (lex (rule.action x {}).2 behind).map
            fun scanned => ((rule.action x {}).1.toList ++ scanned.1, scanned.2) := by
  obtain ⟨x, rule, behind, munched⟩ :=
    exists_munch (by simp) ⟨rest, rfl⟩ (exists_rule (s := {}) byte)
  obtain ⟨split, some, first, longest⟩ := munch_eq_some_iff.mp munched
  exact ⟨x, rule, behind, split, some, first, longest, tokens_of_munch munched⟩

/-- Blanks in front make no difference. -/
theorem Lexemes.blanks {run : List Char} (all : ∀ b ∈ run, isSpace b = true)
    (others : Lexemes ts text) : Lexemes ts (run ++ text) := by
  induction run with
  | nil => exact others
  | cons b run ih =>
    obtain ⟨first, run⟩ := List.forall_mem_cons.mp all
    exact .blank first (ih run)

/-- A token that stands apart. -/
theorem Lexemes.apart {x : List Char} {t : Token} (spells : Spells x t) (apart : Apart text)
    (others : Lexemes ts text) : Lexemes (t :: ts) (x ++ text) :=
  .token spells (fun _ some start => firstRule_of_not_matches (spells.longest apart some start))
    others

private theorem lexemes_of_lex {s : LexState} (all : ∀ c ∈ text, c ∈ bytes)
    (scanned : lex {} text = some (ts, s)) (accepted : s.failed = false) : Lexemes ts text := by
  induction size : text.length using Nat.strong_induction_on generalizing text ts with
  | _ size ih =>
    subst size
    cases text with
    | nil =>
      have empty : lex {} [] = some ([], {}) := tokens_nil
      rw [empty] at scanned
      cases scanned
      exact .nil
    | cons c text =>
      obtain ⟨x, rule, behind, split, some, first, longest, stepped⟩ :=
        @exists_lexeme c text (all c List.mem_cons_self)
      have shorter : behind.length < (c :: text).length := by
        have positive := List.length_pos_of_ne_nil some
        rw [split, List.length_append]
        omega
      have bytesBehind : ∀ d ∈ behind, d ∈ bytes := by
        intro d member
        apply all
        rw [split]
        exact List.mem_append_right _ member
      rw [stepped] at scanned
      obtain ⟨⟨others, last⟩, further, same⟩ := Option.map_eq_some_iff.mp scanned
      cases same
      rw [split]
      obtain ⟨listed, matched⟩ := mem_of_firstRule first
      cases matches_of_rule listed matched with
      | visible kind =>
        rcases kind.gives with ⟨line, rfl, rfl, inLine⟩ | ⟨rfl, rfl⟩ | ⟨t, gives⟩
        · have stops : ∀ d ∈ behind.head?, d ∉ dot := by
            intro d head inDot
            obtain ⟨more, rfl⟩ := List.head?_eq_some_iff.mp head
            have none := firstRule_eq_none_iff.mp (longest [d] (by simp) ⟨more, rfl⟩)
              ⟨Pattern.lineComment, skip⟩ (by simp [initialRules, visibleRules])
            refine none (mem_lineComment.mpr ⟨line ++ [d], ?_, by simp⟩)
            simpa [or_imp, forall_and] using ⟨inLine, inDot⟩
          exact .line inLine stops (ih _ shorter bytesBehind further rfl)
        · cases closed : behindComment 0 behind with
          | none =>
            obtain ⟨nesting, swallowed⟩ :=
              lex_unclosed (s := { start := .comment }) closed bytesBehind rfl rfl
            cases swallowed.symm.trans further
            exact .unclosed closed
          | some rest =>
            obtain ⟨body, rfl, isClosed⟩ := exists_body closed
            have inBody : ∀ d ∈ body, d ∈ bytes :=
              fun d member => bytesBehind d (List.mem_append_left _ member)
            have inRest : ∀ d ∈ rest, d ∈ bytes :=
              fun d member => bytesBehind d (List.mem_append_right _ member)
            have skipped := (lex_comment isClosed inBody rfl rfl).symm.trans further
            rw [List.length_append] at shorter
            exact .comment closed (ih _ (by omega) inRest skipped rfl)
        · rw [gives] at further ⊢
          exact .token ⟨rule, first, gives⟩ longest (ih _ shorter bytesBehind further rfl)
      | blanks blank => exact (ih _ shorter bytesBehind further rfl).blanks blank
      | unexpected _ =>
        have failed := failed_of_lex rfl further
        rw [accepted] at failed
        cases failed

private theorem lex_of_lexemes (all : ∀ c ∈ text, c ∈ bytes) (lexemes : Lexemes ts text) :
    ∃ s, lex {} text = some (ts, s) ∧ s.failed = false := by
  induction lexemes with
  | nil => exact ⟨{}, tokens_nil, rfl⟩
  | blank isBlank _ ih =>
    rw [lex_blank rfl isBlank]
    exact ih fun c member => all c (List.mem_cons_of_mem _ member)
  | line inLine stops _ ih =>
    rw [lex_lineComment rfl inLine stops]
    exact ih fun c member => all c (List.mem_append_right _ member)
  | comment closed _ ih =>
    obtain ⟨body, rfl, isClosed⟩ := exists_body closed
    rw [lex_beginComment rfl, lex_comment isClosed (fun c member => all c (by simp [member])) rfl
      rfl]
    exact ih fun c member => all c (by simp [member])
  | unclosed goesOn =>
    rw [lex_beginComment rfl]
    obtain ⟨nesting, swallowed⟩ := lex_unclosed (s := { start := .comment }) goesOn
      (fun c member => all c (by simp [member])) rfl rfl
    exact ⟨_, swallowed, rfl⟩
  | @token x rest t ts spells longest _ ih =>
    obtain ⟨s, scanned, accepted⟩ := ih fun c member => all c (List.mem_append_right _ member)
    obtain ⟨rule, first, -, gives⟩ := spells.visible
    have munched : munch (lexRules {}) (x ++ rest) = some (x, rule, rest) :=
      munch_eq_some_iff.mpr ⟨rfl, spells.ne_nil, first, longest⟩
    refine ⟨s, (tokens_of_munch munched).trans ?_, accepted⟩
    rw [gives]
    change (lex {} rest).map _ = _
    rw [scanned]
    rfl

/-- The scanner accepts exactly the texts of blanks, comments and longest lexemes, and gives the
tokens of these. -/
theorem lex_iff_lexemes (all : ∀ c ∈ text, c ∈ bytes) :
    (∃ s, lex {} text = some (ts, s) ∧ s.failed = false) ↔ Lexemes ts text :=
  ⟨fun ⟨_, scanned, accepted⟩ => lexemes_of_lex all scanned accepted, lex_of_lexemes all⟩

end Accepted

/-- A comment in a comment, a token, and a comment that is not closed. -/
theorem lex_iff_lexemes_unclosed : ∃ s,
    lex {} ['/', '*', '/', '*', '*', '/', 'a', '*', '/', ';', ' ', '/', '*', 'b'] =
      some ([.semi], s) ∧ s.failed = false := by
  have unclosed : Lexemes [.semi] ([';'] ++ [' ', '/', '*', 'b']) :=
    .apart (spells_fixed (by decide)) (by simp [Apart, isSpace])
      (.blank (by decide) (.unclosed (by decide)))
  have closed : behindComment 0
      ['/', '*', '*', '/', 'a', '*', '/', ';', ' ', '/', '*', 'b'] =
        some [';', ' ', '/', '*', 'b'] := by decide
  exact (lex_iff_lexemes (by simp [mem_bytes])).mpr (.comment closed unclosed)

end Qbt.Frontend
