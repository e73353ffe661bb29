import Qbt.Frontend.Comments

/-!
# The layout of a text

Blanks, line comments and nested comments may stand in front of every token and at the end of
a text. What the tokens are depends on none of them.
-/

namespace Qbt.Frontend

open Numerals Lexing Pattern

/-- What may stand between tokens. -/
inductive Gap : List Char → Prop where
  | nil : Gap []
  | blank {b : Char} {rest : List Char} (isBlank : isSpace b = true) (gap : Gap rest) :
      Gap (b :: rest)
  | line {line rest : List Char} (all : ∀ c ∈ line, c ∈ dot) (gap : Gap rest) :
      Gap ('/' :: '/' :: line ++ '\n' :: rest)
  | comment {body rest : List Char} (closed : behindComment 0 body = some [])
      (all : ∀ c ∈ body, c ∈ bytes) (gap : Gap rest) : Gap ('/' :: '*' :: body ++ rest)

/-- The tokens are written one behind the other, each of them apart from the next one. -/
inductive LaidOut : List Token → List Char → Prop where
  | nil {gap : List Char} (isGap : Gap gap) : LaidOut [] gap
  | cons {gap x rest : List Char} {t : Token} {ts : List Token} (isGap : Gap gap)
      (spells : Spells x t) (apart : Apart rest) (others : LaidOut ts rest) :
      LaidOut (t :: ts) (gap ++ x ++ rest)

/-- Every byte starts a lexeme. -/
theorem exists_rule {s : LexState} {c : Char} (byte : c ∈ bytes) :
    ∃ rule ∈ lexRules s, [c] ∈ rule.pattern.matches' := by
  cases start : s.start with
  | initial =>
    simp only [lexRules, start]
    by_cases newline : c = '\n'
    · subst newline
      refine ⟨⟨many (oneOf spaces), skip⟩, by simp [initialRules], mem_many.mpr ⟨by simp, ?_⟩⟩
      simpa using mem_spaces.mpr (by decide : isSpace '\n' = true)
    · refine ⟨⟨oneOf dot, unexpected⟩, by simp [initialRules], mem_oneOf.mpr ⟨c, ?_, rfl⟩⟩
      exact mem_anyBut.mpr ⟨byte, by simpa using newline⟩
  | comment =>
    simp only [lexRules, start]
    have kinds : ∃ rule, InComment rule [c] := by
      by_cases slash : c = '/'
      · exact slash ▸ ⟨_, .slash⟩
      by_cases star : c = '*'
      · exact ⟨_, .stars ⟨by simp, by simp [star]⟩⟩
      by_cases newline : c = '\n'
      · exact newline ▸ ⟨_, .newline⟩
      · refine ⟨_, .other ⟨by simp, ?_⟩⟩
        simpa [mem_anyBut, slash, star, newline] using byte
    obtain ⟨rule, kind⟩ := kinds
    exact ⟨rule, inComment_iff.mpr kind⟩

/-- No text jams the scanner. -/
theorem exists_lex {s : LexState} {text : List Char} (all : ∀ c ∈ text, c ∈ bytes) :
    ∃ scanned, lex s text = some scanned := by
  refine exists_tokens (fun state text nonempty all => ?_) all
  obtain ⟨c, rest, rfl⟩ := List.exists_cons_of_ne_nil nonempty
  obtain ⟨longest, rule, behind, munched⟩ :=
    exists_munch (by simp) ⟨rest, rfl⟩ (exists_rule (s := state) (all c List.mem_cons_self))
  exact Option.isSome_iff_exists.mpr ⟨_, munched⟩

/-- Bytes that start no token, in a comment and outside. -/
theorem exists_lex_unexpected : (∃ scanned, lex {} ['$', '\xff', '\\'] = some scanned) ∧
    ∃ scanned, lex { start := .comment } ['$', '\xff', '\\'] = some scanned := by
  have all : ∀ c ∈ ['$', '\xff', '\\'], c ∈ bytes := by simp [mem_bytes]
  exact ⟨exists_lex all, exists_lex all⟩

end Qbt.Frontend
