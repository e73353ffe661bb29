import Qbt.Frontend.Scanning

/-!
# Comments

The rules of `SC_COMMENT` take runs of characters. `behindComment` finds the end of a comment
character by character: every `/*` opens one more comment, and every `*/` closes one. Both
agree, so that a comment is skipped up to the end that belongs to its start.
-/

namespace Qbt.Frontend

open Numerals Lexing Pattern

/-- What is behind a comment inside of which a text starts, that is inside of as many others. -/
def behindComment : Nat → List Char → Option (List Char)
  | _, [] => none
  | nesting, '/' :: '*' :: rest => behindComment (nesting + 1) rest
  | 0, '*' :: '/' :: rest => some rest
  | nesting + 1, '*' :: '/' :: rest => behindComment nesting rest
  | nesting, _ :: rest => behindComment nesting rest

/-- A rule in comments with what it matches. -/
inductive InComment : Lexing.Rule Char LexState Token → List Char → Prop where
  | nested : InComment ⟨literal ['/', '*'], nestComment⟩ ['/', '*']
  | closed {stars : List Char} (some : Digits ['*'] stars) :
      InComment ⟨commentEnd, endComment⟩ (stars ++ ['/'])
  | stars {stars : List Char} (some : Digits ['*'] stars) :
      InComment ⟨many (oneOf ['*']), skip⟩ stars
  | other {x : List Char} (some : Digits (anyBut ['/', '*', '\n']) x) :
      InComment ⟨many (oneOf (anyBut ['/', '*', '\n'])), skip⟩ x
  | slash : InComment ⟨literal ['/'], skip⟩ ['/']
  | newline : InComment ⟨literal ['\n'], skip⟩ ['\n']

/-- The rules of a comment, character by character. -/
theorem inComment_iff {rule : Lexing.Rule Char LexState Token} {x : List Char} :
    rule ∈ commentRules ∧ x ∈ rule.pattern.matches' ↔ InComment rule x := by
  constructor
  · rintro ⟨listed, matched⟩
    simp only [commentRules, List.mem_cons, List.not_mem_nil, or_false] at listed
    rcases listed with rfl | rfl | rfl | rfl | rfl | rfl
    · obtain rfl := mem_literal.mp matched
      exact .nested
    · obtain ⟨stars, some, rfl⟩ := mem_commentEnd.mp matched
      exact .closed some
    · exact .stars (mem_many.mp matched)
    · exact .other (mem_many.mp matched)
    · obtain rfl := mem_literal.mp matched
      exact .slash
    · obtain rfl := mem_literal.mp matched
      exact .newline
  · intro kind
    cases kind with
    | nested => exact ⟨by simp [commentRules], mem_literal.mpr rfl⟩
    | closed some => exact ⟨by simp [commentRules], mem_commentEnd.mpr ⟨_, some, rfl⟩⟩
    | stars some => exact ⟨by simp [commentRules], mem_many.mpr some⟩
    | other some => exact ⟨by simp [commentRules], mem_many.mpr some⟩
    | slash => exact ⟨by simp [commentRules], mem_literal.mpr rfl⟩
    | newline => exact ⟨by simp [commentRules], mem_literal.mpr rfl⟩

section Heads

variable {rule : Lexing.Rule Char LexState Token} {c : Char} {rest : List Char}

private theorem inComment_slash (kind : InComment rule ('/' :: rest)) :
    (rest = ['*'] ∧ rule.action = nestComment) ∨ (rest = [] ∧ rule.action = skip) := by
  generalize whole : '/' :: rest = x at kind
  cases kind with
  | nested => exact Or.inl ⟨(List.cons.inj whole).2, rfl⟩
  | closed some =>
    obtain ⟨c, stars, rfl⟩ := List.exists_cons_of_ne_nil some.1
    have isStar := some.2 c List.mem_cons_self
    rw [← (List.cons.inj whole).1] at isStar
    exact absurd isStar (by decide)
  | stars some =>
    have isStar := some.2 '/' (whole ▸ List.mem_cons_self)
    exact absurd isStar (by decide)
  | other some =>
    have inClass := some.2 '/' (whole ▸ List.mem_cons_self)
    exact absurd inClass fun inClass => (mem_anyBut.mp inClass).2 (by simp)
  | slash => exact Or.inr ⟨(List.cons.inj whole).2, rfl⟩
  | newline => exact absurd (List.cons.inj whole).1 (by decide)

private theorem inComment_star (kind : InComment rule ('*' :: rest)) :
    (∃ stars, (∀ d ∈ stars, d = '*') ∧ rest = stars ++ ['/'] ∧ rule.action = endComment) ∨
      ((∀ d ∈ rest, d = '*') ∧ rule.action = skip) := by
  generalize whole : '*' :: rest = x at kind
  cases kind with
  | nested => exact absurd (List.cons.inj whole).1 (by decide)
  | closed some =>
    obtain ⟨c, stars, rfl⟩ := List.exists_cons_of_ne_nil some.1
    refine Or.inl ⟨stars, fun d member => ?_, (List.cons.inj whole).2, rfl⟩
    exact List.mem_singleton.mp (some.2 d (List.mem_cons_of_mem _ member))
  | stars some =>
    refine Or.inr ⟨fun d member => ?_, rfl⟩
    exact List.mem_singleton.mp (some.2 d (whole ▸ List.mem_cons_of_mem _ member))
  | other some =>
    have inClass := some.2 '*' (whole ▸ List.mem_cons_self)
    exact absurd inClass fun inClass => (mem_anyBut.mp inClass).2 (by simp)
  | slash => exact absurd (List.cons.inj whole).1 (by decide)
  | newline => exact absurd (List.cons.inj whole).1 (by decide)

private theorem inComment_other (notSlash : c ≠ '/') (notStar : c ≠ '*')
    (kind : InComment rule (c :: rest)) : rule.action = skip ∧
      ((c = '\n' ∧ rest = []) ∨ ∀ d ∈ c :: rest, d ∈ anyBut ['/', '*', '\n']) := by
  generalize whole : c :: rest = x at kind
  cases kind with
  | nested => exact absurd (List.cons.inj whole).1 notSlash
  | closed some =>
    obtain ⟨d, stars, rfl⟩ := List.exists_cons_of_ne_nil some.1
    have isStar := some.2 d List.mem_cons_self
    rw [← (List.cons.inj whole).1] at isStar
    exact absurd (List.mem_singleton.mp isStar) notStar
  | stars some =>
    have isStar := some.2 c (whole ▸ List.mem_cons_self)
    exact absurd (List.mem_singleton.mp isStar) notStar
  | other some => exact ⟨rfl, Or.inr some.2⟩
  | slash => exact absurd (List.cons.inj whole).1 notSlash
  | newline => exact ⟨rfl, Or.inl (by simpa using whole)⟩

end Heads

section Steps

variable {s : LexState} {text : List Char}

/-- The scanner goes on behind the next lexeme of a comment. -/
theorem lex_in_comment (inside : s.start = .comment) {s' : LexState} {x rest : List Char}
    (some : x ≠ []) (matched : ∃ rule, InComment rule x)
    (acts : ∀ rule, InComment rule x → rule.action x s = (none, s'))
    (longest : ∀ more, more ≠ [] → more <+: rest → ∀ rule, ¬ InComment rule (x ++ more)) :
    lex s (x ++ rest) = lex s' rest := by
  obtain ⟨rule, kind⟩ := matched
  have found : firstRule commentRules x ≠ none := by
    intro none
    exact firstRule_eq_none_iff.mp none rule (inComment_iff.mpr kind).1 (inComment_iff.mpr kind).2
  obtain ⟨rule, first⟩ := Option.ne_none_iff_exists'.mp found
  have munched : munch (lexRules s) (x ++ rest) = Option.some (x, rule, rest) := by
    rw [lexRules, inside]
    refine munch_eq_some_iff.mpr ⟨rfl, some, first, fun more other start => ?_⟩
    refine firstRule_eq_none_iff.mpr fun rule listed matched => ?_
    exact longest more other start rule (inComment_iff.mp ⟨listed, matched⟩)
  rw [lex, tokens_of_munch munched, acts rule (inComment_iff.mp (mem_of_firstRule first))]
  simp [lex]

private theorem lex_nested (inside : s.start = .comment) :
    lex s ('/' :: '*' :: text) = lex { s with nesting := s.nesting + 1 } text := by
  have split : '/' :: '*' :: text = ['/', '*'] ++ text := rfl
  rw [split]
  refine lex_in_comment inside (by simp) ⟨_, .nested⟩ (fun rule kind => ?_) ?_
  · rcases inComment_slash kind with ⟨-, action⟩ | ⟨other, -⟩
    · rw [action, nestComment]
    · cases other
  · intro more nonempty _ rule kind
    rcases inComment_slash kind with ⟨same, -⟩ | ⟨other, -⟩
    · exact nonempty (List.cons.inj same).2
    · cases other

/-- A slash in front of no star is skipped. -/
theorem lex_slash (inside : s.start = .comment) (notStar : text.head? ≠ some '*') :
    lex s ('/' :: text) = lex s text := by
  have split : '/' :: text = ['/'] ++ text := rfl
  rw [split]
  refine lex_in_comment inside (by simp) ⟨_, .slash⟩ (fun rule kind => ?_) ?_
  · rcases inComment_slash kind with ⟨other, -⟩ | ⟨-, action⟩
    · cases other
    · rw [action, skip]
  · rintro more nonempty ⟨behind, rfl⟩ rule kind
    rcases inComment_slash kind with ⟨rfl, -⟩ | ⟨other, -⟩
    · exact notStar rfl
    · exact nonempty other

/-- A character that is no slash and no star is skipped. -/
theorem lex_other (inside : s.start = .comment) {c : Char} (byte : c ∈ bytes) (notSlash : c ≠ '/')
    (notStar : c ≠ '*') : lex s (c :: text) = lex s text := by
  by_cases newline : c = '\n'
  · subst newline
    have split : '\n' :: text = ['\n'] ++ text := rfl
    rw [split]
    refine lex_in_comment inside (by simp) ⟨_, .newline⟩ (fun rule kind => ?_) ?_
    · rw [(inComment_other notSlash notStar kind).1, skip]
    · intro more nonempty _ rule kind
      rcases (inComment_other notSlash notStar kind).2 with ⟨-, none⟩ | all
      · exact nonempty none
      · exact (mem_anyBut.mp (all _ List.mem_cons_self)).2 (by simp)
  · have inClass : decide (c ∈ anyBut ['/', '*', '\n']) = true := by
      simpa [mem_anyBut, notSlash, notStar, newline] using byte
    refine Lists.eq_of_run (f := lex s) (p := fun d => decide (d ∈ anyBut ['/', '*', '\n'])) ?_ text
      inClass
    intro d run rest all stops
    have run_all : ∀ e ∈ d :: run, e ∈ anyBut ['/', '*', '\n'] :=
      fun e member => of_decide_eq_true (all e member)
    have noMark := (mem_anyBut.mp (run_all d List.mem_cons_self)).2
    simp only [List.mem_cons, List.not_mem_nil, or_false, not_or] at noMark
    refine lex_in_comment inside (by simp) ⟨_, .other ⟨by simp, run_all⟩⟩ (fun rule kind => ?_) ?_
    · rw [(inComment_other noMark.1 noMark.2.1 kind).1, skip]
    · rintro more nonempty ⟨behind, rfl⟩ rule kind
      obtain ⟨e, more, rfl⟩ := List.exists_cons_of_ne_nil nonempty
      rcases (inComment_other noMark.1 noMark.2.1 kind).2 with ⟨isNewline, -⟩ | all
      · exact noMark.2.2 isNewline
      · exact of_decide_eq_false (stops e rfl) (all e (by simp))

/-- Stars in front of a slash end a comment. -/
theorem lex_stars_end (inside : s.start = .comment) {run : List Char} (all : ∀ d ∈ run, d = '*') :
    lex s ('*' :: run ++ '/' :: text) = lex (endComment [] s).2 text := by
  have noSlash : ∀ {stars : List Char}, (∀ d ∈ stars, d = '*') → '/' ∉ stars :=
    fun all member => absurd (all _ member) (by decide)
  have isLexeme : Digits ['*'] ('*' :: run) :=
    ⟨by simp, List.forall_mem_cons.mpr ⟨by simp, fun d member => by simp [all d member]⟩⟩
  have split : '*' :: run ++ '/' :: text = ('*' :: run ++ ['/']) ++ text := by simp
  rw [split]
  refine lex_in_comment inside (by simp) ⟨_, .closed isLexeme⟩ (fun rule kind => ?_) ?_
  · rcases inComment_star kind with ⟨-, -, -, action⟩ | ⟨other, -⟩
    · rw [action]
      rfl
    · exact absurd (other '/' (by simp)) (by decide)
  · intro more nonempty _ rule kind
    rcases inComment_star kind with ⟨stars, allStars, same, -⟩ | ⟨other, -⟩
    · have same : (run ++ ['/']) ++ more = stars ++ ['/'] := same
      rw [List.append_assoc] at same
      exact nonempty (Lists.eq_nil_of_append_eq (noSlash all) (noSlash allStars) same)
    · exact absurd (other '/' (by simp)) (by decide)

private theorem lex_end (inside : s.start = .comment) :
    lex s ('*' :: '/' :: text) = lex (endComment [] s).2 text := by
  have none : ∀ d ∈ ([] : List Char), d = '*' := by simp
  exact lex_stars_end inside none

/-- Stars in front of anything else are skipped. -/
theorem lex_stars_skip (inside : s.start = .comment) {run : List Char} (all : ∀ d ∈ run, d = '*')
    (stops : ∀ c ∈ text.head?, c ≠ '*' ∧ c ≠ '/') : lex s ('*' :: run ++ text) = lex s text := by
  have isLexeme : Digits ['*'] ('*' :: run) :=
    ⟨by simp, List.forall_mem_cons.mpr ⟨by simp, fun d member => by simp [all d member]⟩⟩
  refine lex_in_comment inside (by simp) ⟨_, .stars isLexeme⟩ (fun rule kind => ?_) ?_
  · rcases inComment_star kind with ⟨stars, -, same, -⟩ | ⟨-, action⟩
    · exact absurd (all '/' (by simp [same])) (by decide)
    · rw [action, skip]
  · rintro more nonempty ⟨behind, rfl⟩ rule kind
    obtain ⟨c, more, rfl⟩ := List.exists_cons_of_ne_nil nonempty
    obtain ⟨notStar, notSlash⟩ := stops c rfl
    rcases inComment_star kind with ⟨stars, allStars, same, -⟩ | ⟨other, -⟩
    · have member : c ∈ stars ++ ['/'] := by simp [← same]
      rcases List.mem_append.mp member with star | slash
      · exact notStar (allStars c star)
      · exact notSlash (List.mem_singleton.mp slash)
    · exact notStar (other c (by simp))

/-- A star in front of no slash is skipped. -/
theorem lex_star (inside : s.start = .comment) (notSlash : text.head? ≠ some '/') :
    lex s ('*' :: text) = lex s text := by
  obtain ⟨run, rest, rfl, all, stops⟩ := Lists.exists_leading (· == '*') text
  have isRun : ∀ d ∈ run, d = '*' := fun d member => by simpa using all d member
  by_cases slash : rest.head? = some '/'
  · obtain ⟨rest, rfl⟩ := List.head?_eq_some_iff.mp slash
    cases run with
    | nil => exact absurd rfl notSlash
    | cons d run =>
      obtain rfl := isRun d List.mem_cons_self
      rw [← List.cons_append, lex_stars_end inside isRun,
        lex_stars_end inside fun d member => isRun d (List.mem_cons_of_mem _ member)]
  · have stops : ∀ c ∈ rest.head?, c ≠ '*' ∧ c ≠ '/' := by
      intro c first
      refine ⟨by simpa using stops c first, ?_⟩
      rintro rfl
      exact slash first
    rw [← List.cons_append, lex_stars_skip inside isRun stops]
    cases run with
    | nil => rfl
    | cons d run =>
      obtain rfl := isRun d List.mem_cons_self
      rw [lex_stars_skip inside (fun d member => isRun d (List.mem_cons_of_mem _ member)) stops]

/-- What opens no comment and ends none is skipped. -/
theorem lex_skipped (inside : s.start = .comment) {c : Char} (byte : c ∈ bytes)
    (notOpen : c = '/' → text.head? ≠ some '*') (notEnd : c = '*' → text.head? ≠ some '/') :
    lex s (c :: text) = lex s text := by
  by_cases slash : c = '/'
  · subst slash
    exact lex_slash inside (notOpen rfl)
  by_cases star : c = '*'
  · subst star
    exact lex_star inside (notEnd rfl)
  · exact lex_other inside byte slash star

/-- A comment is skipped up to the end that belongs to its start. -/
theorem lex_comment {nesting : Nat} {body : List Char}
    (closed : behindComment nesting body = some []) (all : ∀ c ∈ body, c ∈ bytes)
    (inside : s.start = .comment) (depth : s.nesting = nesting) :
    lex s (body ++ text) = lex { s with start := .initial, nesting := 0 } text := by
  induction nesting, body using behindComment.induct generalizing s with
  | case1 => simp [behindComment] at closed
  | case2 nesting rest ih =>
    rw [behindComment] at closed
    rw [List.cons_append, List.cons_append, lex_nested inside]
    refine ih closed (fun c member => all c (by simp [member])) inside ?_
    rw [← depth]
  | case3 rest =>
    obtain rfl : rest = [] := by simpa [behindComment] using closed
    rw [List.cons_append, List.cons_append, lex_end inside]
    simp [endComment, depth]
  | case4 nesting rest ih =>
    rw [behindComment] at closed
    rw [List.cons_append, List.cons_append, lex_end inside]
    have ended : (endComment [] s).2 = { s with nesting := nesting } := by
      simp [endComment, depth]
    rw [ended]
    exact ih closed (fun c member => all c (by simp [member])) inside rfl
  | case5 nesting c rest notOpen notEnd notEnd' ih =>
    rw [behindComment.eq_5 _ _ _ notOpen notEnd notEnd'] at closed
    cases rest with
    | nil => simp [behindComment] at closed
    | cons d rest =>
      rw [List.cons_append, lex_skipped inside (all c List.mem_cons_self)]
      · exact ih closed (fun d member => all d (List.mem_cons_of_mem _ member)) inside depth
      · rintro slash star
        exact notOpen rest slash (by simpa using star)
      · rintro star slash
        cases nesting with
        | zero => exact notEnd rest rfl star (by simpa using slash)
        | succ nesting => exact notEnd' nesting rest rfl star (by simpa using slash)

/-- In front of the end of a comment there is a text that the comment consists of. -/
theorem exists_body {nesting : Nat} {rest : List Char}
    (closed : behindComment nesting text = some rest) :
    ∃ body, text = body ++ rest ∧ behindComment nesting body = some [] := by
  induction nesting, text using behindComment.induct with
  | case1 => simp [behindComment] at closed
  | case2 nesting text ih =>
    rw [behindComment] at closed
    obtain ⟨body, rfl, isClosed⟩ := ih closed
    exact ⟨'/' :: '*' :: body, rfl, by rw [behindComment, isClosed]⟩
  | case3 text =>
    obtain rfl : text = rest := by simpa [behindComment] using closed
    exact ⟨['*', '/'], rfl, rfl⟩
  | case4 nesting text ih =>
    rw [behindComment] at closed
    obtain ⟨body, rfl, isClosed⟩ := ih closed
    exact ⟨'*' :: '/' :: body, rfl, by rw [behindComment, isClosed]⟩
  | case5 nesting c text notOpen notEnd notEnd' ih =>
    rw [behindComment.eq_5 _ _ _ notOpen notEnd notEnd'] at closed
    obtain ⟨body, rfl, isClosed⟩ := ih closed
    refine ⟨c :: body, rfl, ?_⟩
    rw [behindComment.eq_5, isClosed]
    · rintro body slash rfl
      exact notOpen _ slash rfl
    · rintro body none star rfl
      exact notEnd _ none star rfl
    · rintro nesting body deeper star rfl
      exact notEnd' nesting _ deeper star rfl

/-- Where no end belongs to the start of a comment, the comment goes on to the end of the
text, without a token and without an error. -/
theorem lex_unclosed {nesting : Nat} (unclosed : behindComment nesting text = none)
    (all : ∀ c ∈ text, c ∈ bytes) (inside : s.start = .comment) (depth : s.nesting = nesting) :
    ∃ nesting', lex s text = some ([], { s with nesting := nesting' }) := by
  induction nesting, text using behindComment.induct generalizing s with
  | case1 => exact ⟨s.nesting, tokens_nil⟩
  | case2 nesting rest ih =>
    rw [behindComment] at unclosed
    rw [lex_nested inside]
    refine ih unclosed (fun c member => all c (by simp [member])) inside ?_
    rw [← depth]
  | case3 rest => simp [behindComment] at unclosed
  | case4 nesting rest ih =>
    rw [behindComment] at unclosed
    rw [lex_end inside]
    have ended : (endComment [] s).2 = { s with nesting := nesting } := by
      simp [endComment, depth]
    rw [ended]
    exact ih unclosed (fun c member => all c (by simp [member])) inside rfl
  | case5 nesting c rest notOpen notEnd notEnd' ih =>
    rw [behindComment.eq_5 _ _ _ notOpen notEnd notEnd'] at unclosed
    rw [lex_skipped inside (all c List.mem_cons_self)]
    · exact ih unclosed (fun d member => all d (List.mem_cons_of_mem _ member)) inside depth
    · rintro slash star
      obtain ⟨rest, rfl⟩ := List.head?_eq_some_iff.mp star
      exact notOpen rest slash rfl
    · rintro star slash
      obtain ⟨rest, rfl⟩ := List.head?_eq_some_iff.mp slash
      cases nesting with
      | zero => exact notEnd rest rfl star rfl
      | succ nesting => exact notEnd' nesting rest rfl star rfl

/-- What follows the start of a comment is skipped up to the end that belongs to it, or
altogether, where there is none. -/
theorem comments_nest (all : ∀ c ∈ text, c ∈ bytes) (failed : Bool) :
    (∀ rest, behindComment 0 text = some rest →
      lex { failed } ('/' :: '*' :: text) = lex { failed } rest) ∧
    (behindComment 0 text = none → ∃ nesting,
      lex { failed } ('/' :: '*' :: text) = some ([], { start := .comment, nesting, failed })) := by
  constructor
  · intro rest closed
    obtain ⟨body, rfl, isClosed⟩ := exists_body closed
    rw [lex_beginComment rfl]
    exact lex_comment isClosed (fun c member => all c (List.mem_append_left _ member)) rfl rfl
  · intro unclosed
    rw [lex_beginComment rfl]
    exact lex_unclosed unclosed all rfl rfl

end Steps

/-- A comment in a comment, and one that is not closed. -/
theorem comments_nest_once :
    lex {} "/* a /* b */ ** c **/;".toList = lex {} [';'] ∧ ∃ nesting,
      lex {} "/* a /* b */;".toList = some ([], { start := .comment, nesting }) := by
  have all {x : List Char} (small : x.all (·.toNat < 256) = true) : ∀ c ∈ x, c ∈ bytes :=
    fun c member => mem_bytes.mpr (by simpa using List.all_eq_true.mp small c member)
  constructor
  · exact (@comments_nest (" a /* b */ ** c **/;".toList) (all (by decide)) false).1 [';']
      (by decide)
  · exact (@comments_nest (" a /* b */;".toList) (all (by decide)) false).2 (by decide)

end Qbt.Frontend
