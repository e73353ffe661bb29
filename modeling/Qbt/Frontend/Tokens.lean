import Qbt.Std.Lexing
import Qbt.Frontend.Lexer

/-!
# `lexer.l`

All rules of the scanner, in the order of the file. A character of a text is a byte of the
buffer. Outside of comments the start condition is `INITIAL`; `SC_COMMENT` is exclusive, so
that only its own rules take part while a comment is skipped.
-/

namespace Qbt.Frontend

open Numerals Lexing

/-- The tokens of `parser.y`, with their texts where those are kept. -/
inductive Token where
  | int (n : Int)
  | string (yytext : List Char)
  | id (yytext : List Char)
  | assign | colon | bang | star | div | rem | minus | plus | and
  | lt | gt | le | ge | ne | eq
  | comma | lparen | rparen | lbrace | rbrace
  | fatArrow | thinArrow | to | from | blit | semi | alloc
  | i9 | i27
deriving DecidableEq, Repr

/-- The start conditions. -/
inductive StartCondition where
  | initial | comment
deriving DecidableEq, Repr

/-- What the actions change: the start condition, `parser->comment_nesting` and
`parser->failed`. -/
structure LexState where
  start : StartCondition := .initial
  nesting : Nat := 0
  failed : Bool := false
deriving DecidableEq, Repr

namespace Pattern

/-- The bytes. -/
def bytes : List Char := (List.range 256).map Char.ofNat

/-- `[^cs]`. -/
def anyBut (cs : List Char) : List Char := bytes.filter (· ∉ cs)

/-- `.`. -/
def dot : List Char := anyBut ['\n']

/-- `[[:space:]]`. -/
def spaces : List Char := bytes.filter (isSpace ·)

/-- `[_a-zA-Z]`. -/
def idStart : List Char := ['_'] ++ chars 'a' 'z' ++ chars 'A' 'Z'

/-- `[_a-zA-Z0-9]`. -/
def idRest : List Char := idStart ++ chars '0' '9'

/-- `"//".*`. -/
def lineComment : RegularExpression Char := literal ['/', '/'] * (oneOf dot).star

/-- `ID`. -/
def id : RegularExpression Char := oneOf idStart * (oneOf idRest).star

/-- `\\.|[^"\\]`. -/
def stringItem : RegularExpression Char :=
  literal ['\\'] * oneOf dot + oneOf (anyBut ['"', '\\'])

/-- `STRING`. -/
def string : RegularExpression Char := literal ['"'] * stringItem.star * literal ['"']

/-- The pattern of a regular character constant. -/
def charConstant : RegularExpression Char :=
  literal ['\''] * oneOf (anyBut ['\'', '\\']) * literal ['\'']

/-- The pattern of an escaped character constant. -/
def escapeConstant : RegularExpression Char :=
  literal ['\'', '\\'] * oneOf dot * literal ['\'']

/-- The end of a comment. -/
def commentEnd : RegularExpression Char := many (oneOf ['*']) * literal ['/']

section Matches

variable {x : List Char}

/-- Characters of the input are bytes. -/
theorem mem_bytes {c : Char} : c ∈ bytes ↔ c.toNat < 256 := by
  simp only [bytes, List.mem_map, List.mem_range]
  constructor
  · rintro ⟨n, less, rfl⟩
    have valid : n.isValidChar := Or.inl (by omega)
    rw [Char.ofNat, dif_pos valid]
    exact less
  · intro less
    exact ⟨c.toNat, less, Char.ofNat_toNat c⟩

theorem mem_anyBut {cs : List Char} {c : Char} : c ∈ anyBut cs ↔ c ∈ bytes ∧ c ∉ cs := by
  simp [anyBut]

/-- Any number of characters of a class. -/
theorem mem_star {cs : List Char} : x ∈ (oneOf cs).star.matches' ↔ ∀ c ∈ x, c ∈ cs := by
  rw [RegularExpression.matches'_star, Language.mem_kstar]
  constructor
  · rintro ⟨pieces, rfl, each⟩ c member
    obtain ⟨piece, among, member⟩ := List.mem_flatten.mp member
    obtain ⟨d, listed, rfl⟩ := mem_oneOf.mp (each piece among)
    rwa [List.mem_singleton.mp member]
  · intro listed
    refine ⟨x.map ([·]), ?_, fun piece among => ?_⟩
    · rw [← List.flatMap_def, List.flatMap_singleton']
    · obtain ⟨d, member, rfl⟩ := List.mem_map.mp among
      exact mem_oneOf.mpr ⟨d, listed d member, rfl⟩

/-- A line comment goes on to the end of its line. -/
theorem mem_lineComment : x ∈ lineComment.matches' ↔
    ∃ line, (∀ c ∈ line, c ∈ dot) ∧ x = '/' :: '/' :: line := by
  rw [lineComment, RegularExpression.matches'_mul]
  simp only [Language.mem_mul, mem_literal, mem_star]
  constructor
  · rintro ⟨_, rfl, line, all, rfl⟩
    exact ⟨line, all, rfl⟩
  · rintro ⟨line, all, rfl⟩
    exact ⟨_, rfl, line, all, rfl⟩

/-- A name is a start and any number of further characters. -/
theorem mem_id : x ∈ Pattern.id.matches' ↔
    ∃ c rest, c ∈ idStart ∧ (∀ d ∈ rest, d ∈ idRest) ∧ x = c :: rest := by
  rw [Pattern.id, RegularExpression.matches'_mul]
  simp only [Language.mem_mul, mem_oneOf, mem_star]
  constructor
  · rintro ⟨_, ⟨c, first, rfl⟩, rest, all, rfl⟩
    exact ⟨c, rest, first, all, rfl⟩
  · rintro ⟨c, rest, first, all, rfl⟩
    exact ⟨_, ⟨c, first, rfl⟩, rest, all, rfl⟩

/-- What is between the quotes of a text: a quote or a backslash has a backslash in front. -/
inductive StringBody : List Char → Prop where
  | nil : StringBody []
  | plain {c : Char} {rest : List Char} (other : c ∈ anyBut ['"', '\\'])
      (body : StringBody rest) : StringBody (c :: rest)
  | escaped {c : Char} {rest : List Char} (line : c ∈ dot) (body : StringBody rest) :
      StringBody ('\\' :: c :: rest)

private theorem mem_stringItem : x ∈ stringItem.matches' ↔
    (∃ c ∈ dot, x = ['\\', c]) ∨ ∃ c ∈ anyBut ['"', '\\'], x = [c] := by
  rw [stringItem, RegularExpression.matches'_add, RegularExpression.matches'_mul]
  simp only [Language.mem_add, Language.mem_mul, mem_literal, mem_oneOf]
  constructor
  · rintro (⟨_, rfl, _, ⟨c, line, rfl⟩, rfl⟩ | plain)
    · exact Or.inl ⟨c, line, rfl⟩
    · exact Or.inr plain
  · rintro (⟨c, line, rfl⟩ | plain)
    · exact Or.inl ⟨_, rfl, _, ⟨c, line, rfl⟩, rfl⟩
    · exact Or.inr plain

private theorem mem_stringBody : x ∈ stringItem.star.matches' ↔ StringBody x := by
  rw [RegularExpression.matches'_star, Language.mem_kstar]
  constructor
  · rintro ⟨pieces, rfl, each⟩
    induction pieces with
    | nil => exact .nil
    | cons piece pieces ih =>
      have behind := ih fun other member => each other (List.mem_cons_of_mem _ member)
      rcases mem_stringItem.mp (each piece List.mem_cons_self) with ⟨c, line, rfl⟩ | ⟨c, plain, rfl⟩
      · exact .escaped line behind
      · exact .plain plain behind
  · intro body
    induction body with
    | nil => exact ⟨[], rfl, by simp⟩
    | @plain c rest plain _ ih =>
      obtain ⟨pieces, rfl, each⟩ := ih
      refine ⟨[c] :: pieces, rfl, List.forall_mem_cons.mpr ⟨?_, each⟩⟩
      exact mem_stringItem.mpr (Or.inr ⟨c, plain, rfl⟩)
    | @escaped c rest line _ ih =>
      obtain ⟨pieces, rfl, each⟩ := ih
      refine ⟨['\\', c] :: pieces, rfl, List.forall_mem_cons.mpr ⟨?_, each⟩⟩
      exact mem_stringItem.mpr (Or.inl ⟨c, line, rfl⟩)

/-- A string is its body between quotation marks. -/
theorem mem_string : x ∈ string.matches' ↔
    ∃ body, StringBody body ∧ x = '"' :: (body ++ ['"']) := by
  rw [string, RegularExpression.matches'_mul, RegularExpression.matches'_mul]
  simp only [Language.mem_mul, mem_literal, mem_stringBody]
  constructor
  · rintro ⟨_, ⟨_, rfl, body, isBody, rfl⟩, _, rfl, rfl⟩
    exact ⟨body, isBody, rfl⟩
  · rintro ⟨body, isBody, rfl⟩
    exact ⟨_, ⟨_, rfl, body, isBody, rfl⟩, _, rfl, rfl⟩

/-- One character of a class in front of a quote and behind a fixed start. -/
theorem mem_enclosed {start cs : List Char} :
    x ∈ (literal start * oneOf cs * literal ['\'']).matches' ↔
      ∃ c ∈ cs, x = start ++ [c, '\''] := by
  rw [RegularExpression.matches'_mul, RegularExpression.matches'_mul]
  simp only [Language.mem_mul, mem_literal, mem_oneOf]
  constructor
  · rintro ⟨_, ⟨_, rfl, _, ⟨c, listed, rfl⟩, rfl⟩, _, rfl, rfl⟩
    exact ⟨c, listed, by simp⟩
  · rintro ⟨c, listed, rfl⟩
    exact ⟨_, ⟨_, rfl, _, ⟨c, listed, rfl⟩, rfl⟩, _, rfl, by simp⟩

/-- The end of a comment is any number of stars and a slash. -/
theorem mem_commentEnd : x ∈ commentEnd.matches' ↔
    ∃ stars, Digits ['*'] stars ∧ x = stars ++ ['/'] := by
  rw [commentEnd, RegularExpression.matches'_mul]
  simp only [Language.mem_mul, mem_many, mem_literal]
  constructor
  · rintro ⟨stars, some, _, rfl, rfl⟩
    exact ⟨stars, some, rfl⟩
  · rintro ⟨stars, some, rfl⟩
    exact ⟨stars, some, _, rfl, rfl⟩

end Matches

end Pattern

/-- `match_escape`. -/
def matchEscape : Char → Char
  | 'a' => '\x07'
  | 'b' => '\x08'
  | 'f' => '\x0c'
  | 'n' => '\n'
  | 'r' => '\r'
  | 't' => '\t'
  | 'v' => '\x0b'
  | c => c

/-- The value of a `char`, which is signed. -/
def charValue (c : Char) : Int := if c.toNat < 128 then c.toNat else c.toNat - 256

/-- What a rule does with its lexeme. -/
abbrev Action := List Char → LexState → Option Token × LexState

/-- The lexeme is skipped. -/
def skip : Action := fun _ s => (none, s)

/-- `return t`. -/
def give (t : Token) : Action := fun _ s => (some t, s)

/-- `BEGIN(SC_COMMENT)`. -/
def beginComment : Action := fun _ s => (none, { s with start := .comment })

/-- The action of `/*` in a comment. -/
def nestComment : Action := fun _ s => (none, { s with nesting := s.nesting + 1 })

/-- The action of the end of a comment. -/
def endComment : Action := fun _ s =>
  (none,
    if s.nesting ≠ 0 then { s with nesting := s.nesting - 1 } else { s with start := .initial })

/-- The action of the rules for numerals. -/
def giveInteger (skip base : Nat) : Action := fun yytext s =>
  (some (.int (readInteger skip base yytext ⟨0, s.failed⟩).integer), s)

/-- The action of a regular character constant. -/
def giveChar : Action := fun yytext s => (some (.int (charValue (yytext.getD 1 '\x00'))), s)

/-- The action of an escaped character constant. -/
def giveEscape : Action := fun yytext s =>
  (some (.int (charValue (matchEscape (yytext.getD 2 '\x00')))), s)

/-- The action of a character that starts no token. -/
def unexpected : Action := fun _ s => (none, { s with failed := true })

open Pattern

/-- A rule for a token with one spelling. -/
def fixed (entry : List Char × Token) : Lexing.Rule Char LexState Token :=
  ⟨literal entry.1, give entry.2⟩

/-- The tokens in front of the character constants. -/
def punctuation : List (List Char × Token) :=
  [(['('], .lparen), ([')'], .rparen), (['{'], .lbrace), (['}'], .rbrace), ([','], .comma),
    ([':'], .colon), (['!'], .bang), (['+'], .plus), (['-'], .minus), (['*'], .star),
    (['/'], .div), (['%'], .rem)]

/-- The rules for character constants. -/
def constantRules : List (Lexing.Rule Char LexState Token) :=
  [⟨charConstant, giveChar⟩, ⟨hexConstant, giveInteger 3 16⟩, ⟨octConstant, giveInteger 2 8⟩,
    ⟨binConstant, giveInteger 3 2⟩, ⟨escapeConstant, giveEscape⟩]

/-- The tokens behind the character constants. -/
def operators : List (List Char × Token) :=
  [(['&'], .and), (['='], .assign), (['<'], .lt), (['>'], .gt), (['<', '='], .le),
    (['>', '='], .ge), (['!', '='], .ne), (['=', '='], .eq), ([';'], .semi),
    (['=', '>'], .fatArrow), (['-', '>'], .thinArrow), (['>', '>'], .to), (['<', '<'], .from),
    (['<', '<', '*'], .blit), (['^'], .alloc), (['i', '9'], .i9), (['i', '2', '7'], .i27)]

/-- The rules for texts, numbers and names. -/
def wordRules : List (Lexing.Rule Char LexState Token) :=
  [⟨string, fun yytext s => (some (.string yytext), s)⟩, ⟨int, giveInteger 0 0⟩,
    ⟨Pattern.id, fun yytext s => (some (.id yytext), s)⟩]

/-- The rules that come in front of the one for blanks. -/
def visibleRules : List (Lexing.Rule Char LexState Token) :=
  [⟨lineComment, skip⟩, ⟨literal ['/', '*'], beginComment⟩] ++ punctuation.map fixed ++
    constantRules ++ operators.map fixed ++ wordRules

/-- The rules outside of comments. -/
def initialRules : List (Lexing.Rule Char LexState Token) :=
  visibleRules ++ [⟨many (oneOf spaces), skip⟩, ⟨oneOf dot, unexpected⟩]

/-- The rules in comments. -/
def commentRules : List (Lexing.Rule Char LexState Token) :=
  [⟨literal ['/', '*'], nestComment⟩, ⟨commentEnd, endComment⟩, ⟨many (oneOf ['*']), skip⟩,
    ⟨many (oneOf (anyBut ['/', '*', '\n'])), skip⟩, ⟨literal ['/'], skip⟩,
    ⟨literal ['\n'], skip⟩]

/-- The rules that take part. -/
def lexRules (s : LexState) : List (Lexing.Rule Char LexState Token) :=
  match s.start with
  | .initial => initialRules
  | .comment => commentRules

/-- The tokens of a text, with what the scanner has found out about it. -/
def lex (s : LexState) (text : List Char) : Option (List Token × LexState) :=
  tokens lexRules s text

/-- `yy_scan_string`: the buffer is a string of C, which ends at the first zero byte. -/
def scanString (buf : List Char) : List Char := buf.takeWhile (· ≠ '\x00')

end Qbt.Frontend
