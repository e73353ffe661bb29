import Mathlib.Computability.RegularExpressions

/-!
# Scanners made of rules

A scanner is given by patterns with actions. The lexeme is the longest prefix of the input
that some rule matches, and the first rule that matches it acts. The rules that take part
depend on a state, which the actions change.

`munch_eq_some_iff` says what the next lexeme is, `tokens_eq` unfolds a scan by one lexeme.
-/

namespace Qbt.Lexing

variable {α σ τ : Type} [DecidableEq α]

/-- A pattern with the action for what it matches, which may give a token. -/
structure Rule (α σ τ : Type) where
  pattern : RegularExpression α
  action : List α → σ → Option τ × σ

/-- The first rule that matches a lexeme. -/
def firstRule (rules : List (Rule α σ τ)) (lexeme : List α) : Option (Rule α σ τ) :=
  rules.find? fun rule => lexeme ∈ rule.pattern.matches'

/-- The next lexeme among the prefixes of at most some length, its rule, and the text
behind it. -/
def munchUpTo (rules : List (Rule α σ τ)) (text : List α) :
    Nat → Option (List α × Rule α σ τ × List α)
  | 0 => none
  | length + 1 =>
    match firstRule rules (text.take (length + 1)) with
    | some rule => some (text.take (length + 1), rule, text.drop (length + 1))
    | none => munchUpTo rules text length

/-- The next lexeme of a text. -/
def munch (rules : List (Rule α σ τ)) (text : List α) :
    Option (List α × Rule α σ τ × List α) :=
  munchUpTo rules text text.length

/-- Scan at most some number of lexemes. There is no result where no rule matches. -/
def scan (rules : σ → List (Rule α σ τ)) : Nat → σ → List α → Option (List τ × σ)
  | _, state, [] => some ([], state)
  | 0, _, _ :: _ => none
  | fuel + 1, state, text@(_ :: _) =>
    match munch (rules state) text with
    | none => none
    | some (lexeme, rule, rest) =>
      let acted := rule.action lexeme state
      (scan rules fuel acted.2 rest).map fun scanned => (acted.1.toList ++ scanned.1, scanned.2)

/-- The tokens of a text, and the state behind it. -/
def tokens (rules : σ → List (Rule α σ τ)) (state : σ) (text : List α) : Option (List τ × σ) :=
  scan rules text.length state text

section FirstRule

variable {rules : List (Rule α σ τ)} {lexeme : List α}

theorem firstRule_cons (rule : Rule α σ τ) : firstRule (rule :: rules) lexeme =
    if lexeme ∈ rule.pattern.matches' then some rule else firstRule rules lexeme := by
  by_cases matched : lexeme ∈ rule.pattern.matches' <;> simp [firstRule, matched]

/-- No rule is the first if none matches. -/
theorem firstRule_eq_none_iff : firstRule rules lexeme = none ↔
    ∀ rule ∈ rules, lexeme ∉ rule.pattern.matches' := by
  simp [firstRule]

/-- The rule that acts is one of the rules, and matches. -/
theorem mem_of_firstRule {rule : Rule α σ τ} (first : firstRule rules lexeme = some rule) :
    rule ∈ rules ∧ lexeme ∈ rule.pattern.matches' :=
  by
  rw [firstRule] at first
  exact ⟨List.mem_of_find?_eq_some first, by simpa using List.find?_some first⟩

/-- Rules that do not match are passed over. -/
theorem firstRule_append {others : List (Rule α σ τ)} (none : firstRule rules lexeme = none) :
    firstRule (rules ++ others) lexeme = firstRule others lexeme := by
  simp only [firstRule] at none ⊢
  rw [List.find?_append, none, Option.none_or]

/-- A rule among the first ones acts whatever is behind them. -/
theorem firstRule_append_of_some {others : List (Rule α σ τ)} {rule : Rule α σ τ}
    (first : firstRule rules lexeme = some rule) :
    firstRule (rules ++ others) lexeme = some rule := by
  simp only [firstRule] at first ⊢
  rw [List.find?_append, first, Option.some_or]

end FirstRule

section Munch

variable {rules : List (Rule α σ τ)} {text lexeme rest : List α} {rule : Rule α σ τ}

private theorem munchUpTo_eq_some_iff {length : Nat} :
    munchUpTo rules text length = some (lexeme, rule, rest) ↔
      ∃ n < length, lexeme = text.take (n + 1) ∧ rest = text.drop (n + 1) ∧
        firstRule rules lexeme = some rule ∧
        ∀ m < length, n < m → firstRule rules (text.take (m + 1)) = none := by
  induction length with
  | zero => simp [munchUpTo]
  | succ length ih =>
    unfold munchUpTo
    cases first : firstRule rules (text.take (length + 1)) with
    | some found =>
      constructor
      · rintro ⟨⟩
        refine ⟨length, Nat.lt_succ_self _, rfl, rfl, first, ?_⟩
        intro m less more
        omega
      · rintro ⟨n, less, rfl, rfl, acts, longer⟩
        have last : n = length := by
          by_contra other
          have none := longer length (Nat.lt_succ_self _) (by omega)
          rw [first] at none
          cases none
        subst last
        rw [first] at acts
        cases acts
        rfl
    | none =>
      rw [ih]
      constructor
      · rintro ⟨n, less, isLexeme, isRest, acts, longer⟩
        refine ⟨n, by omega, isLexeme, isRest, acts, ?_⟩
        intro m lessThan more
        rcases Nat.lt_succ_iff_lt_or_eq.mp lessThan with lessThan | rfl
        · exact longer m lessThan more
        · exact first
      · rintro ⟨n, less, rfl, isRest, acts, longer⟩
        have other : n ≠ length := by
          rintro rfl
          rw [first] at acts
          cases acts
        exact ⟨n, by omega, rfl, isRest, acts, fun m lessThan => longer m (by omega)⟩

/-- The next lexeme is not empty, some rule matches it, and no rule matches more. -/
theorem munch_eq_some_iff : munch rules text = some (lexeme, rule, rest) ↔
    text = lexeme ++ rest ∧ lexeme ≠ [] ∧ firstRule rules lexeme = some rule ∧
      ∀ more, more ≠ [] → more <+: rest → firstRule rules (lexeme ++ more) = none := by
  rw [munch, munchUpTo_eq_some_iff]
  constructor
  · rintro ⟨n, less, rfl, rfl, acts, longer⟩
    refine ⟨(List.take_append_drop _ _).symm, ?_, acts, ?_⟩
    · apply List.ne_nil_of_length_pos
      rw [List.length_take]
      omega
    · rintro more some ⟨behind, split⟩
      have positive := List.length_pos_of_ne_nil some
      have short : more.length ≤ text.length - (n + 1) := by
        rw [← List.length_drop, ← split, List.length_append]
        omega
      have taken : text.take (n + 1) ++ more = text.take (n + more.length + 1) := by
        have sum : n + more.length + 1 = n + 1 + more.length := by omega
        rw [sum, List.take_add (i := n + 1), ← split, List.take_left]
      rw [taken]
      exact longer _ (by omega) (by omega)
  · rintro ⟨rfl, some, acts, longer⟩
    obtain ⟨n, length⟩ := Nat.exists_eq_add_one_of_ne_zero (List.length_pos_of_ne_nil some).ne'
    have short : n + 1 ≤ (lexeme ++ rest).length := by
      rw [← length, List.length_append]
      omega
    refine ⟨n, by omega, ?_, ?_, acts, ?_⟩
    · rw [← length, List.take_left]
    · rw [← length, List.drop_left]
    · intro m less more
      rw [List.length_append, length] at less
      have taken : (lexeme ++ rest).take (m + 1) = lexeme ++ rest.take (m - n) := by
        have sum : m + 1 = lexeme.length + (m - n) := by omega
        rw [sum, List.take_length_add_append]
      rw [taken]
      refine longer _ ?_ (List.take_prefix _ _)
      apply List.ne_nil_of_length_pos
      rw [List.length_take]
      omega

/-- There is a next lexeme where some rule matches a prefix. -/
theorem exists_munch (some : lexeme ≠ []) (start : lexeme <+: text)
    (matched : ∃ rule ∈ rules, lexeme ∈ rule.pattern.matches') :
    ∃ longest rule rest, munch rules text = Option.some (longest, rule, rest) := by
  obtain ⟨behind, rfl⟩ := start
  obtain ⟨n, length⟩ := Nat.exists_eq_add_one_of_ne_zero (List.length_pos_of_ne_nil some).ne'
  have reaches : n + 1 ≤ (lexeme ++ behind).length := by
    rw [← length, List.length_append]
    omega
  have found : ∀ bound, n < bound →
      (munchUpTo rules (lexeme ++ behind) bound).isSome := by
    intro bound
    induction bound with
    | zero => intro less; omega
    | succ bound ih =>
      intro less
      unfold munchUpTo
      cases first : firstRule rules ((lexeme ++ behind).take (bound + 1)) with
      | some _ => rfl
      | none =>
        apply ih
        by_contra more
        have last : bound + 1 = lexeme.length := by omega
        rw [last, List.take_left, firstRule_eq_none_iff] at first
        obtain ⟨rule, listed, isMatch⟩ := matched
        exact first rule listed isMatch
  obtain ⟨⟨longest, rule, rest⟩, munched⟩ :=
    Option.isSome_iff_exists.mp (found _ reaches)
  exact ⟨longest, rule, rest, munched⟩

end Munch

section Tokens

variable {rules : σ → List (Rule α σ τ)} {state : σ} {text : List α}

/-- What is behind a lexeme is shorter. -/
theorem length_lt_of_munch {lexeme rest : List α} {rule : Rule α σ τ}
    (munched : munch (rules state) text = some (lexeme, rule, rest)) :
    rest.length < text.length := by
  obtain ⟨rfl, nonempty, -⟩ := munch_eq_some_iff.mp munched
  have positive := List.length_pos_of_ne_nil nonempty
  rw [List.length_append]
  omega

/-- The number of lexemes is at most that of characters, so more fuel makes no difference. -/
theorem scan_eq_scan {fuel other : Nat} (enough : text.length ≤ fuel)
    (enough' : text.length ≤ other) : scan rules fuel state text = scan rules other state text := by
  induction fuel generalizing state text other with
  | zero =>
    rw [List.length_eq_zero_iff.mp (Nat.le_zero.mp enough), scan, scan]
  | succ fuel ih =>
    cases text with
    | nil => rw [scan, scan]
    | cons c text =>
      simp only [List.length_cons] at enough enough'
      obtain ⟨other, rfl⟩ := Nat.exists_eq_add_one_of_ne_zero (by omega : other ≠ 0)
      rw [scan, scan]
      cases munched : munch (rules state) (c :: text) with
      | none => rfl
      | some found =>
        obtain ⟨lexeme, rule, rest⟩ := found
        have shorter := length_lt_of_munch munched
        simp only [List.length_cons] at shorter
        have same : scan rules fuel (rule.action lexeme state).2 rest =
            scan rules other (rule.action lexeme state).2 rest := ih (by omega) (by omega)
        simp only [same]

@[simp] theorem tokens_nil : tokens rules state [] = some ([], state) := by
  simp [tokens, scan]

/-- A scan goes on behind the next lexeme. -/
theorem tokens_of_munch {lexeme rest : List α} {rule : Rule α σ τ}
    (munched : munch (rules state) text = some (lexeme, rule, rest)) :
    tokens rules state text = (tokens rules (rule.action lexeme state).2 rest).map
      fun scanned => ((rule.action lexeme state).1.toList ++ scanned.1, scanned.2) := by
  have shorter := length_lt_of_munch munched
  cases text with
  | nil => simp at shorter
  | cons c text =>
    simp only [List.length_cons] at shorter
    rw [tokens, List.length_cons, scan, munched]
    simp only [tokens, scan_eq_scan (by omega : rest.length ≤ text.length) (Nat.le_refl _)]

/-- What all actions keep holds behind a scan. -/
theorem tokens_keeps (kept : σ → Prop) (keeps : ∀ state, kept state → ∀ rule ∈ rules state,
    ∀ lexeme, kept (rule.action lexeme state).2) {ts : List τ} {behind : σ} (start : kept state)
    (scanned : tokens rules state text = some (ts, behind)) : kept behind := by
  unfold tokens at scanned
  generalize text.length = fuel at scanned
  induction fuel generalizing state text ts with
  | zero =>
    cases text with
    | nil =>
      cases scanned
      exact start
    | cons c text => cases scanned
  | succ fuel ih =>
    cases text with
    | nil =>
      cases scanned
      exact start
    | cons c text =>
      rw [scan] at scanned
      split at scanned
      · cases scanned
      · rename_i lexeme rule rest munched
        obtain ⟨-, -, first, -⟩ := munch_eq_some_iff.mp munched
        obtain ⟨⟨others, last⟩, further, same⟩ := Option.map_eq_some_iff.mp scanned
        cases same
        exact ih (keeps state start rule (mem_of_firstRule first).1 lexeme) further

/-- Where every text has a next lexeme, every text can be scanned. -/
theorem exists_tokens {valid : α → Prop}
    (munches : ∀ state (text : List α), text ≠ [] → (∀ a ∈ text, valid a) →
      (munch (rules state) text).isSome)
    (all : ∀ a ∈ text, valid a) : ∃ scanned, tokens rules state text = some scanned := by
  induction size : text.length using Nat.strong_induction_on generalizing state text with
  | _ size ih =>
    subst size
    cases text with
    | nil => exact ⟨_, tokens_nil⟩
    | cons c text =>
      obtain ⟨⟨lexeme, rule, rest⟩, munched⟩ :=
        Option.isSome_iff_exists.mp (munches state (c :: text) (by simp) all)
      have behind : ∀ a ∈ rest, valid a := by
        intro a member
        apply all
        rw [(munch_eq_some_iff.mp munched).1]
        exact List.mem_append_right _ member
      obtain ⟨scanned, others⟩ := ih _ (length_lt_of_munch munched) behind rfl
      rw [tokens_of_munch munched, others]
      exact ⟨_, rfl⟩

end Tokens

end Qbt.Lexing
