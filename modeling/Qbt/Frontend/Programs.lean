import Qbt.Frontend.Reader

/-!
# Reading bodies and programs

The grammar builds the body of a function and the list of all functions from the left; the
readers go on from element to element. Both find the same programs.
-/

namespace Qbt.Frontend

open Phrases

section Shrinks

variable {ts rest : List Token}

/-- A type takes at least one token. -/
theorem TypeRule.shrinks {type : VType} (isType : TypeRule ts type rest) :
    rest.length < ts.length := by
  cases isType <;> simp

/-- An address takes at least one token. -/
theorem AddrRule.shrinks {name : String} (isAddr : AddrRule ts name rest) :
    rest.length < ts.length := by
  obtain ⟨isId⟩ := isAddr
  exact Nat.lt_succ_of_lt isId.shrinks

/-- A value takes at least one token. -/
theorem ValueRule.shrinks {value : VType → String → Plain} (isValue : ValueRule ts value rest) :
    rest.length < ts.length := by
  cases isValue with
  | binary left right =>
    have first := left.shrinks
    have second := right.shrinks
    rw [List.length_cons] at first
    omega
  | unary operand => exact Nat.lt_succ_of_lt operand.shrinks
  | immInt isInt => exact isInt.shrinks
  | immRef isAddr => exact isAddr.shrinks
  | move isId => exact isId.shrinks
  | alloc isInt => exact Nat.lt_succ_of_lt isInt.shrinks
  | addr isId => exact Nat.lt_succ_of_lt isId.shrinks

/-- An instruction takes at least one token. -/
theorem InsnRule.shrinks {s : Stmt} (isInsn : InsnRule ts s rest) : rest.length < ts.length := by
  cases isInsn with
  | value isType isId isValue =>
    have shorter := isValue.shrinks
    have behind := isId.shrinks
    have start := isType.shrinks
    simp only [List.length_cons] at *
    omega
  | load isType isId isBase isOffset =>
    have shorter := isOffset.shrinks
    have base := isBase.shrinks
    have behind := isId.shrinks
    have start := isType.shrinks
    simp only [List.length_cons] at *
    omega
  | store isArg isType isBase isOffset =>
    have shorter := isOffset.shrinks
    have base := isBase.shrinks
    have behind := isType.shrinks
    have start := isArg.shrinks
    simp only [List.length_cons] at *
    omega
  | blit isDst isSize isSrc =>
    have shorter := isSrc.shrinks
    have behind := isSize.shrinks
    have start := isDst.shrinks
    simp only [List.length_cons] at *
    omega
  | dealloc isInt =>
    have shorter := isInt.shrinks
    simp only [List.length_cons] at *
    omega
  | branch left right isId =>
    have shorter := isId.shrinks
    have behind := right.shrinks
    have start := left.shrinks
    simp only [List.length_cons] at *
    omega
  | branchNz isArg isId =>
    have shorter := isId.shrinks
    have start := isArg.shrinks
    simp only [List.length_cons] at *
    omega
  | branchEz isArg isId =>
    have shorter := isId.shrinks
    have start := isArg.shrinks
    simp only [List.length_cons] at *
    omega
  | jump isId => exact Nat.lt_succ_of_lt isId.shrinks
  | call isCallee isArgs isRets =>
    have shorter := isRets.length_le IdRule.shrinks
    have behind := isArgs.length_le ArgRule.shrinks
    cases isCallee with
    | symbol isAddr =>
      have start := isAddr.shrinks
      simp only [List.length_cons] at *
      omega
    | id isId =>
      have start := isId.shrinks
      simp only [List.length_cons] at *
      omega
  | leave isArgs =>
    have shorter := isArgs.length_le ArgRule.shrinks
    simp only [List.length_cons] at *
    omega

end Shrinks

/-- Read as many labels as there are. -/
def readLabels : List Token → List String × List Token
  | .id x :: .colon :: ts => (String.ofList x :: (readLabels ts).1, (readLabels ts).2)
  | .string x :: .colon :: ts =>
    (String.ofList (cloneString x) :: (readLabels ts).1, (readLabels ts).2)
  | ts => ([], ts)

section Labels

variable {ts rest : List Token}

/-- A label in front of labels. -/
theorem LabelsRule.cons {name : String} {names : List String} {mid : List Token}
    (isLabel : LabelRule ts name mid) (others : LabelsRule mid names rest) :
    LabelsRule ts (name :: names) rest := by
  induction others with
  | labels _ last ih => exact .labels (ih isLabel) last
  | label last => exact @LabelsRule.labels _ _ _ [name] _ (.label isLabel) last

private theorem readLabels_sound (ts : List Token) : readLabels ts = ([], ts) ∨
    LabelsRule ts (readLabels ts).1 (readLabels ts).2 := by
  induction ts using readLabels.induct with
  | case1 x ts ih =>
    right
    rw [readLabels]
    rcases ih with none | others
    · rw [none]
      exact .label (.label .id)
    · exact .cons (.label .id) others
  | case2 x ts ih =>
    right
    rw [readLabels]
    rcases ih with none | others
    · rw [none]
      exact .label (.label .string)
    · exact .cons (.label .string) others
  | case3 ts notId notString => exact Or.inl (readLabels.eq_3 ts notId notString)

/-- Labels are read off, and then what is behind them. -/
theorem readLabels_complete {names : List String} (isLabels : LabelsRule ts names rest) :
    names ≠ [] ∧
      readLabels ts = (names ++ (readLabels rest).1, (readLabels rest).2) := by
  induction isLabels with
  | labels _ last ih =>
    obtain ⟨isId⟩ := last
    refine ⟨by simp, ?_⟩
    rw [ih.2]
    cases isId <;> simp [readLabels]
  | label last =>
    obtain ⟨isId⟩ := last
    refine ⟨by simp, ?_⟩
    cases isId <;> simp [readLabels]

/-- No instruction starts with a label. -/
theorem readLabels_insn {s : Stmt} (isInsn : InsnRule ts s rest) : readLabels ts = ([], ts) := by
  have arg : ∀ {ts a t mid}, t ≠ Token.colon → ArgRule ts a (t :: mid) →
      readLabels ts = ([], ts) := by
    intro ts a t mid other isArg
    rcases isArg with ⟨_ | _⟩ | ⟨⟨⟩⟩ <;> simp [readLabels, other]
  cases isInsn with
  | value isType _ _ => cases isType <;> simp [readLabels]
  | load isType _ _ _ => cases isType <;> simp [readLabels]
  | store isArg _ _ _ => exact arg (by simp) isArg
  | blit isDst _ _ => exact arg (by simp) (.id isDst)
  | dealloc _ => simp [readLabels]
  | @branch _ _ _ _ op _ _ _ left _ _ => exact arg (by cases op <;> simp [Cond.token]) left
  | branchNz isArg _ => exact arg (by simp) isArg
  | branchEz _ _ => simp [readLabels]
  | jump _ => simp [readLabels]
  | call isCallee _ _ =>
    cases isCallee with
    | symbol isAddr =>
      obtain ⟨_⟩ := isAddr
      simp [readLabels]
    | id isId => exact arg (by simp) (.id isId)
  | leave _ => simp [readLabels]

end Labels

/-- Read the labels and the instruction of an element of a body. -/
def readItem : Reader Token Item := fun ts =>
  (readInsn (readLabels ts).2).map fun read =>
    ({ labels := (readLabels ts).1, stmt := read.1 }, read.2)

/-- Read elements behind semicolons, the last of which may have none behind it. -/
def readItems : Nat → Reader Token (List Item)
  | fuel + 1, .semi :: ts =>
    match readItem ts with
    | none => some ([], ts)
    | some (it, rest) => (readItems fuel rest).map fun read => (it :: read.1, read.2)
  | _, ts => some ([], ts)

/-- Read a `body_opt_term`. -/
def readBody : Reader Token Body := fun ts =>
  match readItem ts with
  | some (it, mid) =>
    (readItems mid.length mid).map fun read => ({ items := it :: read.1 }, read.2)
  | none =>
    if (readLabels ts).1 = [] then none
    else (readItems (readLabels ts).2.length (readLabels ts).2).map fun read =>
      ({ lead := (readLabels ts).1, items := read.1 }, read.2)

/-- An element of a body. -/
inductive ItemRule : Phrase Token Item where
  | labeled {ts rest mid : List Token} {names : List String} {s : Stmt}
      (isLabels : LabelsRule ts names mid) (isInsn : InsnRule mid s rest) :
      ItemRule ts { labels := names, stmt := s } rest
  | insn {ts rest : List Token} {s : Stmt} (isInsn : InsnRule ts s rest) :
      ItemRule ts { stmt := s } rest

/-- Elements, each of them behind a semicolon. -/
abbrev Items : Phrase Token (List Item) := Repeated (Behind .semi ItemRule)

/-- A body from its first element on. -/
inductive BodyItems : Phrase Token Body where
  | item {ts rest mid : List Token} {it : Item} {its : List Item} (first : ItemRule ts it mid)
      (others : Items mid its rest) : BodyItems ts { items := it :: its } rest
  | lead {ts rest mid : List Token} {names : List String} {its : List Item}
      (isLabels : LabelsRule ts names mid) (others : Items mid its rest) :
      BodyItems ts { lead := names, items := its } rest

section Bodies

variable {ts rest : List Token}

/-- Items may be added behind a semicolon. -/
theorem BodyItems.snoc {b : Body} {it : Item} {mid : List Token}
    (front : BodyItems ts b (.semi :: mid)) (isItem : ItemRule mid it rest) :
    BodyItems ts { b with items := b.items ++ [it] } rest := by
  cases front with
  | item first others => exact .item first (others.snoc (.behind isItem))
  | lead isLabels others => exact .lead isLabels (others.snoc (.behind isItem))

/-- A left-recursive body is a list of items. -/
theorem bodyRule_iff {b : Body} : BodyRule ts b rest ↔ BodyItems ts b rest := by
  constructor
  · intro isBody
    induction isBody with
    | nextLabeled _ isLabels isInsn ih => exact ih.snoc (.labeled isLabels isInsn)
    | next _ isInsn ih => exact ih.snoc (.insn isInsn)
    | labeled isLabels isInsn => exact .item (.labeled isLabels isInsn) .nil
    | lead isLabels => exact .lead isLabels .nil
    | insn isInsn => exact .item (.insn isInsn) .nil
  · have onto : ∀ {lead its mid ws}, BodyRule ts { lead, items := its } mid → Items mid ws rest →
        BodyRule ts { lead, items := its ++ ws } rest := by
      intro lead its mid ws start others
      refine Repeated.onto (fun its mid => BodyRule ts { lead, items := its } mid) ?_ start others
      rintro its it mid rest front ⟨isItem⟩
      cases isItem with
      | labeled isLabels isInsn => exact front.nextLabeled isLabels isInsn
      | insn isInsn => exact front.next isInsn
    intro isBody
    cases isBody with
    | item first others =>
      cases first with
      | labeled isLabels isInsn => exact onto (.labeled isLabels isInsn) others
      | insn isInsn => exact onto (.insn isInsn) others
    | lead isLabels others => exact onto (.lead isLabels) others

private theorem readItem_sound {it : Item} (read : readItem ts = some (it, rest)) :
    ItemRule ts it rest := by
  simp only [readItem, Option.map_eq_some_iff, Prod.exists] at read
  obtain ⟨s, last, isInsn, same⟩ := read
  cases same
  rcases readLabels_sound ts with none | isLabels
  · rw [none] at isInsn ⊢
    exact .insn (readInsn_sound isInsn)
  · exact .labeled isLabels (readInsn_sound isInsn)

private theorem readItem_complete {it : Item} (isItem : ItemRule ts it rest) (ends : InsnEnd rest) :
    readItem ts = some (it, rest) := by
  cases isItem with
  | labeled isLabels isInsn =>
    have labels := (readLabels_complete isLabels).2
    rw [readLabels_insn isInsn, List.append_nil] at labels
    simp only [readItem, labels, readInsn_complete isInsn ends, Option.map_some]
  | insn isInsn =>
    simp only [readItem, readLabels_insn isInsn, readInsn_complete isInsn ends, Option.map_some]

/-- No element starts where a body may end. -/
theorem readItem_end (ends : InsnEnd ts) : readItem ts = none := by
  obtain ⟨rest, rfl | rfl⟩ := ends <;> rfl

/-- Labels take only tokens from the front. -/
theorem LabelsRule.length_le {names : List String} (isLabels : LabelsRule ts names rest) :
    rest.length ≤ ts.length := by
  have shorter : ∀ {ts name rest}, LabelRule ts name rest → rest.length ≤ ts.length := by
    rintro ts name rest ⟨isId⟩
    have shorter := isId.shrinks
    rw [List.length_cons] at shorter
    omega
  induction isLabels with
  | labels _ last ih => exact Nat.le_trans (shorter last) ih
  | label last => exact shorter last

/-- An item takes at least one token. -/
theorem ItemRule.shrinks {it : Item} (isItem : ItemRule ts it rest) :
    rest.length < ts.length := by
  cases isItem with
  | labeled isLabels isInsn => exact Nat.lt_of_lt_of_le isInsn.shrinks isLabels.length_le
  | insn isInsn => exact isInsn.shrinks

private theorem readItems_sound {fuel : Nat} {its : List Item}
    (read : readItems fuel ts = some (its, rest)) :
    Items ts its rest ∨ Items ts its (.semi :: rest) := by
  induction fuel, ts using readItems.induct generalizing its with
  | case1 fuel ts noItem =>
    simp only [readItems, noItem] at read
    cases read
    exact Or.inr .nil
  | case2 fuel ts it mid isItem ih =>
    simp only [readItems, isItem, Option.map_eq_some_iff, Prod.exists] at read
    obtain ⟨others, last, read, same⟩ := read
    cases same
    have first : Behind .semi ItemRule (.semi :: ts) it mid := .behind (readItem_sound isItem)
    exact (ih read).imp (.cons first) (.cons first)
  | case3 fuel ts other =>
    rw [readItems.eq_2 _ _ other] at read
    cases read
    exact Or.inl .nil

private theorem insnEnd_of_items {its : List Item} (isItems : Items ts its rest)
    (ends : InsnEnd rest) : InsnEnd ts := by
  rcases isItems with _ | ⟨⟨_⟩, _⟩
  · exact ends
  · exact ⟨_, Or.inl rfl⟩

private theorem insnEnd_of_closes {last behind : List Token}
    (closes : last = .rbrace :: behind ∨ last = .semi :: .rbrace :: behind) : InsnEnd last := by
  rcases closes with rfl | rfl
  · exact ⟨_, Or.inr rfl⟩
  · exact ⟨_, Or.inl rfl⟩

/-- What is left of the elements at the end of a body: nothing, or a last semicolon. -/
theorem readItems_complete {fuel : Nat} {its : List Item} {last behind : List Token}
    (isItems : Items ts its last) (enough : ts.length ≤ fuel)
    (closes : last = .rbrace :: behind ∨ last = .semi :: .rbrace :: behind) :
    readItems fuel ts = some (its, .rbrace :: behind) := by
  have ends := insnEnd_of_closes closes
  induction isItems generalizing fuel with
  | nil =>
    rcases closes with rfl | rfl
    · cases fuel <;> rfl
    · obtain ⟨fuel, rfl⟩ := Nat.exists_eq_add_of_le' (Nat.le_trans (by simp) enough : 1 ≤ fuel)
      rfl
  | cons first others ih =>
    obtain ⟨isItem⟩ := first
    obtain ⟨fuel, rfl⟩ := Nat.exists_eq_add_of_le' (Nat.le_trans (by simp) enough : 1 ≤ fuel)
    have shorter := isItem.shrinks
    rw [List.length_cons] at enough
    have read := readItem_complete isItem (insnEnd_of_items others ends)
    have behind := ih (Nat.le_trans (Nat.le_of_lt shorter) (Nat.le_of_succ_le_succ enough)) closes
      ends
    simp only [readItems, read, behind, Option.map_some]

private theorem readBody_sound {b : Body} (read : readBody ts = some (b, rest)) :
    BodyOptTermRule ts b rest := by
  have finish : ∀ {b}, BodyItems ts b rest ∨ BodyItems ts b (.semi :: rest) →
      BodyOptTermRule ts b rest := by
    rintro b (isBody | isBody)
    · exact .body (bodyRule_iff.mpr isBody)
    · exact .term (bodyRule_iff.mpr isBody)
  unfold readBody at read
  split at read
  · rename_i it mid isItem
    simp only [Option.map_eq_some_iff, Prod.exists] at read
    obtain ⟨its, last, isItems, same⟩ := read
    cases same
    have first := readItem_sound isItem
    exact finish ((readItems_sound isItems).imp (.item first) (.item first))
  · split at read
    · cases read
    · rename_i present
      simp only [Option.map_eq_some_iff, Prod.exists] at read
      obtain ⟨its, last, isItems, same⟩ := read
      cases same
      rcases readLabels_sound ts with none | isLabels
      · exact absurd (congrArg Prod.fst none) present
      · exact finish ((readItems_sound isItems).imp (.lead isLabels) (.lead isLabels))

private theorem readBody_complete {b : Body} {behind : List Token}
    (isBody : BodyOptTermRule ts b (.rbrace :: behind)) :
    readBody ts = some (b, .rbrace :: behind) := by
  obtain ⟨last, isBody, closes⟩ : ∃ last, BodyItems ts b last ∧
      (last = .rbrace :: behind ∨ last = .semi :: .rbrace :: behind) := by
    cases isBody with
    | body isBody => exact ⟨_, bodyRule_iff.mp isBody, Or.inl rfl⟩
    | term isBody => exact ⟨_, bodyRule_iff.mp isBody, Or.inr rfl⟩
  have ends := insnEnd_of_closes closes
  cases isBody with
  | item first others =>
    have read := readItem_complete first (insnEnd_of_items others ends)
    simp only [readBody, read, readItems_complete others (Nat.le_refl _) closes, Option.map_some]
  | @lead _ _ mid names its isLabels others =>
    obtain ⟨present, labels⟩ := readLabels_complete isLabels
    have none : readLabels mid = ([], mid) := by
      obtain ⟨_, rfl | rfl⟩ := insnEnd_of_items others ends <;> rfl
    rw [none, List.append_nil] at labels
    have noInsn : readItem ts = .none := by
      have stops := readItem_end (insnEnd_of_items others ends)
      simp only [readItem, none, Option.map_eq_none_iff] at stops
      simp only [readItem, labels, stops, Option.map_none]
    simp only [readBody, noInsn, labels, if_neg present,
      readItems_complete others (Nat.le_refl _) closes, Option.map_some]

end Bodies

/-- Read a `function` behind its name and the parenthesis. -/
def readFunction (name : String) : Reader Token Function := fun ts => do
  match ← readOpt readParam ts with
  | (params, .rparen :: .lbrace :: mid) =>
    match ← readBody mid with
    | (body, .rbrace :: rest) => pure ({ name, params, body }, rest)
    | _ => none
  | _ => none

/-- Read a `top`. -/
def readTop : Reader Token Top := fun ts => do
  match ← readId ts with
  | (name, .assign :: .lbrace :: mid) =>
    match ← readOpt readInt mid with
    | (consts, .rbrace :: rest) => pure (.data name consts, rest)
    | _ => none
  | (name, .lparen :: mid) =>
    let (f, rest) ← readFunction name mid
    pure (.function f, rest)
  | _ => none

/-- Read definitions up to the end of the tokens. -/
def readTops : Nat → List Token → Option (List Top)
  | _, [] => some []
  | 0, _ :: _ => none
  | fuel + 1, t :: ts => do
    let (top, rest) ← readTop (t :: ts)
    let tops ← readTops fuel rest
    pure (top :: tops)

/-- Read an `input`. -/
def readInput (ts : List Token) : Option (List Top) := readTops ts.length ts

section Programs

variable {ts rest : List Token}

private theorem readFunction_sound {name : String} {f : Function} {start : List Token}
    (isId : IdRule start name (.lparen :: ts)) (read : readFunction name ts = some (f, rest)) :
    FunctionRule start f rest := by
  simp only [readFunction, Option.bind_eq_bind, Option.bind_eq_some_iff, Prod.exists] at read
  obtain ⟨params, mid, isParams, read⟩ := read
  split at read
  · rename_i params mid same
    cases same
    simp only [Option.bind_eq_some_iff, Prod.exists] at read
    obtain ⟨body, last, isBody, read⟩ := read
    split at read
    · rename_i body last same
      cases same
      cases read
      exact .function isId (readParam_decides.sound isParams) (readBody_sound isBody)
    · cases read
  · cases read

private theorem readTop_iff {top : Top} : readTop ts = some (top, rest) ↔ TopRule ts top rest := by
  constructor
  · intro read
    simp only [readTop, Option.bind_eq_bind, Option.bind_eq_some_iff, Prod.exists] at read
    obtain ⟨name, mid, isId, read⟩ := read
    split at read
    · rename_i name mid same
      cases same
      simp only [Option.bind_eq_some_iff, Prod.exists] at read
      obtain ⟨consts, last, isConsts, read⟩ := read
      split at read
      · rename_i consts last same
        cases same
        cases read
        exact .data (.data (readId_iff.mp isId) (readInt_decides.sound isConsts))
      · cases read
    · rename_i name mid same
      cases same
      simp only [Option.bind_eq_some_iff, Prod.exists] at read
      obtain ⟨f, last, isFunction, same⟩ := read
      cases same
      exact .function (readFunction_sound (readId_iff.mp isId) isFunction)
    · cases read
  · rintro (⟨isId, isConsts⟩ | ⟨isId, isParams, isBody⟩)
    · have consts := readInt_decides.complete isConsts ⟨_, Or.inr rfl⟩
      simp only [readTop, readId_iff.mpr isId, Option.bind_eq_bind, Option.bind_some, consts]
      rfl
    · have params := readParam_decides.complete isParams ⟨_, Or.inl rfl⟩
      simp only [readTop, readId_iff.mpr isId, readFunction, params, readBody_complete isBody,
        Option.bind_eq_bind, Option.bind_some]
      rfl

/-- A body takes only tokens from the front. -/
theorem BodyOptTermRule.length_le {b : Body} (isBody : BodyOptTermRule ts b rest) :
    rest.length ≤ ts.length := by
  have items : ∀ {its mid rest}, Items mid its rest → rest.length ≤ mid.length := by
    intro its mid rest isItems
    refine isItems.length_le ?_
    rintro ts it rest ⟨isItem⟩
    exact Nat.le_succ_of_le (Nat.le_of_lt isItem.shrinks)
  have body : ∀ {rest}, BodyRule ts b rest → rest.length ≤ ts.length := by
    intro rest isBody
    cases bodyRule_iff.mp isBody with
    | item first others => exact Nat.le_trans (items others) (Nat.le_of_lt first.shrinks)
    | lead isLabels others => exact Nat.le_trans (items others) isLabels.length_le
  cases isBody with
  | body isBody => exact body isBody
  | term isBody => exact Nat.le_of_succ_le (body isBody)

/-- A definition takes at least one token. -/
theorem TopRule.shrinks {top : Top} (isTop : TopRule ts top rest) : rest.length < ts.length := by
  rcases isTop with ⟨isId, isConsts⟩ | ⟨isId, isParams, isBody⟩
  · have shorter := isConsts.length_le IntRule.shrinks
    have start := isId.shrinks
    simp only [List.length_cons] at *
    omega
  · have shorter := isBody.length_le
    have params := isParams.length_le ParamRule.shrinks
    have start := isId.shrinks
    simp only [List.length_cons] at *
    omega

private theorem readTops_sound {fuel : Nat} {tops : List Top}
    (read : readTops fuel ts = some tops) : Repeated TopRule ts tops [] := by
  induction fuel generalizing ts tops with
  | zero =>
    cases ts with
    | nil =>
      cases read
      exact .nil
    | cons t ts => cases read
  | succ fuel ih =>
    cases ts with
    | nil =>
      cases read
      exact .nil
    | cons t ts =>
      simp only [readTops, Option.bind_eq_bind, Option.bind_eq_some_iff, Prod.exists] at read
      obtain ⟨top, rest, isTop, tops, others, same⟩ := read
      cases same
      exact .cons (readTop_iff.mp isTop) (ih others)

/-- Definitions that end the input are read with enough fuel. -/
theorem readTops_complete {fuel : Nat} {tops : List Top} (isTops : Repeated TopRule ts tops rest)
    (finished : rest = []) (enough : ts.length ≤ fuel) : readTops fuel ts = some tops := by
  induction isTops generalizing fuel with
  | nil =>
    subst finished
    cases fuel <;> rfl
  | @cons ts mid rest top tops first others ih =>
    have shorter := first.shrinks
    obtain ⟨fuel, rfl⟩ := Nat.exists_eq_add_of_le' (by omega : 1 ≤ fuel)
    cases ts with
    | nil => simp at shorter
    | cons t ts =>
      have behind := ih finished (Nat.le_of_lt_succ (Nat.lt_of_lt_of_le shorter enough))
      simp only [readTops, readTop_iff.mpr first, behind, Option.bind_eq_bind, Option.bind_some]
      rfl

private theorem inputRule_iff {tops : List Top} :
    InputRule ts tops ↔ Repeated TopRule ts tops [] := by
  constructor
  · intro isInput
    cases isInput with
    | empty => exact .nil
    | unit isUnit =>
      generalize ([] : List Token) = rest at isUnit
      induction isUnit with
      | unit _ isTop ih => exact ih.snoc isTop
      | top isTop => exact .cons isTop .nil
  · intro isTops
    cases isTops with
    | nil => exact .empty
    | cons first others =>
      exact .unit (Repeated.onto (fun tops mid => UnitRule ts tops mid) .unit (.top first) others)

/-- What is read is derived by the grammar. -/
theorem readInput_sound {tops : List Top} (read : readInput ts = some tops) : InputRule ts tops :=
  inputRule_iff.mpr (readTops_sound read)

/-- What is derived by the grammar is read. -/
theorem readInput_complete {tops : List Top} (derived : InputRule ts tops) :
    readInput ts = some tops :=
  readTops_complete (inputRule_iff.mp derived) rfl (Nat.le_refl _)

/-- What the grammar derives from tokens is what is read off them, so that they have one parse
tree at most. -/
theorem readInput_iff {tops : List Top} : readInput ts = some tops ↔ InputRule ts tops :=
  ⟨readInput_sound, readInput_complete⟩

end Programs

end Qbt.Frontend
