import Qbt.Correct.Keeps
import Qbt.IR.Uses

/-!
# The visits of correction

The loop of `correct` visits the instructions of a block one by one, and what it inserts
makes it visit some of them again. A `Visit` is the state in which an instruction is
visited, `Visited` is everything the visit can put in its place, and `Walk` is the loop
as a relation between lists of instructions.
-/

namespace Qbt.Correct

/-- An instruction that is visited, with the rules and the counter at that time. -/
structure Visit where
  rules : List Val
  ri : Nat
  i : Insn
deriving DecidableEq, Repr

namespace Visit

/-- An input is an addressed local and is loaded. -/
def loads (v : Visit) : Bool := hasRewriteRule v.rules v.i.in0 || hasRewriteRule v.rules v.i.in1

/-- The output is an addressed local and is redirected. -/
def redirects (v : Visit) : Bool := !v.loads && hasRewriteRule v.rules v.i.out

/-- The numbers of the temporaries of the instructions the visit inserts. -/
def inserted (v : Visit) : List Nat :=
  if v.loads then [v.ri]
  else (if v.redirects then [v.ri] else []) ++ if (spilled v.i).isSome then [v.ri] else []

end Visit

/-- What stands in front of an instruction when an input has been loaded, and the
instruction then. -/
def loadedBy (type : InsnType) (v : Val) (ri : Nat) (i : Insn) (idx : Fin 2) : List Insn :=
  [insnCreate type .i27 (.tmp ri) v .noclass 0, i.setInput idx (.tmp ri)]

/-- What `store_rewrite` makes of the instruction, and what it inserts behind it. -/
inductive Redirected (v : Visit) : Insn → List Insn → Prop where
  | kept (unruled : hasRewriteRule v.rules v.i.out = false) : Redirected v v.i []
  | stored {a : Val} (rule : rewriteTmp v.rules v.i.out = .ok a) :
      Redirected v { v.i with out := .tmp v.ri }
        [insnCreate .store .i27 (.tmp v.ri) a .noclass 0]

/-- What the operand corrections make of an instruction, which stands as `current` in the
block: the instructions in its place, the rules and the counter. -/
inductive Settled (v : Visit) (current : Insn) : List Insn → List Val → Nat → Prop where
  | kept (unspilled : spilled v.i = none)
      (unswapped : v.i.type = .add ∨ v.i.type = .mul → v.i.in0.isImm = false)
      (unaddressed : v.i.type = .addr → v.i.in0.isTmp = false) :
      Settled v current [current] v.rules v.ri
  | swapped (unspilled : spilled v.i = none) (commutes : v.i.type = .add ∨ v.i.type = .mul)
      (imm : v.i.in0.isImm) :
      Settled v current [{ v.i with in0 := v.i.in1, in1 := v.i.in0 }] v.rules v.ri
  | addressed {rules : List Val} (unspilled : spilled v.i = none) (addr : v.i.type = .addr)
      (isTmp : v.i.in0.isTmp) (ruled : addRewriteRule v.rules v.i.in0 v.i.out = .ok rules) :
      Settled v current [current] rules v.ri
  | spilled {idx : Fin 2} {type : InsnType} (spills : spilled v.i = some (idx, type)) :
      Settled v current (loadedBy type (v.i.input idx) v.ri v.i idx) v.rules (v.ri + 1)

/-- Everything a visit can put in the place of the instruction, with the rules and the
counter behind it. -/
inductive Visited (v : Visit) : List Insn → List Val → Nat → Prop where
  | loaded {idx : Fin 2} {a : Val} (rule : rewriteTmp v.rules (v.i.input idx) = .ok a)
      (first : idx = 1 → hasRewriteRule v.rules v.i.in0 = false) :
      Visited v (loadedBy .load a v.ri v.i idx) v.rules (v.ri + 1)
  | settled {current : Insn} {middle behind : List Insn} {rules : List Val} {ri : Nat}
      (unloaded : v.loads = false) (redirected : Redirected v current behind)
      (settled : Settled v current middle rules ri) : Visited v (middle ++ behind) rules ri

section Rules

variable {rules rules' : List Val} {v w : Val}

/-- The rule for a temporary, or none. -/
def ruleAt (rules : List Val) (t : Nat) : Val := rules.getD t .noclass

/-- The temporaries that have a rule. -/
def ruled (rules : List Val) : Set Nat := { t | (ruleAt rules t).hasclass }

/-- Without rules no temporary is ruled. -/
theorem ruled_nil : ruled [] = ∅ := by
  ext t
  simp [ruled, ruleAt, Val.hasclass]

/-- There is a rule for the ruled temporaries. -/
theorem hasRewriteRule_iff : hasRewriteRule rules v ↔ ∃ t ∈ ruled rules, v = .tmp t := by
  cases v <;> simp [hasRewriteRule, ruled, ruleAt]

/-- Ruled temporaries are rewritten, to what the rule says. -/
theorem rewriteTmp_eq_ok :
    rewriteTmp rules v = .ok w ↔ ∃ t ∈ ruled rules, v = .tmp t ∧ ruleAt rules t = w := by
  cases v with
  | tmp t =>
    have reads : ruleAt rules t = (rules[t]?).getD .noclass := List.getD_eq_getElem?_getD
    cases found : rules[t]? with
    | none => simp [rewriteTmp, ruled, reads, found, Val.hasclass]
    | some value => cases value <;> simp [rewriteTmp, ruled, reads, found, Val.hasclass]
  | _ => simp [rewriteTmp]

/-- A rule is found where there is one. -/
theorem rewriteTmp_of_hasRewriteRule (has : hasRewriteRule rules v) :
    ∃ a, rewriteTmp rules v = .ok a := by
  obtain ⟨t, member, rfl⟩ := hasRewriteRule_iff.mp has
  exact ⟨_, rewriteTmp_eq_ok.mpr ⟨t, member, rfl, rfl⟩⟩

/-- What is rewritten has a rule. -/
theorem hasRewriteRule_of_rewriteTmp (rewritten : rewriteTmp rules v = .ok w) :
    hasRewriteRule rules v := by
  obtain ⟨t, member, rfl, _⟩ := rewriteTmp_eq_ok.mp rewritten
  exact hasRewriteRule_iff.mpr ⟨t, member, rfl⟩

/-- Rules lead from temporaries to temporaries. -/
theorem addRewriteRule_eq_ok : addRewriteRule rules v w = .ok rules' ↔
    ∃ t s, v = .tmp t ∧ w = .tmp s ∧ rules' = Padded.write .noclass rules t (.tmp s) := by
  cases v <;> cases w <;> simp [addRewriteRule, eq_comm]

/-- Every rule leads to a temporary that `P` allows. -/
def RulesTo (P : Nat → Prop) (rules : List Val) : Prop :=
  ∀ t ∈ ruled rules, ∃ s, ruleAt rules t = .tmp s ∧ P s

theorem rulesTo_nil {P : Nat → Prop} : RulesTo P [] := by
  intro t member
  simp [ruled, ruleAt, Val.hasclass] at member

/-- A new rule leads where it says, and changes no other. -/
theorem ruleAt_write {t s : Nat} (other : Nat) :
    ruleAt (Padded.write .noclass rules t (.tmp s)) other =
      if other = t then .tmp s else ruleAt rules other :=
  Padded.getD_write rules t other (.tmp s)

/-- A new rule makes one more temporary ruled. -/
theorem ruled_write {t s : Nat} :
    ruled (Padded.write .noclass rules t (.tmp s)) = insert t (ruled rules) := by
  ext other
  simp only [ruled, Set.mem_ofPred_eq, ruleAt_write, Set.mem_insert_iff]
  split <;> simp [*, Val.hasclass]

theorem RulesTo.mono {P Q : Nat → Prop} (leads : RulesTo P rules) (weaker : ∀ s, P s → Q s) :
    RulesTo Q rules := by
  intro t member
  obtain ⟨s, rule, allowed⟩ := leads t member
  exact ⟨s, rule, weaker s allowed⟩

/-- A rule to an allowed temporary keeps all rules allowed. -/
theorem RulesTo.write {P : Nat → Prop} (leads : RulesTo P rules) {t s : Nat} (allowed : P s) :
    RulesTo P (Padded.write .noclass rules t (.tmp s)) := by
  intro other member
  rw [ruled_write] at member
  rw [ruleAt_write]
  by_cases same : other = t
  · exact ⟨s, if_pos same, allowed⟩
  · rw [if_neg same]
    exact leads other (member.resolve_left same)

/-- What a rule puts in the place of an operand. -/
theorem RulesTo.of_rewriteTmp {P : Nat → Prop} (leads : RulesTo P rules)
    (rewritten : rewriteTmp rules v = .ok w) : ∃ s, w = .tmp s ∧ P s := by
  obtain ⟨t, member, _, rfl⟩ := rewriteTmp_eq_ok.mp rewritten
  exact leads t member

end Rules

/-- An instruction that is not loaded into has no reference but a callee. -/
theorem spilled_eq_none {i : Insn} : spilled i = none ↔
    (i.type ≠ .call → i.in0.isRef = false) ∧ i.in1.isRef = false ∧ spilledImm i = none := by
  unfold spilled
  by_cases ref0 : i.type ≠ .call ∧ i.in0.isRef
  · simp [ref0]
  · rw [if_neg ref0]
    have callee : i.type ≠ .call → i.in0.isRef = false := by simpa using ref0
    by_cases ref1 : i.in1.isRef
    · simp [ref1]
    · rw [if_neg ref1]
      exact ⟨fun kept => ⟨callee, by simpa using ref1, kept⟩, fun kept => kept.2.2⟩

private theorem spilledImm_eq_some {i : Insn} {idx : Fin 2} {type : InsnType}
    (spills : spilledImm i = some (idx, type)) : type = .copy ∧ (i.input idx).isImm := by
  unfold spilledImm at spills
  cases kind : i.type <;> simp only [kind] at spills
  case beq | bne | ble | bge | blt | bgt | bnz | bez =>
    by_cases imm0 : i.in0.isImm
    · rw [if_pos imm0] at spills
      cases spills
      exact ⟨rfl, imm0⟩
    · rw [if_neg imm0] at spills
      by_cases imm1 : i.in1.isImm
      · rw [if_pos imm1] at spills
        cases spills
        exact ⟨rfl, imm1⟩
      · rw [if_neg imm1] at spills
        cases spills
  case store =>
    by_cases imm : i.in1.isImm
    · rw [if_pos imm] at spills
      cases spills
      exact ⟨rfl, imm⟩
    · rw [if_neg imm] at spills
      cases spills
  case sub | div | rem | lshift | rshift | lt | le | gt | ge | eq | ne =>
    by_cases imm : i.in0.isImm
    · rw [if_pos imm] at spills
      cases spills
      exact ⟨rfl, imm⟩
    · rw [if_neg imm] at spills
      cases spills
  all_goals cases spills

/-- References are loaded by ADDR, immediates by COPY. -/
theorem spilled_eq_some {i : Insn} {idx : Fin 2} {type : InsnType}
    (spills : spilled i = some (idx, type)) :
    type = .addr ∧ (i.input idx).isRef ∨
      type = .copy ∧ (i.input idx).isImm ∧ spilledImm i = some (idx, .copy) := by
  unfold spilled at spills
  by_cases ref0 : i.type ≠ .call ∧ i.in0.isRef
  · rw [if_pos ref0] at spills
    cases spills
    exact Or.inl ⟨rfl, ref0.2⟩
  by_cases ref1 : i.in1.isRef
  · rw [if_neg ref0, if_pos ref1] at spills
    cases spills
    exact Or.inl ⟨rfl, ref1⟩
  rw [if_neg ref0, if_neg ref1] at spills
  obtain ⟨rfl, imm⟩ := spilledImm_eq_some spills
  exact Or.inr ⟨rfl, imm, spills⟩

section Visited

variable {v : Visit} {m : Insn} {rest : List Insn} {rules : List Val} {ri : Nat}

/-- A redirected instruction differs in its output only. -/
theorem Redirected.eq {current : Insn} {behind : List Insn}
    (redirected : Redirected v current behind) : current = { v.i with out := current.out } := by
  cases redirected <;> rfl

/-- Only the address of a local that is not loaded makes a rule. -/
theorem Visited.rules_cases {middle : List Insn} (visited : Visited v middle rules ri) :
    rules = v.rules ∨ ∃ t s, v.i.type = .addr ∧ v.i.in0 = .tmp t ∧ v.i.out = .tmp s ∧
      rules = Padded.write .noclass v.rules t (.tmp s) := by
  cases visited with
  | loaded => exact Or.inl rfl
  | settled _ _ settled =>
    cases settled with
    | addressed _ addr _ ruled =>
      obtain ⟨t, s, in0, out, rules⟩ := addRewriteRule_eq_ok.mp ruled
      exact Or.inr ⟨t, s, addr, in0, out, rules⟩
    | _ => exact Or.inl rfl

/-- Rules keep leading where the outputs of instructions that take addresses do. -/
theorem Visited.rulesTo {P : Nat → Prop} {middle : List Insn} (visited : Visited v middle rules ri)
    (leads : RulesTo P v.rules) (out : ∀ s, v.i.out = .tmp s → P s) : RulesTo P rules := by
  rcases visited.rules_cases with rfl | ⟨t, s, _, _, isTmp, rfl⟩
  · exact leads
  · exact leads.write (out s isTmp)

end Visited

section Visit

variable {p p' : Pass} {ii : Nat} {i : Insn}

private theorem storeRewrite_redirected {before after : List Insn}
    (split : p.b.insns = before ++ i :: after) (index : before.length = ii)
    (stored : storeRewrite p ii i = .ok p') :
    ∃ current behind, Redirected ⟨p.rules, p.ri, i⟩ current behind ∧
      p'.b.insns = before ++ current :: (behind ++ after) ∧ p'.rules = p.rules ∧ p'.ri = p.ri := by
  subst index
  simp only [storeRewrite, Result.bind_eq_ok, setInsn_eq_ok, insnInsert_eq_ok, Result.pure_eq,
    Except.ok.injEq] at stored
  obtain ⟨a, rule, _, ⟨_, rfl⟩, _, ⟨_, rfl⟩, rfl⟩ := stored
  refine ⟨_, _, .stored rule, ?_, rfl, rfl⟩
  have behind := Lists.insertIdx_length (before ++ [{ i with out := .tmp p.ri }]) after
    (insnCreate .store .i27 (.tmp p.ri) a .noclass 0)
  rw [List.length_append, List.append_assoc] at behind
  simpa [split] using behind

private theorem correctArith_settled {before after : List Insn} {current : Insn}
    (split : p.b.insns = before ++ current :: after) (index : before.length = ii)
    (unspilled : spilled i = none) (commutes : i.type = .add ∨ i.type = .mul)
    (corrected : correctArith p ii i = .ok p') :
    ∃ middle, Settled ⟨p.rules, p.ri, i⟩ current middle p'.rules p'.ri ∧
      p'.b.insns = before ++ middle ++ after := by
  subst index
  unfold correctArith at corrected
  by_cases imm : i.in0.isImm
  · rw [if_pos imm] at corrected
    simp only [Result.bind_eq_ok, setInsn_eq_ok, Result.pure_eq, Except.ok.injEq] at corrected
    obtain ⟨_, ⟨_, rfl⟩, rfl⟩ := corrected
    exact ⟨_, .swapped unspilled commutes imm, by simp [split]⟩
  · rw [if_neg imm, if_neg imm] at corrected
    obtain rfl : p = p' := by simpa using corrected
    refine ⟨_, .kept unspilled (fun _ => by simpa using imm) (fun addr => ?_), by simp [split]⟩
    have type : i.type = .addr := addr
    simp [type] at commutes

private theorem correctAddr_settled {before after : List Insn} {current : Insn}
    (split : p.b.insns = before ++ current :: after) (unspilled : spilled i = none)
    (addr : i.type = .addr) (corrected : correctAddr p i = .ok p') :
    ∃ middle, Settled ⟨p.rules, p.ri, i⟩ current middle p'.rules p'.ri ∧
      p'.b.insns = before ++ middle ++ after := by
  unfold correctAddr at corrected
  by_cases isTmp : i.in0.isTmp
  · rw [if_pos isTmp] at corrected
    simp only [Result.bind_eq_ok, Result.pure_eq, Except.ok.injEq] at corrected
    obtain ⟨rules, ruled, rfl⟩ := corrected
    exact ⟨_, .addressed unspilled addr isTmp ruled, by simp [split]⟩
  · rw [if_neg isTmp] at corrected
    obtain rfl : p = p' := by simpa using corrected
    refine ⟨_, .kept unspilled (fun commutes => ?_) (fun _ => by simpa using isTmp),
      by simp [split]⟩
    have type : i.type = .add ∨ i.type = .mul := commutes
    simp [addr] at type

/-- The operand corrections load what `spilled` says, and otherwise exchange operands, add
a rule or do nothing. -/
theorem correctOperands_settled {before after : List Insn} {current : Insn}
    (split : p.b.insns = before ++ current :: after) (index : before.length = ii)
    (corrected : correctOperands p ii i = .ok p') :
    ∃ middle, Settled ⟨p.rules, p.ri, i⟩ current middle p'.rules p'.ri ∧
      p'.b.insns = before ++ middle ++ after := by
  have loads {idx : Fin 2} {type : InsnType} (spills : spilled i = some (idx, type))
      (inserted : insertBefore p ii i idx
        (insnCreate type .i27 (.tmp p.ri) (i.input idx) .noclass 0) = .ok p') :
      ∃ middle, Settled ⟨p.rules, p.ri, i⟩ current middle p'.rules p'.ri ∧
        p'.b.insns = before ++ middle ++ after := by
    obtain ⟨insns, rules, ri⟩ := insertBefore_split split index inserted
    rw [rules, ri, insns]
    exact ⟨_, .spilled spills, rfl⟩
  have stays (unspilled : spilled i = none) (noArith : ¬ (i.type = .add ∨ i.type = .mul))
      (noAddr : i.type ≠ .addr) (same : p = p') :
      ∃ middle, Settled ⟨p.rules, p.ri, i⟩ current middle p'.rules p'.ri ∧
        p'.b.insns = before ++ middle ++ after := by
    subst same
    exact ⟨_, .kept unspilled (fun commutes => absurd commutes noArith)
      (fun addr => absurd addr noAddr), by simp [split]⟩
  unfold correctOperands at corrected
  by_cases ref0 : i.type ≠ .call ∧ i.in0.isRef
  · rw [if_pos ref0] at corrected
    exact loads (by simp [spilled, ref0]) corrected
  by_cases ref1 : i.in1.isRef
  · rw [if_neg ref0, if_pos ref1] at corrected
    exact loads (by rw [spilled, if_neg ref0, if_pos ref1]) corrected
  rw [if_neg ref0, if_neg ref1] at corrected
  have spills : spilled i = spilledImm i := by rw [spilled, if_neg ref0, if_neg ref1]
  unfold spilledImm at spills
  cases type : i.type <;> simp only [type] at corrected spills
  case add | mul => exact correctArith_settled split index spills (by simp [type]) corrected
  case sub | div | rem | lshift | rshift =>
    unfold correctPositionalArith at corrected
    by_cases imm : i.in0.isImm
    · rw [if_pos imm] at corrected spills
      exact loads spills corrected
    · rw [if_neg imm] at corrected spills
      exact stays spills (by simp [type]) (by simp [type]) (by simpa using corrected)
  case lt | le | gt | ge | eq | ne =>
    unfold correctRelations at corrected
    by_cases imm : i.in0.isImm
    · rw [if_pos imm] at corrected spills
      exact loads spills corrected
    · rw [if_neg imm] at corrected spills
      exact stays spills (by simp [type]) (by simp [type]) (by simpa using corrected)
  case beq | bne | ble | bge | blt | bgt | bnz | bez =>
    unfold correctBranch at corrected
    by_cases imm0 : i.in0.isImm
    · rw [if_pos imm0] at corrected spills
      exact loads spills corrected
    rw [if_neg imm0] at corrected spills
    by_cases imm1 : i.in1.isImm
    · rw [if_pos imm1] at corrected spills
      exact loads spills corrected
    · rw [if_neg imm1] at corrected spills
      exact stays spills (by simp [type]) (by simp [type]) (by simpa using corrected)
  case store =>
    unfold correctStore at corrected
    by_cases imm : i.in1.isImm
    · rw [if_pos imm] at corrected spills
      exact loads spills corrected
    · rw [if_neg imm] at corrected spills
      exact stays spills (by simp [type]) (by simp [type]) (by simpa using corrected)
  case addr => exact correctAddr_settled split spills type corrected
  all_goals exact stays spills (by simp [type]) (by simp [type]) (by simpa using corrected)

/-- Everything `correct_insn` can do. -/
theorem correctInsn_visited {before after : List Insn}
    (split : p.b.insns = before ++ i :: after) (index : before.length = ii)
    (corrected : correctInsn p ii i = .ok p') :
    ∃ middle, Visited ⟨p.rules, p.ri, i⟩ middle p'.rules p'.ri ∧
      p'.b.insns = before ++ middle ++ after := by
  have loads {idx : Fin 2} (first : idx = 1 → hasRewriteRule p.rules i.in0 = false)
      (loaded : loadRewrite p ii i idx = .ok p') :
      ∃ middle, Visited ⟨p.rules, p.ri, i⟩ middle p'.rules p'.ri ∧
        p'.b.insns = before ++ middle ++ after := by
    obtain ⟨a, rule, inserted⟩ := Result.bind_eq_ok.mp loaded
    obtain ⟨insns, rules, ri⟩ := insertBefore_split split index inserted
    rw [rules, ri, insns]
    exact ⟨_, .loaded rule first, rfl⟩
  unfold correctInsn at corrected
  by_cases rule0 : hasRewriteRule p.rules i.in0
  · rw [if_pos rule0] at corrected
    exact loads (fun other => absurd other (by decide)) corrected
  by_cases rule1 : hasRewriteRule p.rules i.in1
  · rw [if_neg rule0, if_pos rule1] at corrected
    exact loads (fun _ => by simpa using rule0) corrected
  rw [if_neg rule0, if_neg rule1] at corrected
  have unloaded : Visit.loads ⟨p.rules, p.ri, i⟩ = false := by simp [Visit.loads, rule0, rule1]
  by_cases rule : hasRewriteRule p.rules i.out
  · rw [if_pos rule] at corrected
    obtain ⟨q, stored, corrected⟩ := Result.bind_eq_ok.mp corrected
    obtain ⟨current, behind, redirected, split', rules, ri⟩ :=
      storeRewrite_redirected split index stored
    obtain ⟨middle, settled, insns⟩ := correctOperands_settled split' index corrected
    rw [rules, ri] at settled
    exact ⟨_, .settled unloaded redirected settled, by simp [insns]⟩
  · rw [if_neg rule] at corrected
    obtain ⟨middle, settled, insns⟩ := correctOperands_settled split index corrected
    have kept : Redirected ⟨p.rules, p.ri, i⟩ i [] := .kept (by simpa using rule)
    exact ⟨_, .settled unloaded kept settled, by simp [insns]⟩

end Visit

/-- The visits of the loop from index `ii` on. -/
def visits : Nat → Nat → Pass → List Visit
  | fuel, ii, p =>
    match p.b.insns[ii]? with
    | none => []
    | some i =>
      match fuel with
      | 0 => []
      | fuel + 1 =>
        match correctInsn p ii i with
        | .error _ => []
        | .ok p' => ⟨p.rules, p.ri, i⟩ :: visits fuel (ii + 1) p'

/-- The loop over a list of instructions: what the first instruction is replaced by is
left behind it up to the first entry, and the others are visited next. -/
inductive Walk : List Val → Nat → List Insn → List Visit → List Insn → List Val → Nat → Prop where
  | nil {rules : List Val} {ri : Nat} : Walk rules ri [] [] [] rules ri
  | cons {rules rules' rules'' : List Val} {ri ri' ri'' : Nat} {i m : Insn}
      {rest todo out : List Insn} {vs : List Visit}
      (visited : Visited ⟨rules, ri, i⟩ (m :: rest) rules' ri')
      (walk : Walk rules' ri' (rest ++ todo) vs out rules'' ri'') :
      Walk rules ri (i :: todo) (⟨rules, ri, i⟩ :: vs) (m :: out) rules'' ri''

/-- A visit leaves an instruction in the place of the visited one. -/
theorem Visited.nonempty {v : Visit} {middle : List Insn} {rules : List Val} {ri : Nat}
    (visited : Visited v middle rules ri) : ∃ m rest, middle = m :: rest := by
  cases visited with
  | loaded => exact ⟨_, _, rfl⟩
  | settled _ _ settled => cases settled <;> exact ⟨_, _, rfl⟩

/-- The loop of `correct` is a walk. -/
theorem correctInsns_walk {fuel ii : Nat} {p p' : Pass} {before todo : List Insn}
    (split : p.b.insns = before ++ todo) (index : before.length = ii)
    (corrected : correctInsns fuel ii p = .ok p') :
    ∃ out, p'.b.insns = before ++ out ∧
      Walk p.rules p.ri todo (visits fuel ii p) out p'.rules p'.ri := by
  induction fuel generalizing ii p before todo with
  | zero =>
    cases todo with
    | nil =>
      have beyond : p.b.insns[ii]? = none := by simp [split, index]
      rw [correctInsns, beyond] at corrected
      obtain rfl : p = p' := by simpa using corrected
      refine ⟨[], split, ?_⟩
      rw [visits, beyond]
      exact .nil
    | cons i todo =>
      have here : p.b.insns[ii]? = some i := by simp [split, ← index]
      rw [correctInsns, here] at corrected
      cases corrected
  | succ fuel ih =>
    cases todo with
    | nil =>
      have beyond : p.b.insns[ii]? = none := by simp [split, index]
      rw [correctInsns, beyond] at corrected
      obtain rfl : p = p' := by simpa using corrected
      refine ⟨[], split, ?_⟩
      rw [visits, beyond]
      exact .nil
    | cons i todo =>
      have here : p.b.insns[ii]? = some i := by simp [split, ← index]
      rw [correctInsns, here] at corrected
      obtain ⟨q, first, others⟩ := Result.bind_eq_ok.mp corrected
      obtain ⟨middle, visited, insns⟩ := correctInsn_visited split index first
      obtain ⟨m, rest, rfl⟩ := visited.nonempty
      have split' : q.b.insns = (before ++ [m]) ++ (rest ++ todo) := by simp [insns]
      obtain ⟨out, insns', walk⟩ := ih split' (by simp [index]) others
      refine ⟨m :: out, by simp [insns'], ?_⟩
      rw [visits, here]
      simp only [first]
      exact .cons visited walk

/-- The corrections of the comparison append copies. -/
theorem correctCmps_insns (q : Pass) : ∃ copies, (∀ n ∈ copies, n.type = .copy) ∧
    (correctCmp1 (correctCmp0 q)).b.insns = q.b.insns ++ copies := by
  unfold correctCmp1 correctCmp0
  split <;> split <;>
    first
    | exact ⟨_, by simp [insnCreate], rfl⟩
    | exact ⟨_, by simp [insnCreate], List.append_assoc _ _ _⟩
    | exact ⟨[], by simp, (List.append_nil _).symm⟩

@[simp] theorem correctCmps_rules (q : Pass) :
    (correctCmp1 (correctCmp0 q)).rules = q.rules := by
  unfold correctCmp1 correctCmp0
  split <;> split <;> rfl

/-- Correcting the comparison only adds temporaries. -/
theorem correctCmps_ri_le (q : Pass) : q.ri ≤ (correctCmp1 (correctCmp0 q)).ri := by
  unfold correctCmp1 correctCmp0
  split <;> split <;> first | exact Nat.le_refl _ | (simp only; omega)

/-- A block is walked through before its comparison is corrected. -/
theorem correctBlk_walk {fuel : Nat} {p p' : Pass} (corrected : correctBlk fuel p = .ok p') :
    ∃ q, correctInsns fuel 0 p = .ok q ∧ p' = correctCmp1 (correctCmp0 q) ∧
      q.b.cmp0 = p.b.cmp0 ∧ q.b.cmp1 = p.b.cmp1 ∧
        Walk p.rules p.ri p.b.insns (visits fuel 0 p) q.b.insns q.rules q.ri := by
  simp only [correctBlk, Result.bind_eq_ok, Result.pure_eq, Except.ok.injEq] at corrected
  obtain ⟨q, first, rfl⟩ := corrected
  have split : p.b.insns = [] ++ p.b.insns := rfl
  obtain ⟨out, insns, walk⟩ := correctInsns_walk split rfl first
  rw [List.nil_append] at insns
  have keeps := correctInsns_keeps first
  exact ⟨q, first, rfl, by rw [keeps], by rw [keeps], by rw [insns]; exact walk⟩

/-- The visits of the remaining blocks, one list for each block. -/
def blksVisits (fuel : Nat) : List Blk → List Val → Nat → List (List Visit)
  | [], _, _ => []
  | b :: rest, rules, ri =>
    visits fuel 0 { b, rules, ri } ::
      match correctBlk fuel { b, rules, ri } with
      | .error _ => []
      | .ok p => blksVisits fuel rest p.rules p.ri

/-- What `correct` does to its first block, and to the others behind it. -/
theorem correctBlks_cons {fuel ri ri' : Nat} {b : Blk} {rest blks' : List Blk} {rules : List Val}
    (corrected : correctBlks fuel (b :: rest) rules ri = .ok (blks', ri')) :
    ∃ p rest', correctBlk fuel { b, rules, ri } = .ok p ∧
      correctBlks fuel rest p.rules p.ri = .ok (rest', ri') ∧ blks' = p.b :: rest' := by
  simp only [correctBlks, Result.bind_eq_ok, Result.pure_eq, Except.ok.injEq,
    Prod.mk.injEq, Prod.exists] at corrected
  obtain ⟨p, first, rest', ri'', others, rfl, rfl⟩ := corrected
  exact ⟨p, rest', first, others, rfl⟩

/-- Without blocks nothing is corrected. -/
theorem correctBlks_nil {fuel ri ri' : Nat} {blks' : List Blk} {rules : List Val}
    (corrected : correctBlks fuel [] rules ri = .ok (blks', ri')) : blks' = [] ∧ ri' = ri := by
  simp only [correctBlks, Result.pure_eq, Except.ok.injEq, Prod.mk.injEq] at corrected
  exact ⟨corrected.1.symm, corrected.2.symm⟩

/-- Every corrected block is what a walk leaves, and copies behind it. -/
theorem correctBlks_walks {fuel ri ri' : Nat} {blks blks' : List Blk} {rules : List Val}
    (corrected : correctBlks fuel blks rules ri = .ok (blks', ri')) :
    List.Forall₂ (fun b vs => ∃ rules ri todo out copies rules' ri',
      Walk rules ri todo vs out rules' ri' ∧ b.insns = out ++ copies)
      blks' (blksVisits fuel blks rules ri) := by
  induction blks generalizing rules ri blks' with
  | nil =>
    obtain ⟨rfl, rfl⟩ := correctBlks_nil corrected
    exact .nil
  | cons b rest ih =>
    obtain ⟨p, rest', first, others, rfl⟩ := correctBlks_cons corrected
    rw [blksVisits, first]
    refine .cons ?_ (ih others)
    obtain ⟨q, -, rfl, -, -, walk⟩ := correctBlk_walk first
    obtain ⟨copies, -, insns⟩ := correctCmps_insns q
    exact ⟨_, _, _, _, copies, _, _, walk, insns⟩

end Qbt.Correct
