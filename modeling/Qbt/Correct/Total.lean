import Qbt.Correct.Visits

/-!
# Correction ends

An input is open if it is still to be loaded: an addressed local, a reference or an immediate.
Whenever an instruction is visited again one of its open inputs has been closed, since the
temporary that replaces it is above everything that has a rule. What is inserted behind an
instruction is a STORE, which has no output, so that nothing is inserted behind it.
-/

namespace Qbt.Correct

open Qbt.Lists

/-- An input that a visit may load into a temporary. -/
def Opened (rules : List Val) (v : Val) : Bool := hasRewriteRule rules v || v.isRef || v.isImm

/-- How many inputs of an instruction are open. -/
def openInputs (rules : List Val) (i : Insn) : Nat :=
  (Opened rules i.in0).toNat + (Opened rules i.in1).toNat

/-- Only temporaries below the counter have rules. -/
def RuledBelow (rules : List Val) (ri : Nat) : Prop := ∀ t ∈ ruled rules, t < ri

private theorem ruledBelow_nil (ri : Nat) : RuledBelow [] ri := by
  intro t member
  rw [ruled_nil] at member
  exact member.elim

theorem RuledBelow.mono {rules : List Val} {ri ri' : Nat} (below : RuledBelow rules ri)
    (le : ri ≤ ri') : RuledBelow rules ri' :=
  fun t member => Nat.lt_of_lt_of_le (below t member) le

/-- A new rule below the bound keeps the rules below it. -/
theorem RuledBelow.write {rules : List Val} {ri t s : Nat} (below : RuledBelow rules ri)
    (less : t < ri) : RuledBelow (Padded.write .noclass rules t (.tmp s)) ri := by
  intro u member
  rw [ruled_write] at member
  rcases member with rfl | member
  · exact less
  · exact below u member

/-- A fresh temporary is not open. -/
theorem RuledBelow.fresh {rules : List Val} {ri : Nat} (below : RuledBelow rules ri) :
    Opened rules (.tmp ri) = false := by
  have unruled : hasRewriteRule rules (.tmp ri) = false := by
    rw [Bool.eq_false_iff, ne_eq, hasRewriteRule_iff]
    rintro ⟨t, member, same⟩
    obtain rfl : ri = t := Val.tmp.inj same
    exact Nat.lt_irrefl _ (below ri member)
  simp [Opened, unruled, Val.isRef, Val.isImm]

/-- Loading an open input closes it. -/
theorem openInputs_setInput {rules : List Val} {ri : Nat} (below : RuledBelow rules ri) {i : Insn}
    {idx : Fin 2} (opened : Opened rules (i.input idx)) :
    openInputs rules (i.setInput idx (.tmp ri)) < openInputs rules i := by
  have closed := below.fresh
  match idx with
  | 0 =>
    have opened : Opened rules i.in0 = true := opened
    have smaller : (Opened rules (.tmp ri)).toNat < (Opened rules i.in0).toNat := by
      simp [closed, opened]
    exact Nat.add_lt_add_right smaller _
  | 1 =>
    have opened : Opened rules i.in1 = true := opened
    have smaller : (Opened rules (.tmp ri)).toNat < (Opened rules i.in1).toNat := by
      simp [closed, opened]
    exact Nat.add_lt_add_left smaller _

/-- What the operand corrections load is open. -/
theorem opened_of_spilled {rules : List Val} {i : Insn} {idx : Fin 2} {type : InsnType}
    (spills : spilled i = some (idx, type)) : Opened rules (i.input idx) := by
  rcases spilled_eq_some spills with ⟨-, ref⟩ | ⟨-, imm, -⟩
  · simp [Opened, ref]
  · simp [Opened, imm]

section Visit

variable {p : Pass} {i : Insn} {ii : Nat}

private theorem setInsn_returns {b : Blk} (inside : ii < b.insns.length) (n : Insn) :
    setInsn b ii n = .ok { b with insns := b.insns.set ii n } :=
  setInsn_eq_ok.mpr ⟨inside, rfl⟩

private theorem insnInsert_returns {b : Blk} (room : ii ≤ b.insns.length) (n : Insn) :
    insnInsert b n ii = .ok { b with insns := b.insns.insertIdx ii n } :=
  insnInsert_eq_ok.mpr ⟨room, rfl⟩

/-- What replaces an input goes into the block. -/
theorem insertBefore_returns (inside : ii < p.b.insns.length) (n : Insn) (idx : Fin 2)
    (new : Insn) : ∃ p', insertBefore p ii n idx new = .ok p' := by
  rw [insertBefore, setInsn_returns inside, Result.ok_bind, insnInsert_returns, Result.ok_bind]
  · exact ⟨_, rfl⟩
  · rw [List.length_set]
    exact Nat.le_of_lt inside

/-- The operand corrections do not stop, if every ADDR defines a temporary. -/
theorem correctOperands_returns (inside : ii < p.b.insns.length) {n : Insn}
    (addr : n.type = .addr → n.out.isTmp) : ∃ p', correctOperands p ii n = .ok p' := by
  have inserts (idx : Fin 2) (new : Insn) := insertBefore_returns inside n idx new
  have spills (idx : Fin 2) : ∃ p', spillImm p ii n idx = .ok p' := inserts idx _
  unfold correctOperands
  split
  · exact inserts 0 _
  split
  · exact inserts 1 _
  have positional : ∃ p', (if n.in0.isImm then spillImm p ii n 0 else pure p) = .ok p' := by
    split
    · exact spills 0
    · exact ⟨p, rfl⟩
  cases type : n.type
  case add | mul =>
    simp only [correctArith]
    split
    · rw [setInsn_returns inside]
      exact ⟨_, rfl⟩
    · exact ⟨p, rfl⟩
  case sub | div | rem | lshift | rshift => exact positional
  case lt | le | gt | ge | eq | ne => exact positional
  case beq | bne | ble | bge | blt | bgt | bnz | bez =>
    simp only [correctBranch]
    split
    · exact spills 0
    split
    · exact spills 1
    · exact ⟨p, rfl⟩
  case store =>
    simp only [correctStore]
    split
    · exact spills 1
    · exact ⟨p, rfl⟩
  case addr =>
    simp only [correctAddr]
    split
    · rename_i isTmp
      obtain ⟨t, in0⟩ := Val.isTmp_iff.mp isTmp
      obtain ⟨s, out⟩ := Val.isTmp_iff.mp (addr type)
      rw [in0, out]
      exact ⟨_, rfl⟩
    · exact ⟨p, rfl⟩
  all_goals exact ⟨p, rfl⟩

/-- `correct_insn` does not stop. -/
theorem correctInsn_returns (inside : ii < p.b.insns.length)
    (addr : i.type = .addr → i.out.isTmp) : ∃ p', correctInsn p ii i = .ok p' := by
  have loads {idx : Fin 2} (has : hasRewriteRule p.rules (i.input idx)) :
      ∃ p', loadRewrite p ii i idx = .ok p' := by
    obtain ⟨a, rule⟩ := rewriteTmp_of_hasRewriteRule has
    rw [loadRewrite, rule, Result.ok_bind]
    exact insertBefore_returns inside i idx _
  unfold correctInsn
  split
  · have has : hasRewriteRule p.rules (i.input 0) := ‹_›
    exact loads has
  split
  · have has : hasRewriteRule p.rules (i.input 1) := ‹_›
    exact loads has
  split
  · rename_i has
    obtain ⟨a, rule⟩ := rewriteTmp_of_hasRewriteRule has
    have room : ii + 1 ≤ (p.b.insns.set ii { i with out := .tmp p.ri }).length := by
      rw [List.length_set]
      exact inside
    rw [storeRewrite, rule, Result.ok_bind, setInsn_returns inside, Result.ok_bind,
      insnInsert_returns room, Result.ok_bind]
    refine correctOperands_returns ?_ addr
    simp only
    rw [List.length_insertIdx_of_le_length room, List.length_set]
    omega
  · exact correctOperands_returns inside addr

end Visit

/-- The loop ends wherever these instructions are still to be visited. -/
def EndsAt (rules : List Val) (ri : Nat) (todo : List Insn) : Prop :=
  ∀ b before, b.insns = before ++ todo → ∃ fuel q,
    correctInsns fuel before.length { b, rules, ri } = .ok q ∧ RuledBelow q.rules q.ri ∧ ri ≤ q.ri

private theorem endsAt_nil {rules : List Val} {ri : Nat} (below : RuledBelow rules ri) :
    EndsAt rules ri [] := by
  intro b before split
  have beyond : b.insns[before.length]? = none := by simp [split]
  refine ⟨0, { b, rules, ri }, ?_, below, Nat.le_refl _⟩
  rw [correctInsns, beyond]
  rfl

/-- The loop ends if it does whatever a visit of the first instruction leaves. -/
theorem endsAt_cons {rules : List Val} {ri : Nat} {i : Insn} {todo : List Insn}
    (addr : i.type = .addr → i.out.isTmp)
    (next : ∀ m rest rules' ri', Visited ⟨rules, ri, i⟩ (m :: rest) rules' ri' →
      ri ≤ ri' ∧ EndsAt rules' ri' (rest ++ todo)) : EndsAt rules ri (i :: todo) := by
  intro b before split
  have inside : before.length < b.insns.length := by simp [split]
  have here : b.insns[before.length]? = some i := by simp [split]
  obtain ⟨p, first⟩ := correctInsn_returns (p := { b, rules, ri }) inside addr
  obtain ⟨middle, visited, insns⟩ :=
    correctInsn_visited (p := { b, rules, ri }) split rfl first
  obtain ⟨m, rest, rfl⟩ := visited.nonempty
  obtain ⟨le, ends⟩ := next m rest _ _ visited
  obtain ⟨fuel, q, others, below, more⟩ := ends p.b (before ++ [m]) (by simp [insns])
  rw [List.length_append, List.length_singleton] at others
  refine ⟨fuel + 1, q, ?_, below, le.trans more⟩
  rw [correctInsns, here]
  simp only [first, Result.ok_bind]
  exact others

/-- An instruction that makes no rule and is not redirected. -/
structure Unruled (rules : List Val) (n : Insn) : Prop where
  type : n.type ≠ .addr
  out : hasRewriteRule rules n.out = false

section Visit

variable {v : Visit} {current : Insn} {rules : List Val}

/-- The STORE behind a redirected instruction writes a fresh temporary. -/
theorem Redirected.unruled {behind : List Insn} (redirected : Redirected v current behind)
    (below : RuledBelow rules v.ri) : ∀ n ∈ behind, Unruled rules n := by
  cases redirected with
  | kept => simp
  | stored rule =>
    intro n member
    rw [List.mem_singleton.mp member]
    have fresh := below.fresh
    simp only [Opened, Bool.or_eq_false_iff] at fresh
    exact ⟨by simp [insnCreate], fresh.1.1⟩

/-- Loading an input leaves an instruction of its type with its output. -/
theorem Unruled.setInput {n : Insn} (unruled : Unruled rules n) (idx : Fin 2) (w : Val) :
    Unruled rules (n.setInput idx w) := by
  refine ⟨?_, ?_⟩
  · rw [Insn.type_setInput]
    exact unruled.type
  · rw [Insn.out_setInput]
    exact unruled.out

end Visit

/-- An instruction that makes no rule and is not redirected is dealt with, whatever it reads. -/
theorem Unruled.endsAt {rules : List Val} {n : Insn} {todo : List Insn} {ri : Nat}
    (unruled : Unruled rules n) (below : RuledBelow rules ri)
    (ends : ∀ ri', ri ≤ ri' → EndsAt rules ri' todo) : EndsAt rules ri (n :: todo) := by
  induction opened : openInputs rules n using Nat.strongRecOn generalizing n ri with
  | _ count ih =>
    subst count
    refine endsAt_cons (fun addr => absurd addr unruled.type) fun m rest rules' ri' visited => ?_
    -- An input has been loaded.
    have loaded {idx : Fin 2} (isOpen : Opened rules (n.input idx)) :
        EndsAt rules (ri + 1) (n.setInput idx (.tmp ri) :: todo) :=
      ih _ (openInputs_setInput below isOpen) (unruled.setInput idx _)
        (below.mono (Nat.le_succ ri)) (fun ri' le => ends ri' (Nat.le_of_succ_le le)) rfl
    generalize made : m :: rest = all at visited
    cases visited with
    | loaded rule =>
      obtain ⟨rfl, rfl⟩ := List.cons.inj made
      have has := hasRewriteRule_of_rewriteTmp rule
      exact ⟨Nat.le_succ ri, loaded (by simp [Opened, has])⟩
    | @settled current middle behind _ _ unloaded redirected settled =>
      obtain rfl : behind = [] := by
        cases redirected with
        | kept => rfl
        | stored rule =>
          have has := hasRewriteRule_of_rewriteTmp rule
          rw [unruled.out] at has
          cases has
      rw [List.append_nil] at made
      cases settled with
      | kept =>
        obtain ⟨rfl, rfl⟩ := List.cons.inj made
        exact ⟨Nat.le_refl ri, ends ri (Nat.le_refl ri)⟩
      | swapped =>
        obtain ⟨rfl, rfl⟩ := List.cons.inj made
        exact ⟨Nat.le_refl ri, ends ri (Nat.le_refl ri)⟩
      | addressed _ addr => exact absurd addr unruled.type
      | spilled spills =>
        obtain ⟨rfl, rfl⟩ := List.cons.inj made
        exact ⟨Nat.le_succ ri, loaded (opened_of_spilled spills)⟩

private theorem endsAt_unruled {rules : List Val} {stores todo : List Insn} {ri : Nat}
    (unruled : ∀ n ∈ stores, Unruled rules n) (below : RuledBelow rules ri)
    (ends : ∀ ri', ri ≤ ri' → EndsAt rules ri' todo) : EndsAt rules ri (stores ++ todo) := by
  induction stores generalizing ri with
  | nil => exact ends ri (Nat.le_refl ri)
  | cons n rest ih =>
    rw [List.forall_mem_cons] at unruled
    exact unruled.1.endsAt below fun ri' le =>
      ih unruled.2 (below.mono le) fun ri'' le' => ends ri'' (le.trans le')

/-- An ADDR takes the address of a temporary below the counter into a temporary. -/
def AddrBelow (ri : Nat) (n : Insn) : Prop :=
  n.type = .addr → n.out.isTmp ∧ n.in1 = .noclass ∧ ∃ t < ri, n.in0 = .tmp t

theorem AddrBelow.mono {ri ri' : Nat} {n : Insn} (below : AddrBelow ri n) (le : ri ≤ ri') :
    AddrBelow ri' n := by
  intro addr
  obtain ⟨out, in1, t, less, in0⟩ := below addr
  exact ⟨out, in1, t, Nat.lt_of_lt_of_le less le, in0⟩

/-- The operand corrections leave an ADDR alone. -/
theorem AddrBelow.unspilled {ri : Nat} {n : Insn} (below : AddrBelow ri n)
    (addr : n.type = .addr) : spilled n = none := by
  obtain ⟨-, in1, t, -, in0⟩ := below addr
  simp [spilled, spilledImm, addr, in0, in1, Val.isRef]

/-- An ADDR may load what it takes the address of. -/
theorem AddrBelow.loaded {ri : Nat} {rules : List Val} {n : Insn} (below : AddrBelow ri n)
    {idx : Fin 2} (has : hasRewriteRule rules (n.input idx)) :
    AddrBelow (ri + 1) (n.setInput idx (.tmp ri)) := by
  intro addr
  rw [Insn.type_setInput] at addr
  obtain ⟨out, in1, -⟩ := below addr
  match idx with
  | 0 => exact ⟨out, in1, ri, Nat.lt_succ_self ri, rfl⟩
  | 1 =>
    have has : hasRewriteRule rules n.in1 := has
    rw [in1] at has
    cases has

/-- Instructions with which the loop ends, with whatever rules and counter. -/
def Ends (todo : List Insn) : Prop :=
  ∀ rules ri, RuledBelow rules ri → (∀ n ∈ todo, AddrBelow ri n) → EndsAt rules ri todo

/-- One more instruction, with the STOREs that its visits have left behind it. -/
private theorem Ends.visits {todo : List Insn} (ends : Ends todo) {rules : List Val} {ri : Nat}
    {n : Insn} {stores : List Insn} (below : RuledBelow rules ri) (addrBelow : AddrBelow ri n)
    (alone : n.type = .addr → stores = []) (unruled : ∀ s ∈ stores, Unruled rules s)
    (others : ∀ m ∈ todo, AddrBelow ri m) : EndsAt rules ri (n :: (stores ++ todo)) := by
  induction opened : openInputs rules n using Nat.strongRecOn generalizing n ri stores with
  | _ count ih =>
    subst count
    have after {rules' : List Val} {stores' : List Insn} (below' : RuledBelow rules' ri)
        (unruled' : ∀ s ∈ stores', Unruled rules' s) : EndsAt rules' ri (stores' ++ todo) :=
      endsAt_unruled unruled' below' fun ri' le =>
        ends rules' ri' (below'.mono le) fun m member => (others m member).mono le
    have wider : ∀ m ∈ todo, AddrBelow (ri + 1) m :=
      fun m member => (others m member).mono (Nat.le_succ ri)
    refine endsAt_cons (fun addr => (addrBelow addr).1) fun m rest rules' ri' visited => ?_
    generalize made : m :: rest = all at visited
    cases visited with
    | loaded rule =>
      obtain ⟨rfl, rfl⟩ := List.cons.inj made
      have has := hasRewriteRule_of_rewriteTmp rule
      refine ⟨Nat.le_succ ri, ih _ (openInputs_setInput below (by simp [Opened, has]))
        (below.mono (Nat.le_succ ri)) (addrBelow.loaded has) ?_ unruled wider rfl⟩
      rw [Insn.type_setInput]
      exact alone
    | @settled current middle behind _ _ unloaded redirected settled =>
      have fresh := redirected.unruled below
      have both : ∀ s ∈ behind ++ stores, Unruled rules s :=
        List.forall_mem_append.mpr ⟨fresh, unruled⟩
      cases settled with
      | kept =>
        obtain ⟨rfl, rfl⟩ := List.cons.inj made
        refine ⟨Nat.le_refl ri, ?_⟩
        rw [← List.append_assoc]
        exact after below both
      | swapped =>
        obtain ⟨rfl, rfl⟩ := List.cons.inj made
        refine ⟨Nat.le_refl ri, ?_⟩
        rw [← List.append_assoc]
        exact after below both
      | addressed _ addr _ ruled =>
        obtain ⟨rfl, rfl⟩ := List.cons.inj made
        obtain rfl : stores = [] := alone addr
        obtain ⟨-, -, t, less, in0⟩ := addrBelow addr
        obtain ⟨t', s, in0', -, rfl⟩ := addRewriteRule_eq_ok.mp ruled
        obtain rfl : t = t' := Val.tmp.inj (in0.symm.trans in0')
        exact ⟨Nat.le_refl ri, after (below.write less) (redirected.unruled (below.write less))⟩
      | spilled spills =>
        obtain ⟨rfl, rfl⟩ := List.cons.inj made
        refine ⟨Nat.le_succ ri, ?_⟩
        have plain : n.type ≠ .addr := by
          intro addr
          rw [addrBelow.unspilled addr] at spills
          cases spills
        change EndsAt rules (ri + 1) (n.setInput _ (.tmp ri) :: (behind ++ (stores ++ todo)))
        rw [← List.append_assoc]
        refine ih _ (openInputs_setInput below (opened_of_spilled spills))
          (below.mono (Nat.le_succ ri)) ?_ ?_ both wider rfl
        · intro addr
          rw [Insn.type_setInput] at addr
          exact absurd addr plain
        · intro addr
          rw [Insn.type_setInput] at addr
          exact absurd addr plain

/-- The loop ends with any list of instructions. -/
theorem ends_all (todo : List Insn) : Ends todo := by
  induction todo with
  | nil => exact fun rules ri below _ => endsAt_nil below
  | cons n rest ih =>
    intro rules ri below addrs
    rw [List.forall_mem_cons] at addrs
    exact ih.visits below addrs.1 (fun _ => rfl) (List.forall_mem_nil _) addrs.2

/-- More iterations than are needed change nothing. -/
theorem correctInsns_more {fuel more ii : Nat} {p q : Pass} (le : fuel ≤ more)
    (corrected : correctInsns fuel ii p = .ok q) : correctInsns more ii p = .ok q := by
  induction fuel generalizing more ii p with
  | zero =>
    unfold correctInsns at corrected ⊢
    cases found : p.b.insns[ii]? with
    | none => simpa [found] using corrected
    | some i => simp [found] at corrected
  | succ fuel ih =>
    cases more with
    | zero => cases le
    | succ more =>
      unfold correctInsns at corrected ⊢
      cases found : p.b.insns[ii]? with
      | none => simpa [found] using corrected
      | some i =>
        simp only [found, Result.bind_eq_ok] at corrected ⊢
        obtain ⟨p', first, others⟩ := corrected
        exact ⟨p', first, ih (Nat.le_of_succ_le_succ le) others⟩

/-- Every block is corrected, from some number of iterations on. -/
theorem correctBlk_returns {b : Blk} {rules : List Val} {ri : Nat} (below : RuledBelow rules ri)
    (addrs : ∀ n ∈ b.insns, AddrBelow ri n) : ∃ fuel p, RuledBelow p.rules p.ri ∧ ri ≤ p.ri ∧
      ∀ more, fuel ≤ more → correctBlk more { b, rules, ri } = .ok p := by
  obtain ⟨fuel, q, corrected, below', le⟩ := ends_all b.insns rules ri below addrs b [] rfl
  have counted := correctCmps_ri_le q
  refine ⟨fuel, correctCmp1 (correctCmp0 q), ?_, le.trans counted, fun more enough => ?_⟩
  · rw [correctCmps_rules]
    exact below'.mono counted
  · have corrected : correctInsns fuel 0 { b, rules, ri } = .ok q := corrected
    rw [correctBlk, correctInsns_more enough corrected]
    rfl

private theorem correctBlks_returns {blks : List Blk} {rules : List Val} {ri : Nat}
    (below : RuledBelow rules ri) (addrs : ∀ b ∈ blks, ∀ n ∈ b.insns, AddrBelow ri n) :
    ∃ fuel result, ∀ more, fuel ≤ more → correctBlks more blks rules ri = .ok result := by
  induction blks generalizing rules ri with
  | nil => exact ⟨0, _, fun _ _ => rfl⟩
  | cons b rest ih =>
    rw [List.forall_mem_cons] at addrs
    obtain ⟨first, p, below', le, head⟩ := correctBlk_returns below addrs.1
    obtain ⟨others, result, tail⟩ :=
      ih below' fun b member n listed => (addrs.2 b member n listed).mono le
    refine ⟨max first others, (p.b :: result.1, result.2), fun more enough => ?_⟩
    rw [correctBlks, head more (by omega), Result.ok_bind, tail more (by omega)]
    rfl

/-- An ADDR of the text takes the address of a local into a local. -/
theorem chunk_addr (c : Frontend.Chunk) (ν : String → Nat) {n : Insn} (member : n ∈ c.insns ν)
    (addr : n.type = .addr) : ∃ s t, n.out = .tmp s ∧ n.in0 = .tmp t ∧ n.in1 = .noclass := by
  have plain (p : Frontend.Plain) (type : (p.insn ν).type = .addr) :
      ∃ s t, (p.insn ν).out = .tmp s ∧ (p.insn ν).in0 = .tmp t ∧ (p.insn ν).in1 = .noclass := by
    cases p with
    | addr _ dst src => exact ⟨_, _, rfl, rfl, rfl⟩
    | binary op => cases op <;> cases type
    | unary op => cases op <;> cases type
    | _ => cases type
  have items {α : Type} {xs : List α} {make : Nat → α → Insn}
      (other : ∀ k a, (make k a).type ≠ .addr)
      (listed : n ∈ xs.mapIdx make) : False := by
    obtain ⟨k, _, rfl⟩ := List.mem_mapIdx.mp listed
    exact other _ _ addr
  rw [Frontend.Chunk.insns, List.mem_append, List.mem_append] at member
  rcases member with (listed | listed) | listed
  · exact (items (fun k a => by simp [Frontend.paramInsn, insnCreate]) listed).elim
  · obtain ⟨p, -, rfl⟩ := List.mem_map.mp listed
    exact plain p addr
  · obtain ⟨s, -, listed⟩ := List.mem_flatMap.mp listed
    cases s with
    | plain p =>
      obtain rfl := List.mem_singleton.mp listed
      exact plain p addr
    | call target args rets =>
      rcases List.mem_append.mp listed with listed | listed
      · exact (items (fun k a => by simp [Frontend.argInsn, insnCreate]) listed).elim
      · rcases List.mem_cons.mp listed with rfl | listed
        · cases addr
        · exact (items (fun k a => by simp [Frontend.retvalInsn, insnCreate]) listed).elim
    | leave args =>
      exact (items (fun k a => by simp [Frontend.retargInsn, insnCreate]) listed).elim
    | _ => cases listed

/-- Correction ends on every function that the parser builds, whatever it takes the address of. -/
theorem correct_returns {f : Fn} (parserBuilt : Frontend.ParserBuilt f) :
    ∃ fuel g ri, ∀ more, fuel ≤ more → correct more f f.ntmp = .ok (g, ri) := by
  obtain ⟨_, source, parsed⟩ := parserBuilt
  obtain ⟨chunks, built⟩ := Frontend.buildFunction_built parsed
  have addrs : ∀ b ∈ f.blks, ∀ n ∈ b.insns, AddrBelow f.ntmp n := by
    intro b member n listed addr
    obtain ⟨i, found⟩ := List.mem_iff_getElem?.mp member
    obtain ⟨c, -, insns⟩ := built.insns_of found
    obtain ⟨s, t, out, in0, in1⟩ := chunk_addr c _ (insns ▸ listed) addr
    have below := ((built.below b member).insns n listed).in0
    rw [in0] at below
    exact ⟨by rw [out]; rfl, in1, t, below, in0⟩
  obtain ⟨fuel, ⟨blks, ri⟩, returns⟩ := correctBlks_returns (ruledBelow_nil f.ntmp) addrs
  refine ⟨fuel, { f with blks }, ri, fun more enough => ?_⟩
  rw [correct, returns more enough]
  rfl

/-- A function that takes the address of a local twice, and of an address, and writes all of
them. -/
def addressedTwice : Frontend.Function where
  name := "main"
  params := [(.i27, "x")]
  body := {
    items := [
      { stmt := .plain (.addr .i27 "a" "x") },
      { stmt := .plain (.addr .i27 "a" "x") },
      { stmt := .plain (.addr .i27 "b" "a") },
      { stmt := .plain (.immRef .i27 "x" "g") },
      { stmt := .plain (.binary .add .i27 "a" (.id "x") (.id "b")) },
      { stmt := .leave [.id "a"] }] }

/-- The loop ends although most visits insert something. -/
theorem correct_returns_addressedTwice :
    ∃ f fuel g ri, Frontend.buildFunction 0 addressedTwice = .ok f ∧
      ∀ more, fuel ≤ more → correct more f f.ntmp = .ok (g, ri) := by
  have ran : ∃ f, Frontend.buildFunction 0 addressedTwice = .ok f := ⟨_, by rfl⟩
  obtain ⟨f, parsed⟩ := ran
  obtain ⟨fuel, g, ri, returns⟩ := correct_returns ⟨0, _, parsed⟩
  exact ⟨f, fuel, g, ri, parsed, returns⟩

end Qbt.Correct
