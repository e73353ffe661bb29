import Qbt.Abi.Order
import Qbt.Abi.Simulation

/-!
# The sections of a block

Behind `abi0` a block fetches its parameters and computes, and at its end it either moves the
arguments of a call into their registers, calls and fetches the results, or moves the values it
returns. Only the moves around a call are flagged as part of it.
-/

namespace Qbt

/-- None of the instructions is part of a call. -/
def Unflagged (insns : List Insn) : Prop := ∀ n ∈ insns, n.flags = {}

private theorem unflagged_append {first second : List Insn} :
    Unflagged (first ++ second) ↔ Unflagged first ∧ Unflagged second :=
  List.forall_mem_append

namespace Correct

private theorem unflagged_loadedBy {type : InsnType} {v : Val} {ri : Nat} {i : Insn}
    (plain : i.flags = {}) (idx : Fin 2) : Unflagged (loadedBy type v ri i idx) := by
  have set : (i.setInput idx (.tmp ri)).flags = i.flags := by
    unfold Insn.setInput
    split <;> rfl
  intro n member
  simp only [loadedBy, List.mem_cons, List.not_mem_nil, or_false] at member
  rcases member with rfl | rfl
  · rfl
  · rw [set, plain]

/-- A visit flags nothing. -/
theorem Visited.unflagged {v : Visit} {middle : List Insn} {rules : List Val} {ri : Nat}
    (visited : Visited v middle rules ri) (plain : v.i.flags = {}) : Unflagged middle := by
  cases visited with
  | @loaded idx a rule first => exact unflagged_loadedBy plain idx
  | @settled current middle behind _ _ unloaded redirected settled =>
    obtain ⟨here, later⟩ : current.flags = {} ∧ Unflagged behind := by
      cases redirected with
      | kept => exact ⟨plain, by simp [Unflagged]⟩
      | stored => exact ⟨plain, by simp [Unflagged, insnCreate]⟩
    refine unflagged_append.mpr ⟨?_, later⟩
    cases settled with
    | kept => simpa [Unflagged] using here
    | addressed => simpa [Unflagged] using here
    | swapped => simpa [Unflagged] using plain
    | @spilled idx => exact unflagged_loadedBy plain idx

private theorem Walk.unflagged {rules rules' : List Val} {ri ri' : Nat} {todo out : List Insn}
    {vs : List Visit} (walk : Walk rules ri todo vs out rules' ri') (plain : Unflagged todo) :
    Unflagged out := by
  induction walk with
  | nil => exact plain
  | @cons _ _ _ _ _ _ i m rest todo out vs visited walk ih =>
    rw [Unflagged, List.forall_mem_cons] at plain
    have head : Unflagged (m :: rest) := visited.unflagged plain.1
    rw [Unflagged, List.forall_mem_cons] at head
    exact List.forall_mem_cons.mpr ⟨head.1, ih (unflagged_append.mpr ⟨head.2, plain.2⟩)⟩

private theorem correctBlks_unflagged {fuel ri ri' : Nat} {blks blks' : List Blk} {rules : List Val}
    (plain : ∀ b ∈ blks, Unflagged b.insns)
    (corrected : correctBlks fuel blks rules ri = .ok (blks', ri')) :
    ∀ b ∈ blks', Unflagged b.insns := by
  induction blks generalizing rules ri blks' with
  | nil =>
    obtain ⟨rfl, rfl⟩ := correctBlks_nil corrected
    exact plain
  | cons b rest ih =>
    rw [List.forall_mem_cons] at plain
    obtain ⟨p, rest', first, others, rfl⟩ := correctBlks_cons corrected
    obtain ⟨q, -, rfl, -, -, walk⟩ := correctBlk_walk first
    refine List.forall_mem_cons.mpr ⟨?_, ih plain.2 others⟩
    have walked : Unflagged q.b.insns := walk.unflagged plain.1
    have cmp0 : Unflagged (correctCmp0 q).b.insns := by
      unfold correctCmp0
      split
      · exact unflagged_append.mpr ⟨walked, by simp [Unflagged, insnCreate]⟩
      · exact walked
    unfold correctCmp1
    split
    · exact unflagged_append.mpr ⟨cmp0, by simp [Unflagged, insnCreate]⟩
    · exact cmp0

end Correct

private theorem Corrected.unflagged {f g : Fn} (corrected : Corrected f g)
    (plain : ∀ b ∈ f.blks, Unflagged b.insns) : ∀ b ∈ g.blks, Unflagged b.insns := by
  obtain ⟨fuel, h, ri, returned, rfl⟩ := corrected
  simp only [correct, Result.bind_eq_ok, Result.pure_eq, Except.ok.injEq, Prod.mk.injEq,
    Prod.exists] at returned
  obtain ⟨blks, ri', passed, rfl, rfl⟩ := returned
  exact Correct.correctBlks_unflagged plain passed

namespace Frontend

private theorem mapIdx_unflagged {α : Type} (items : List α) {make : Nat → α → Insn}
    (plain : ∀ k a, (make k a).flags = {}) : Unflagged (items.mapIdx make) := by
  intro n member
  obtain ⟨k, _, rfl⟩ := List.mem_mapIdx.mp member
  exact plain _ _

private theorem plain_unflagged (s : Plain) (ν : String → Nat) : (s.insn ν).flags = {} := by
  cases s <;> rfl

private theorem stmt_unflagged (s : Stmt) (ν : String → Nat) : Unflagged (s.insns ν) := by
  cases s with
  | plain p => exact List.forall_mem_singleton.mpr (plain_unflagged p ν)
  | call target args rets =>
    refine unflagged_append.mpr ⟨mapIdx_unflagged args fun _ _ => rfl, ?_⟩
    exact List.forall_mem_cons.mpr ⟨rfl, mapIdx_unflagged rets fun _ _ => rfl⟩
  | leave args => exact mapIdx_unflagged args fun _ _ => rfl
  | _ => exact List.forall_mem_nil _

/-- The parser flags nothing. -/
theorem chunk_unflagged (c : Chunk) (ν : String → Nat) : Unflagged (c.insns ν) := by
  refine unflagged_append.mpr
    ⟨unflagged_append.mpr ⟨mapIdx_unflagged c.params fun _ _ => rfl, ?_⟩, ?_⟩
  · intro n member
    obtain ⟨s, _, rfl⟩ := List.mem_map.mp member
    exact plain_unflagged s ν
  · intro n member
    obtain ⟨s, _, listed⟩ := List.mem_flatMap.mp member
    exact stmt_unflagged s ν n listed

end Frontend

/-- Behind `ssa` no instruction is part of a call. -/
theorem Ssa.converted_unflagged {f g h : Fn} {n : Nat} (parsed : Frontend.ParserBuilt f)
    (corrected : Corrected f g) (converted : ssa g = .ok (h, n)) :
    ∀ b ∈ h.blks, Unflagged b.insns := by
  obtain ⟨_, _, parsed⟩ := parsed
  obtain ⟨chunks, built⟩ := Frontend.buildFunction_built parsed
  have plain : ∀ b ∈ f.blks, Unflagged b.insns := by
    intro b member
    obtain ⟨j, found⟩ := List.mem_iff_getElem?.mp member
    obtain ⟨c, -, insns⟩ := built.insns_of found
    rw [insns]
    exact Frontend.chunk_unflagged c _
  intro b' member
  obtain ⟨_, b, listed, i, i', renamed⟩ := ssa_origin (corrected.raw built.raw) converted member
  obtain ⟨_, _, _, _, insns, renamedInsns, _, _, _, _, _, _, _, _, rfl, _⟩ :=
    renameTemps_eq_ok.mp renamed
  intro n' inside
  obtain ⟨n, old, _, _, first⟩ := mem_renameInsns renamedInsns inside
  obtain ⟨_, _, _, _, _, _, rfl⟩ := renameInsn_eq_ok.mp first
  exact corrected.unflagged plain b listed n old

namespace Abi

/-- An instruction that reads a parameter or is plain. -/
def Leading (n : Insn) : Prop := role n = some .plain ∨ ∃ k, role n = some (.param k)

/-- The instructions name the slots from 0 on. -/
def NameSlots (r : Nat → Role) (insns : List Insn) (count : Nat) : Prop :=
  insns.map role = (List.range count).map fun k => some (r k)

/-- The instructions up to a phase. -/
def UpTo (insns : List Insn) : Phase → Prop
  | .params => ∀ n ∈ insns, Leading n
  | .args count => ∃ front args, insns = front ++ args ∧ (∀ n ∈ front, Leading n) ∧
      NameSlots .arg args count
  | .results => ∃ front args call results count, insns = front ++ args ++ call :: results ∧
      (∀ n ∈ front, Leading n) ∧ NameSlots .arg args count ∧ role call = some .call ∧
        ∀ n ∈ results, ∃ k, role n = some (.retval k)
  | .returns count => ∃ front values, insns = front ++ values ∧ (∀ n ∈ front, Leading n) ∧
      NameSlots .retarg values count

section UpTo

variable {insns : List Insn} {n : Insn} {r : Nat → Role} {count : Nat}

private theorem nameSlots_nil (r : Nat → Role) : NameSlots r [] 0 := rfl

private theorem NameSlots.eq_nil (names : NameSlots r insns 0) : insns = [] :=
  List.map_eq_nil_iff.mp names

/-- The next instruction names the next slot. -/
theorem NameSlots.snoc (names : NameSlots r insns count) (role' : role n = some (r count)) :
    NameSlots r (insns ++ [n]) (count + 1) := by
  rw [NameSlots, List.map_append, names, List.range_succ, List.map_append, List.map_singleton,
    List.map_singleton, role']

private theorem NameSlots.getElem? (names : NameSlots r insns count) {k : Nat}
    (found : insns[k]? = some n) : role n = some (r k) := by
  have inside : k < insns.length := (List.getElem?_eq_some_iff.mp found).1
  have same := congrArg (·[k]?) names
  have length := congrArg List.length names
  rw [List.length_map, List.length_map, List.length_range] at length
  simpa [found, List.getElem?_range (length ▸ inside)] using same

private theorem leading_snoc (leading : ∀ m ∈ insns, Leading m) (last : Leading n) :
    ∀ m ∈ insns ++ [n], Leading m :=
  List.forall_mem_append.mpr ⟨leading, List.forall_mem_singleton.mpr last⟩

/-- Plain code may be followed by anything but parameters and results. -/
theorem upTo_snoc_plain {phase : Phase} {r : Role} (leading : ∀ m ∈ insns, Leading m)
    (known : role n = some r) (other : ∀ k, r ≠ .param k)
    (next : Phase.next (.args 0) r = some phase) : UpTo (insns ++ [n]) phase := by
  cases r with
  | plain =>
    cases next
    exact ⟨_, [], (List.append_nil _).symm, leading_snoc leading (Or.inl known), nameSlots_nil _⟩
  | arg slot =>
    simp only [Phase.next] at next
    split at next
    · rename_i zero
      subst zero
      cases next
      exact ⟨insns, [n], rfl, leading, (nameSlots_nil _).snoc known⟩
    · cases next
  | call =>
    cases next
    exact ⟨insns, [], n, [], 0, by simp, leading, nameSlots_nil _, known, by simp⟩
  | retarg slot =>
    cases slot with
    | zero =>
      cases next
      exact ⟨insns, [n], rfl, leading, (nameSlots_nil _).snoc known⟩
    | succ slot => cases next
  | param slot => exact absurd rfl (other slot)
  | retval slot => cases next

/-- One more instruction. -/
theorem UpTo.snoc {phase phase' : Phase} {r : Role} (upTo : UpTo insns phase)
    (known : role n = some r) (next : phase.next r = some phase') : UpTo (insns ++ [n]) phase' := by
  cases phase with
  | params =>
    by_cases param : ∃ k, r = .param k
    · obtain ⟨k, rfl⟩ := param
      cases next
      exact leading_snoc upTo (Or.inr ⟨k, known⟩)
    · have other : ∀ k, r ≠ .param k := fun k same => param ⟨k, same⟩
      rw [next_params other] at next
      exact upTo_snoc_plain upTo known other next
  | args count =>
    obtain ⟨front, args, rfl, leading, names⟩ := upTo
    cases count with
    | zero =>
      obtain rfl := names.eq_nil
      rw [List.append_nil]
      exact upTo_snoc_plain leading known (fun k same => by subst same; cases next) next
    | succ count =>
      cases r with
      | arg slot =>
        simp only [Phase.next] at next
        split at next
        · rename_i same
          subst same
          cases next
          exact ⟨front, args ++ [n], by simp, leading, names.snoc known⟩
        · cases next
      | call =>
        cases next
        exact ⟨front, args, n, [], _, by simp, leading, names, known, by simp⟩
      | _ => cases next
  | results =>
    obtain ⟨front, args, call, results, count, rfl, leading, names, called, fetches⟩ := upTo
    cases r with
    | retval slot =>
      cases next
      exact ⟨front, args, call, results ++ [n], count, by simp, leading, names, called,
        List.forall_mem_append.mpr ⟨fetches, List.forall_mem_singleton.mpr ⟨slot, known⟩⟩⟩
    | _ => cases next
  | returns count =>
    obtain ⟨front, values, rfl, leading, names⟩ := upTo
    cases r with
    | retarg slot =>
      simp only [Phase.next] at next
      split at next
      · rename_i same
        subst same
        cases next
        exact ⟨front, values ++ [n], by simp, leading, names.snoc known⟩
      · cases next
    | _ => cases next

private theorem upTo_of_phaseAfter {phase : Phase}
    (reached : phaseAfter .params insns = some phase) : UpTo insns phase := by
  induction insns using List.reverseRecOn generalizing phase with
  | nil =>
    obtain rfl : Phase.params = phase := Option.some.inj reached
    exact List.forall_mem_nil _
  | append_singleton front last ih =>
    rw [phaseAfter_append] at reached
    obtain ⟨middle, before, step⟩ := Option.bind_eq_some_iff.mp reached
    rw [phaseAfter_cons] at step
    obtain ⟨next, stepped, done⟩ := Option.bind_eq_some_iff.mp step
    obtain rfl : next = phase := Option.some.inj done
    obtain ⟨r, known, follows⟩ := Option.bind_eq_some_iff.mp stepped
    exact (ih before).snoc known follows

end UpTo

/-- The move of an argument register to an output. -/
def fetchInsn (flags : Flags) (out : Val) (k : Nat) : Insn :=
  { insnCreate .move .i27 out (.reg (ra k)) .noclass 0 with flags }

/-- The move of an operand to an argument register. -/
def passInsn (flags : Flags) (how : InsnType) (k : Nat) (in0 : Val) : Insn :=
  { insnCreate how .i27 (.reg (ra k)) in0 .noclass 0 with flags }

/-- An instruction that fetches a parameter, or has nothing to do with calls. -/
inductive Leads (n : Insn) : Prop where
  | fetch {t k : Nat} (inside : k < 24) (same : n = fetchInsn {} (.tmp t) k) : Leads n
  | plain (other : n.type.isConvention = false) (out : n.out.isReg = false)
      (in0 : n.in0.isReg = false) (in1 : n.in1.isReg = false) (flags : n.flags = {}) : Leads n

/-- The instruction moves an operand to the `k`-th argument register. -/
structure PassesAt (flags : Flags) (k : Nat) (n : Insn) : Prop where
  inside : k < 24
  same : ∃ how in0, (how = .move ∨ how = .copy) ∧ in0.isReg = false ∧
    n = passInsn flags how k in0

/-- The instructions move operands to the argument registers from the first one on. -/
def PassAll (flags : Flags) (insns : List Insn) : Prop :=
  ∀ k n, insns[k]? = some n → PassesAt flags k n

/-- A call. -/
structure Calls (n : Insn) : Prop where
  type : n.type = .call
  out : n.out = .noclass
  in0 : n.in0.isReg = false
  in1 : n.in1 = .noclass
  flags : n.flags = { callTeardown := true, callSetup := true }

/-- The instruction fetches a result. -/
def FetchesResult (n : Insn) : Prop :=
  ∃ t k, k < 24 ∧ n = fetchInsn { callTeardown := true } (.tmp t) k

/-- The sections of a block. -/
inductive Sections (b : Blk) : Prop where
  | plain {front values : List Insn} (split : b.insns = front ++ values)
      (leads : ∀ n ∈ front, Leads n) (passes : PassAll {} values)
      (returns : values ≠ [] → b.btype = .ret) : Sections b
  | calls {front args : List Insn} {call : Insn} {results : List Insn}
      (split : b.insns = front ++ args ++ call :: results) (leads : ∀ n ∈ front, Leads n)
      (passes : PassAll { callSetup := true } args) (calls : Calls call)
      (fetches : ∀ n ∈ results, FetchesResult n) : Sections b

section Sections

variable {n n' : Insn} {k : Nat}

/-- What reads a parameter or is plain leads. -/
theorem leads_of_leading (leading : Leading n) (flags : n.flags = {})
    (rewritten : rewriteInsn n = .ok n') :
    Leads n' ∧ (n'.in0.isReg → n.type = .param) := by
  rcases leading with plain | ⟨k, param⟩
  · cases hasRole plain with
    | plain other out in0 in1 =>
      rw [rewriteOther_eq other, Except.ok.injEq] at rewritten
      subst rewritten
      exact ⟨.plain other out in0 in1 flags, fun reg => by rw [in0] at reg; cases reg⟩
  · cases hasRole param with
    | @param t k type isParam out in1 inside =>
      rw [rewriteParam_eq isParam in1 inside, Except.ok.injEq] at rewritten
      subst rewritten
      rw [out]
      exact ⟨.fetch inside rfl, fun _ => isParam⟩

private theorem fetches_of_role (known : role n = some (.retval k))
    (rewritten : rewriteInsn n = .ok n') : FetchesResult n' := by
  cases hasRole known with
  | @retval t k type isRetval out in1 inside =>
    rw [rewriteRetval_eq isRetval in1 inside, Except.ok.injEq] at rewritten
    subst rewritten
    rw [out]
    exact ⟨t, k, inside, rfl⟩

private theorem passes_of_arg (known : role n = some (.arg k))
    (rewritten : rewriteInsn n = .ok n') : PassesAt { callSetup := true } k n' := by
  cases hasRole known with
  | @arg k type isArg in0 in1 inside =>
    obtain ⟨how, transfers, passed⟩ := passIn_eq in0 in1 inside
    simp only [rewriteInsn, isArg, rewriteArg, passed, Result.ok_bind, Result.pure_eq,
      Except.ok.injEq] at rewritten
    have noReg : n.in0.isReg = false := by
      cases operand : n.in0 <;> simp [operand, Val.isTmp, Val.isImm] at in0 ⊢
    exact ⟨inside, how, n.in0, transfers, noReg, rewritten.symm⟩

private theorem passes_of_retarg (known : role n = some (.retarg k))
    (rewritten : rewriteInsn n = .ok n') : PassesAt {} k n' := by
  cases hasRole known with
  | @retarg k type isRetarg in0 in1 inside =>
    obtain ⟨how, transfers, passed⟩ := passIn_eq in0 in1 inside
    simp only [rewriteInsn, isRetarg, rewriteRetarg, passed, Except.ok.injEq] at rewritten
    have noReg : n.in0.isReg = false := by
      cases operand : n.in0 <;> simp [operand, Val.isTmp, Val.isImm] at in0 ⊢
    exact ⟨inside, how, n.in0, transfers, noReg, rewritten.symm⟩

private theorem calls_of_role (known : role n = some .call) (rewritten : rewriteInsn n = .ok n') :
    Calls n' := by
  have type : n.type = .call := by
    cases hasRole known with
    | call isCall _ => exact isCall
  have noReg : n.in0.isReg = false := by
    cases hasRole known with
    | call _ in0 => exact in0
  simp only [role, type] at known
  split at known
  · rename_i classes
    simp only [rewriteInsn, type, Result.pure_eq, Except.ok.injEq] at rewritten
    subst rewritten
    exact { type := rfl, out := classes.1, in0 := noReg, in1 := classes.2.2, flags := rfl }
  · cases known

variable {insns insns' : List Insn} {count : Nat}

private theorem passAll_of_names {r : Nat → Role} {flags : Flags}
    (passes : ∀ {n n' : Insn} {k : Nat}, role n = some (r k) → rewriteInsn n = .ok n' →
      PassesAt flags k n') (names : NameSlots r insns count)
    (rewritten : List.Forall₂ (fun n n' => rewriteInsn n = .ok n') insns insns') :
    PassAll flags insns' := by
  intro k n' found
  have inside : k < insns'.length := (List.getElem?_eq_some_iff.mp found).1
  have inside' : k < insns.length := by rwa [rewritten.length_eq]
  have head := rewritten.get inside' inside
  rw [List.getElem?_eq_getElem inside, Option.some.injEq] at found
  refine passes (names.getElem? (List.getElem?_eq_getElem inside')) ?_
  rw [← found]
  exact head

/-- The sections of a block behind `abi0`. -/
theorem sections_of_ordered {d b : Blk} (ordered : Ordered d) (unflagged : Unflagged d.insns)
    (rewritten : rewriteBlk d = .ok b) : Sections b := by
  obtain ⟨phase, reached, ends⟩ := ordered
  have upTo := upTo_of_phaseAfter reached
  obtain ⟨insns, replaced, rfl⟩ := rewriteBlk_eq_ok.mp rewritten
  have leads {front front' : List Insn} (leading : ∀ n ∈ front, Leading n)
      (plain : Unflagged front)
      (replaced : List.Forall₂ (fun n n' => rewriteInsn n = .ok n') front front') :
      ∀ n ∈ front', Leads n := by
    intro n' member
    obtain ⟨n, listed, head⟩ := Lists.mem_of_forall₂ replaced member
    exact (leads_of_leading (leading n listed) (plain n listed) head).1
  cases phase with
  | params =>
    exact .plain (List.append_nil _).symm (leads upTo unflagged replaced)
      (fun k n found => by simp at found) (fun nonempty => absurd rfl nonempty)
  | args count =>
    obtain rfl : count = 0 := ends
    obtain ⟨front, args, split, leading, names⟩ := upTo
    obtain rfl := names.eq_nil
    rw [split, List.append_nil] at replaced unflagged
    exact .plain (List.append_nil _).symm (leads leading unflagged replaced)
      (fun k n found => by simp at found) (fun nonempty => absurd rfl nonempty)
  | results =>
    obtain ⟨front, args, call, results, count, split, leading, names, called, fetches⟩ := upTo
    rw [split, List.append_assoc] at replaced
    rw [split, List.append_assoc] at unflagged
    obtain ⟨front', others, rfl, fronts, rest⟩ := Lists.append_of_forall₂ replaced
    obtain ⟨args', behind, rfl, passed, rest⟩ := Lists.append_of_forall₂ rest
    obtain ⟨call', results', head, fetched, rfl⟩ := List.forall₂_cons_left_iff.mp rest
    refine .calls (List.append_assoc _ _ _).symm
      (leads leading (unflagged_append.mp unflagged).1 fronts)
      (passAll_of_names passes_of_arg names passed) (calls_of_role called head) ?_
    intro n' member
    obtain ⟨n, listed, same⟩ := Lists.mem_of_forall₂ fetched member
    obtain ⟨k, known⟩ := fetches n listed
    exact fetches_of_role known same
  | returns count =>
    obtain ⟨front, values, split, leading, names⟩ := upTo
    rw [split] at replaced unflagged
    obtain ⟨front', values', rfl, fronts, passed⟩ := Lists.append_of_forall₂ replaced
    exact .plain rfl (leads leading (unflagged_append.mp unflagged).1 fronts)
      (passAll_of_names passes_of_retarg names passed) fun _ => eq_of_beq ends.1

/-- Only parameters are fetched in front of a call. -/
theorem readsParams_of_fetch {d b : Blk} (ordered : Ordered d) (unflagged : Unflagged d.insns)
    (rewritten : rewriteBlk d = .ok b) {n : Insn} (member : n ∈ b.insns) (reg : n.in0.isReg)
    (front : n.flags.callTeardown = false) : ReadsParams d.insns := by
  obtain ⟨phase, reached, -⟩ := ordered
  obtain ⟨insns, replaced, rfl⟩ := rewriteBlk_eq_ok.mp rewritten
  obtain ⟨n₀, listed, head⟩ := Lists.mem_of_forall₂ replaced member
  obtain ⟨before, after, split⟩ := List.mem_iff_append.mp listed
  obtain ⟨r, known⟩ := role_known (split ▸ reached)
  have passed {flags : Flags} {k : Nat} (passes : PassesAt flags k n) : n.in0.isReg = false := by
    obtain ⟨how, in0, -, noReg, rfl⟩ := passes.same
    exact noReg
  cases r with
  | param k =>
    exact ⟨n₀, listed, (leads_of_leading (Or.inr ⟨k, known⟩) (unflagged n₀ listed) head).2 reg⟩
  | plain =>
    exact ⟨n₀, listed, (leads_of_leading (Or.inl known) (unflagged n₀ listed) head).2 reg⟩
  | retval k =>
    obtain ⟨t, k, -, rfl⟩ := fetches_of_role known head
    cases front
  | arg k => rw [passed (passes_of_arg known head)] at reg; cases reg
  | retarg k => rw [passed (passes_of_retarg known head)] at reg; cases reg
  | call => rw [(calls_of_role known head).in0] at reg; cases reg

end Sections

/-- A function behind `abi0`: its blocks have their sections, its branches compare no registers, and
parameters are fetched in a block that no edge leads to. -/
structure CallForm (k : Fn) : Prop where
  sections : ∀ b ∈ k.blks, Sections b
  cmps : ∀ b ∈ k.blks, b.cmp0.isReg = false ∧ b.cmp1.isReg = false
  fetches : ∀ b ∈ k.blks, (∃ n ∈ b.insns, n.in0.isReg ∧ n.flags.callTeardown = false) →
    ∀ id, ¬ Edge k id b.id

/-- Behind `abi0` a function with short lists has its sections. -/
theorem abi0_callForm {f g h k : Fn} {n : Nat} (built : Frontend.ParserBuilt f)
    (noAddr : ∀ b ∈ f.blks, ∀ i ∈ b.insns, i.type ≠ .addr)
    (few : ∀ b ∈ f.blks, InRegisters b.insns) (corrected : Corrected f g)
    (converted : ssa g = .ok (h, n)) (merged : abi0 h = .ok k) : CallForm k := by
  have raw := (BeforeSsa.corrected built corrected).raw
  obtain ⟨entry, rest, blks⟩ := List.exists_cons_of_ne_nil raw.nonempty
  have form := converted_form (Ssa.ssa_converted raw blks converted)
    (corrected_callShape built noAddr few corrected)
  have unflagged := Ssa.converted_unflagged built corrected converted
  have rewritten := abi0_rewritten merged
  constructor
  · intro b member
    obtain ⟨d, listed, same⟩ := Lists.mem_of_forall₂ rewritten member
    exact sections_of_ordered (form.blks d listed).ordered (unflagged d listed) same
  · intro b member
    obtain ⟨d, listed, same⟩ := Lists.mem_of_forall₂ rewritten member
    obtain ⟨_, _, rfl⟩ := rewriteBlk_eq_ok.mp same
    exact ⟨(form.blks d listed).cmp0, (form.blks d listed).cmp1⟩
  · rintro b member ⟨i, inside, reg, front⟩ id ⟨c', found, edge⟩
    obtain ⟨d, listed, same⟩ := Lists.mem_of_forall₂ rewritten member
    have reads := readsParams_of_fetch (form.blks d listed).ordered (unflagged d listed) same
      inside reg front
    obtain ⟨c, original, same'⟩ : ∃ c, h.find? id = some c ∧ rewriteBlk c = .ok c' := by
      cases absent : h.find? id with
      | none => rw [rewritten.find?_none absent] at found; cases found
      | some c =>
        obtain ⟨c'', found', same'⟩ := rewritten.find? absent
        rw [found] at found'
        exact ⟨c, rfl, Option.some.inj found' ▸ same'⟩
    obtain ⟨_, _, rfl⟩ := rewriteBlk_eq_ok.mp same
    obtain ⟨_, _, rfl⟩ := rewriteBlk_eq_ok.mp same'
    exact form.params d listed reads id ⟨c, original, edge⟩

end Abi

end Qbt
