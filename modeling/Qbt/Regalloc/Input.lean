import Qbt.Abi.Lists
import Qbt.Regalloc.Shape

/-!
# What register allocation is given

`abi0` replaces instructions one by one, without new temporaries. So the function keeps the
form `ssa` gave it, every block still calls at most once, and a CALL is both part of its set-up
and of its tear-down.
-/

namespace Qbt

namespace Abi

/-- What `abi0` makes of one instruction. -/
structure Rewrites (n n' : Insn) : Prop where
  out : n'.out.number? = n.out.number?
  reads : n'.reads ⊆ n.reads
  call : n'.type = .call ↔ n.type = .call
  flags : n'.type = .call → n'.flags = { callTeardown := true, callSetup := true }

section Rewrites

variable {n n' : Insn}

/-- The rewriting of `abi0` keeps what is written. -/
theorem Rewrites.writes (rewrites : Rewrites n n') : n'.writes = n.writes := by
  ext t
  have same := rewrites.out
  simp only [Insn.writes, Val.mem_temps, ← Val.mem_number?, same]

/-- `abi0` replaces list items by moves or copies, and keeps the others. -/
theorem rewriteInsn_rewrites (passing : n.Passing) (rewritten : rewriteInsn n = .ok n') :
    Rewrites n n' := by
  have passed (kind : n.type = .arg ∨ n.type = .retarg) {m : Insn} (passes : passIn n = .ok m)
      (flags : Flags) : Rewrites n { m with flags } := by
    have noCall : n.type ≠ .call := by rcases kind with same | same <;> simp [same]
    have none := passing.out kind
    simp only [passIn, Result.bind_eq_ok] at passes
    obtain ⟨_, _, r, named, passes⟩ := passes
    obtain ⟨k, -, rfl⟩ : ∃ k, k ∈ arMap ∧ r = .reg k := by
      unfold nthAr at named
      split at named
      · rename_i k found
        exact ⟨k, List.mem_of_getElem? found, (Except.ok.inj named).symm⟩
      · cases named
    have moved (type : InsnType) (other : type ≠ .call) (flags : Flags) :
        Rewrites n { insnCreate type .i27 (.reg k) n.in0 .noclass 0 with flags } := by
      refine ⟨by rw [none]; rfl, ?_, by simp [insnCreate, other, noCall], fun call => ?_⟩
      · rintro t (here | there)
        · exact Or.inl here
        · cases there
      · exact absurd call other
    cases in0 : n.in0 <;> rw [in0] at passes <;> cases passes <;>
      first
      | exact in0 ▸ moved .move (by simp) flags
      | exact in0 ▸ moved .copy (by simp) flags
  have received (kind : n.type = .param ∨ n.type = .retval) {r : Val}
      (named : (slotOf n >>= nthAr) = .ok r) (flags : Flags) :
      Rewrites n { insnCreate .move .i27 n.out r .noclass 0 with flags } := by
    have noCall : n.type ≠ .call := by rcases kind with same | same <;> simp [same]
    obtain ⟨_, _, named⟩ := Result.bind_eq_ok.mp named
    have noTmp : r.temps = ∅ := by
      unfold nthAr at named
      split at named
      · cases named
        ext t
        simp
      · cases named
    refine ⟨rfl, ?_, by simp [insnCreate, noCall], fun call => ?_⟩
    · rintro t (here | there)
      · have here : t ∈ r.temps := here
        rw [noTmp] at here
        exact here.elim
      · cases there
    · cases call
  unfold rewriteInsn at rewritten
  split at rewritten
  · rename_i kind
    simp only [rewriteParam, Result.bind_eq_ok, Result.pure_eq, Except.ok.injEq] at rewritten
    obtain ⟨k, slot, r, named, rfl⟩ := rewritten
    exact received (Or.inl kind) (Result.bind_eq_ok.mpr ⟨k, slot, named⟩) {}
  · rename_i kind
    simp only [rewriteRetval, Result.bind_eq_ok, Result.pure_eq, Except.ok.injEq] at rewritten
    obtain ⟨k, slot, r, named, rfl⟩ := rewritten
    exact received (Or.inr kind) (Result.bind_eq_ok.mpr ⟨k, slot, named⟩) _
  · rename_i kind
    simp only [rewriteArg, Result.bind_eq_ok, Result.pure_eq, Except.ok.injEq] at rewritten
    obtain ⟨m, passes, rfl⟩ := rewritten
    exact passed (Or.inl kind) passes _
  · rename_i kind
    exact passed (Or.inr kind) rewritten _
  · rename_i kind
    cases rewritten
    exact ⟨rfl, subset_rfl, Iff.rfl, fun _ => rfl⟩
  · rename_i kind
    cases rewritten
    exact ⟨rfl, subset_rfl, Iff.rfl, fun call => absurd call kind⟩

end Rewrites

section Blocks

variable {insns insns' : List Insn}

private theorem definedIn_rewrites (rewrites : List.Forall₂ Rewrites insns insns') :
    definedIn insns' = definedIn insns := by
  induction rewrites with
  | nil => rfl
  | cons head _ ih => rw [definedIn_cons, definedIn_cons, head.writes, ih]

private theorem outs_rewrites (rewrites : List.Forall₂ Rewrites insns insns') :
    insns'.filterMap (·.out.number?) = insns.filterMap (·.out.number?) := by
  induction rewrites with
  | nil => rfl
  | cons head _ ih => rw [List.filterMap_cons, List.filterMap_cons, head.out, ih]

private theorem calls_rewrites (rewrites : List.Forall₂ Rewrites insns insns') :
    (insns'.filter (·.type = .call)).length = (insns.filter (·.type = .call)).length := by
  induction rewrites with
  | nil => rfl
  | cons head _ ih =>
    rw [List.filter_cons, List.filter_cons]
    simp only [decide_eq_true_iff, head.call]
    split
    · rw [List.length_cons, List.length_cons, ih]
    · exact ih

/-- The instructions of a rewritten block. -/
theorem rewriteBlk_rewrites {b b' : Blk} (passing : ∀ n ∈ b.insns, n.Passing)
    (rewritten : rewriteBlk b = .ok b') :
    b' = { b with insns := b'.insns } ∧ List.Forall₂ Rewrites b.insns b'.insns := by
  obtain ⟨insns, replaced, rfl⟩ := rewriteBlk_eq_ok.mp rewritten
  refine ⟨rfl, ?_⟩
  exact ((List.forall₂_and_left _ _).mpr ⟨passing, replaced⟩).imp fun n n' both =>
    rewriteInsn_rewrites both.1 both.2

/-- Uses stay behind their definitions. -/
theorem usesDefined_rewrites {b b' : Blk} (uses : b.UsesDefined)
    (same : b' = { b with insns := b'.insns })
    (rewrites : List.Forall₂ Rewrites b.insns b'.insns) : b'.UsesDefined := by
  have params : b'.params = b.params := by rw [same]
  have defined : b'.defined = b.defined := definedIn_rewrites rewrites
  constructor
  · intro before' n' after' split
    rw [split] at rewrites
    obtain ⟨before, n, after, split', front, head, _⟩ := Lists.split_of_forall₂ rewrites
    rw [params, definedIn_rewrites front]
    exact head.reads.trans (uses.reads before n after split')
  · rw [params, defined, same]
    exact uses.compared
  · rw [params, defined, same]
    exact uses.args1
  · rw [params, defined, same]
    exact uses.args2

/-- The definitions of a function are those of its blocks. -/
theorem defs_of_forall₂ {R : Blk → Blk → Prop} {blks blks' : List Blk}
    (defs : ∀ b b', R b b' → b'.defs = b.defs) (related : List.Forall₂ R blks blks') :
    blks'.flatMap Blk.defs = blks.flatMap Blk.defs := by
  induction related with
  | nil => rfl
  | cons head _ ih => rw [List.flatMap_cons, List.flatMap_cons, ih, defs _ _ head]

end Blocks

end Abi

/-- At most one of the instructions is a call, which is part of its own set-up and
tear-down. -/
structure Regalloc.OneCall (insns : List Insn) : Prop where
  once : (insns.filter (·.type = .call)).length ≤ 1
  flags : ∀ n ∈ insns, n.type = .call → n.flags = { callTeardown := true, callSetup := true }

/-- What `regalloc` is given: the form `ssa` leaves behind, and at most one call in each
block. -/
structure AllocInput (k : Fn) (n : Nat) : Prop extends SsaForm k n where
  before : ∀ b ∈ k.blks, BeforeAlloc b
  calls : ∀ b ∈ k.blks, Regalloc.OneCall b.insns

namespace Abi

/-- The form of a converted function is kept, and so are its calls. -/
theorem abi0_input {f g h k : Fn} {n : Nat} (built : Frontend.ParserBuilt f)
    (corrected : Corrected f g) (converted : ssa g = .ok (h, n)) (merged : abi0 h = .ok k) :
    AllocInput k n := by
  have args := Ssa.argsMatch_of_converted (.corrected built corrected) converted
  obtain ⟨once, numbered⟩ := Ssa.numbered_of_converted (.corrected built corrected) converted
  have before := (abi0_beforeAlloc built corrected converted merged).2
  obtain ⟨_, _, parsed⟩ := built
  obtain ⟨chunks, built'⟩ := Frontend.buildFunction_built parsed
  have rewritten := abi0_rewritten merged
  have chunk {b : Blk} (member : b ∈ h.blks) : ∃ i c bf, chunks[i]? = some c ∧
      f.blks[i]? = some bf ∧ b.id = i + 1 ∧
        bf.insns = c.insns (Frontend.numbering f.tmps) ∧ KeepsItems bf.insns b.insns :=
    converted_chunk built' corrected converted member
  have each : List.Forall₂ (fun b b' => b ∈ h.blks ∧ b' = { b with insns := b'.insns } ∧
      (∀ n ∈ b.insns, n.Passing) ∧ rewriteBlk b = .ok b' ∧
        List.Forall₂ Rewrites b.insns b'.insns) h.blks k.blks := by
    refine ((List.forall₂_and_left _ _).mpr ⟨fun b member => member, rewritten⟩).imp ?_
    rintro b b' ⟨member, same⟩
    obtain ⟨_, _, _, -, -, -, -, keeps⟩ := chunk member
    obtain ⟨eq, rewrites⟩ := rewriteBlk_rewrites keeps.passing same
    exact ⟨member, eq, keeps.passing, same, rewrites⟩
  have original {b' : Blk} (member : b' ∈ k.blks) := Lists.mem_of_forall₂ each member
  have defs {b b' : Blk} (same : b' = { b with insns := b'.insns })
      (rewrites : List.Forall₂ Rewrites b.insns b'.insns) : b'.defs = b.defs := by
    rw [Blk.defs, Blk.defs, outs_rewrites rewrites, same]
  exact {
    toArgsMatch := args.congr (each.imp fun b b' both => by
      rw [both.2.1]
      exact ⟨⟨rfl, rfl, rfl, rfl⟩, rfl, rfl, rfl⟩)
    once := by
      rw [← once]
      exact defs_of_forall₂ (fun _ _ both => defs both.2.1 both.2.2.2.2) each
    increasing := by
      intro b' member
      obtain ⟨b, listed, _, same, _, _, rewrites⟩ := original member
      rw [defs same rewrites]
      exact (numbered b listed).1
    uses := by
      intro b' member
      obtain ⟨b, listed, _, same, _, _, rewrites⟩ := original member
      exact usesDefined_rewrites (numbered b listed).2.1 same rewrites
    params := by
      intro b' member
      obtain ⟨b, listed, _, same, _, _, _⟩ := original member
      rw [same]
      exact (numbered b listed).2.2
    before := before
    calls := by
      intro b' member
      obtain ⟨b, listed, _, same, _, _, rewrites⟩ := original member
      refine ⟨?_, fun n inside => ?_⟩
      · obtain ⟨_, c, _, -, -, -, insns, keeps⟩ := chunk listed
        have counts := keeps.slots .call rfl
        rw [slots_map, slots_map, insns, insns_call] at counts
        have counts := congrArg List.length counts
        rw [List.length_map, List.length_map] at counts
        rw [calls_rewrites rewrites, counts]
        split <;> simp
      · obtain ⟨_, _, head⟩ := Lists.mem_of_forall₂ rewrites inside
        exact head.flags }

end Abi
end Qbt
