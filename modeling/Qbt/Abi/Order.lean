import Qbt.Abi.Lists

/-!
# The order of the items

The passes before `abi0` add instructions and change operands, but the instructions of the calling
convention stay in the order of the text: a call comes behind its arguments, and a block that
returns does not call.
-/

namespace Qbt

namespace Abi

open Frontend Ssa

/-- The types of the items and calls, in their order. -/
def conventions (insns : List Insn) : List InsnType :=
  (insns.map (·.type)).filter (·.isConvention)

private theorem conventions_append (first second : List Insn) :
    conventions (first ++ second) = conventions first ++ conventions second := by
  simp [conventions]

private theorem conventions_cons (n : Insn) (rest : List Insn) :
    conventions (n :: rest) = conventions [n] ++ conventions rest :=
  conventions_append [n] rest

private theorem conventions_other {insns : List Insn}
    (others : ∀ n ∈ insns, n.type.isConvention = false) : conventions insns = [] := by
  rw [conventions, List.filter_eq_nil_iff]
  intro type listed
  obtain ⟨n, member, rfl⟩ := List.mem_map.mp listed
  simp [others n member]

private theorem mem_conventions {insns : List Insn} {type : InsnType} :
    type ∈ conventions insns ↔ ∃ n ∈ insns, n.type = type ∧ type.isConvention := by
  simp only [conventions, List.mem_filter, List.mem_map]
  constructor
  · rintro ⟨⟨n, member, rfl⟩, convention⟩
    exact ⟨n, member, rfl, convention⟩
  · rintro ⟨n, member, rfl, convention⟩
    exact ⟨⟨n, member, rfl⟩, convention⟩

/-- There are as many items of a type as they name slots. -/
theorem count_conventions {type : InsnType} (convention : type.isConvention) (insns : List Insn) :
    (conventions insns).count type = (slots type insns).length := by
  induction insns with
  | nil => rfl
  | cons n rest ih =>
    rw [conventions_cons, slots_cons, List.count_append, List.length_append, ih, slots_singleton]
    congr 1
    by_cases same : n.type = type
    · simp [conventions, same, convention]
    · by_cases other : n.type.isConvention <;> simp [conventions, same, other]

/-- What replaces a single instruction has its type, if it is an item or a call. -/
theorem KeepsItems.conventions_singleton {i : Insn} {insns : List Insn}
    (keeps : KeepsItems [i] insns) : conventions insns = conventions [i] := by
  have counts {type : InsnType} (convention : type.isConvention) :
      (conventions insns).count type = (conventions [i]).count type := by
    rw [count_conventions convention, count_conventions convention, keeps.slots type convention]
  have own (type : InsnType) (member : type ∈ conventions insns) :
      type = i.type ∧ type.isConvention := by
    obtain ⟨n, listed, rfl, convention⟩ := mem_conventions.mp member
    have positive := List.count_pos_iff.mpr member
    rw [counts convention] at positive
    obtain ⟨m, single, same, -⟩ := mem_conventions.mp (List.count_pos_iff.mp positive)
    rw [List.mem_singleton.mp single] at same
    exact ⟨same.symm, convention⟩
  by_cases convention : i.type.isConvention
  · have single : conventions [i] = [i.type] := by simp [conventions, convention]
    have once := counts convention
    rw [single, List.count_singleton_self] at once
    have all : conventions insns = List.replicate (conventions insns).length i.type :=
      List.eq_replicate_of_mem fun type member => (own type member).1
    rw [all, List.count_replicate_self] at once
    rw [single, all, once]
    rfl
  · have none : conventions [i] = [] := by simp [conventions, convention]
    rw [none, List.eq_nil_iff_forall_not_mem]
    intro type member
    obtain ⟨rfl, found⟩ := own type member
    exact convention found

end Abi

namespace Correct

open Abi

/-- The loop keeps the order of the items. -/
theorem Walk.conventions {rules rules' : List Val} {ri ri' : Nat} {todo out : List Insn}
    {vs : List Visit} (walk : Walk rules ri todo vs out rules' ri')
    (passing : ∀ n ∈ todo, n.Passing) : Abi.conventions out = Abi.conventions todo := by
  induction walk with
  | nil => rfl
  | @cons _ _ _ _ _ _ i m rest todo out vs visited walk ih =>
    rw [List.forall_mem_cons] at passing
    have head := visited.keepsItems passing.1
    have passing' := head.passing
    rw [List.forall_mem_cons] at passing'
    have first : Abi.conventions [m] ++ Abi.conventions rest = Abi.conventions [i] :=
      (conventions_cons m rest).symm.trans head.conventions_singleton
    rw [conventions_cons, ih (List.forall_mem_append.mpr ⟨passing'.2, passing.2⟩),
      conventions_append, ← List.append_assoc, first]
    exact (conventions_cons i todo).symm

private theorem correctBlks_conventions {fuel ri ri' : Nat} {blks blks' : List Blk}
    {rules : List Val} (passing : ∀ b ∈ blks, ∀ n ∈ b.insns, n.Passing)
    (corrected : correctBlks fuel blks rules ri = .ok (blks', ri')) :
    List.Forall₂ (fun b b' => Abi.conventions b'.insns = Abi.conventions b.insns) blks blks' := by
  induction blks generalizing rules ri blks' with
  | nil =>
    obtain ⟨rfl, rfl⟩ := correctBlks_nil corrected
    exact .nil
  | cons b rest ih =>
    rw [List.forall_mem_cons] at passing
    obtain ⟨p, rest', first, others, rfl⟩ := correctBlks_cons corrected
    obtain ⟨q, -, rfl, -, -, walk⟩ := correctBlk_walk first
    obtain ⟨copies, areCopies, insns⟩ := correctCmps_insns q
    refine .cons ?_ (ih passing.2 others)
    have plain : Abi.conventions copies = [] :=
      conventions_other fun n member => by rw [areCopies n member]; rfl
    rw [insns, conventions_append, walk.conventions passing.1, plain, List.append_nil]

end Correct

namespace Abi

open Frontend Ssa

/-- Renaming keeps the types. -/
theorem renameInsns_types {r r' : Renaming} {insns insns' : List Insn}
    (renamed : renameInsns r insns = .ok (r', insns')) :
    insns'.map (·.type) = insns.map (·.type) := by
  induction insns generalizing r insns' with
  | nil =>
    obtain ⟨rfl, rfl⟩ := renameInsns_nil_eq_ok.mp renamed
    rfl
  | cons n rest ih =>
    obtain ⟨next, n', first, rest', others, rfl⟩ := renameInsns_cons_eq_ok.mp renamed
    obtain ⟨in0, _, in1, _, out, _, rfl⟩ := renameInsn_eq_ok.mp first
    rw [List.map_cons, List.map_cons, ih others]

/-- The items of a chunk in their order. -/
theorem conventions_insns (c : Chunk) (ν : String → Nat) :
    conventions (c.insns ν) = List.replicate c.params.length .param ++
      match c.last with
      | some (.call _ args rets) =>
        List.replicate args.length .arg ++ .call :: List.replicate rets.length .retval
      | some (.leave args) => List.replicate args.length .retarg
      | _ => [] := by
  have plain (s : Plain) : (s.insn ν).type.isConvention = false := plain_other s
  have made {α : Type} (items : List α) (make : Nat → α → Insn) (type : InsnType)
      (convention : type.isConvention) (types : ∀ k a, (make k a).type = type) :
      conventions (items.mapIdx make) = List.replicate items.length type := by
    have all : (items.mapIdx make).map (·.type) = List.replicate items.length type := by
      refine List.eq_replicate_iff.mpr ⟨by simp, fun t member => ?_⟩
      obtain ⟨n, listed, rfl⟩ := List.mem_map.mp member
      obtain ⟨k, _, rfl⟩ := List.mem_mapIdx.mp listed
      exact types _ _
    rw [conventions, all, List.filter_replicate_of_pos convention]
  have plains : conventions (c.plains.map (Plain.insn ν)) = [] :=
    conventions_other fun n member => by
      obtain ⟨s, _, rfl⟩ := List.mem_map.mp member
      exact plain s
  rw [Chunk.insns, conventions_append, conventions_append, plains, List.append_nil,
    made c.params (paramInsn ν) .param rfl fun _ _ => rfl]
  congr 1
  cases c.last with
  | none => rfl
  | some s =>
    rw [Option.toList_some, List.flatMap_singleton]
    cases s with
    | plain p => exact conventions_other (by simp [Stmt.insns, plain p])
    | call target args rets =>
      rw [Stmt.insns, conventions_append, conventions_cons,
        made args (argInsn ν) .arg rfl fun _ _ => rfl,
        made rets (retvalInsn ν) .retval rfl fun _ _ => rfl]
      rfl
    | leave args => exact made args (retargInsn ν) .retarg rfl fun _ _ => rfl
    | _ => rfl

private theorem corrected_conventions {f g : Fn} (corrected : Corrected f g)
    (passing : ∀ b ∈ f.blks, ∀ n ∈ b.insns, n.Passing) :
    List.Forall₂ (fun b b' => conventions b'.insns = conventions b.insns) f.blks g.blks := by
  obtain ⟨fuel, h, ri, returned, rfl⟩ := corrected
  simp only [correct, Result.bind_eq_ok, Result.pure_eq, Except.ok.injEq, Prod.mk.injEq,
    Prod.exists] at returned
  obtain ⟨blks, ri', passed, rfl, rfl⟩ := returned
  exact Correct.correctBlks_conventions passing passed

/-- The items of a converted block are in the order of a chunk. -/
theorem converted_conventions {source : Function} {chunks : List Chunk} {f g h : Fn} {n : Nat}
    (built : Built source chunks f) (corrected : Corrected f g) (converted : ssa g = .ok (h, n))
    {b : Blk} (member : b ∈ h.blks) :
    ∃ c : Chunk, conventions b.insns = conventions (c.insns (numbering f.tmps)) := by
  obtain ⟨_, bg, listed, i, i', renamed⟩ := ssa_origin (corrected.raw built.raw) converted member
  obtain ⟨_, _, _, _, insns, renamedInsns, _, _, _, _, _, _, _, _, rfl, _⟩ :=
    renameTemps_eq_ok.mp renamed
  obtain ⟨bf, original, same⟩ :=
    Lists.mem_of_forall₂ (corrected_conventions corrected (built_passing built)) listed
  obtain ⟨j, found⟩ := List.mem_iff_getElem?.mp original
  obtain ⟨c, -, chunk⟩ := built.insns_of found
  refine ⟨c, ?_⟩
  rw [← chunk, ← same, conventions, renameInsns_types renamedInsns]
  rfl

/-- In a block that calls, the arguments are in front of the call and no values are returned. Any
other block passes no arguments. -/
theorem converted_order {f g h : Fn} {n : Nat} (parsed : ParserBuilt f) (corrected : Corrected f g)
    (converted : ssa g = .ok (h, n)) {b : Blk} (member : b ∈ h.blks) :
    ((∀ m ∈ b.insns, m.type ≠ .retarg) ∧ ∀ before call after, b.insns = before ++ call :: after →
      call.type = .call → ∀ m ∈ after, m.type ≠ .arg) ∨
        ∀ m ∈ b.insns, m.type ≠ .arg ∧ m.type ≠ .call := by
  obtain ⟨_, _, parsed⟩ := parsed
  obtain ⟨chunks, built⟩ := buildFunction_built parsed
  obtain ⟨c, order⟩ := converted_conventions built corrected converted member
  rw [conventions_insns] at order
  have absent {type : InsnType} (convention : type.isConvention)
      (notMem : type ∉ conventions b.insns) : ∀ m ∈ b.insns, m.type ≠ type :=
    fun m listed same => notMem (mem_conventions.mpr ⟨m, listed, same, convention⟩)
  cases last : c.last with
  | none =>
    rw [last] at order
    exact Or.inr fun m listed => ⟨absent rfl (by simp [order]) m listed,
      absent rfl (by simp [order]) m listed⟩
  | some s =>
    rw [last] at order
    cases s with
    | call target args rets =>
      refine Or.inl ⟨absent rfl (by simp [order]), ?_⟩
      intro before call after split type m later isArg
      have called : conventions [call] = [.call] := by
        rw [conventions, List.map_singleton, type]
        rfl
      rw [split, conventions_append, conventions_cons, called, List.singleton_append] at order
      have parts : (List.replicate c.params.length .param ++ List.replicate args.length .arg) ++
          .call :: List.replicate rets.length .retval =
            conventions before ++ .call :: conventions after := by simpa using order.symm
      obtain ⟨-, -, results⟩ := (List.append_cons_inj_of_notMem
        (by simp [List.mem_replicate]) (by simp [List.mem_replicate])).mp parts
      have convention : InsnType.arg ∈ conventions after :=
        mem_conventions.mpr ⟨m, later, isArg, rfl⟩
      rw [← results] at convention
      cases List.eq_of_mem_replicate convention
    | _ =>
      exact Or.inr fun m listed => ⟨absent rfl (by simp [order]) m listed,
        absent rfl (by simp [order]) m listed⟩

end Abi
end Qbt
