import Qbt.Abi.Phases
import Qbt.Frontend.Graph

/-!
# The parser orders calls

The instructions of a chunk are its parameters, its plain statements and what closes it,
and no jump goes to the block of the parameters.
-/

namespace Qbt.Abi

/-- Every slot a list of instructions names has a register. -/
def InRegisters (insns : List Insn) : Prop :=
  ∀ n ∈ insns, n.type.isConvention → ∀ v type, n.in1 = .imm v type → v < 24

/-- The slot an instruction names, if any, is at most 23. -/
private def smallSlot (n : Insn) : Bool :=
  match n.in1 with
  | .imm v _ => v < 24
  | _ => true

instance (insns : List Insn) : Decidable (InRegisters insns) :=
  decidable_of_iff (∀ n ∈ insns, n.type.isConvention → smallSlot n) <| by
    refine forall₂_congr fun n _ => forall_congr' fun _ => ?_
    unfold smallSlot
    cases n.in1 <;> simp

section Parser

open Frontend

variable {ν : String → Nat}

private theorem arg_class (a : Arg) : (a.val ν).isTmp ∨ (a.val ν).isImm := by
  cases a <;> simp [Arg.val, Val.isTmp, Val.isImm]

private theorem role_param {k : Nat} (entry : VType × String) (inside : (k : Int) < 24) :
    role (paramInsn ν k entry) = some (.param k) := by
  simp [role, paramInsn, insnCreate, Val.isTmp, slot?, inside]

private theorem role_retval {k : Nat} (name : String) (inside : (k : Int) < 24) :
    role (retvalInsn ν k name) = some (.retval k) := by
  simp [role, retvalInsn, insnCreate, Val.isTmp, slot?, inside]

private theorem role_arg {k : Nat} (a : Arg) (inside : (k : Int) < 24) :
    role (argInsn ν k a) = some (.arg k) := by
  simp [role, argInsn, insnCreate, arg_class a, slot?, inside]

private theorem role_retarg {k : Nat} (a : Arg) (inside : (k : Int) < 24) :
    role (retargInsn ν k a) = some (.retarg k) := by
  simp [role, retargInsn, insnCreate, arg_class a, slot?, inside]

private theorem role_call (target : Callee) : role (callInsn ν target) = some .call := by
  cases target <;> simp [role, callInsn, insnCreate, Callee.val, Val.isTmp, Val.isRef]

private theorem role_plain (s : Plain) : role (s.insn ν) = some .plain := by
  have arg (a : Arg) : (a.val ν).isReg = false := by cases a <;> rfl
  cases s with
  | binary op type dst left right =>
    cases op <;> simp [role, Plain.insn, insnCreate, BinOp.insn, arg left, arg right]
  | unary op type dst operand =>
    cases op <;> simp [role, Plain.insn, insnCreate, UnOp.insn, arg operand]
  | store value type base offset => simp [role, Plain.insn, insnCreate, arg value]
  | _ => simp [role, Plain.insn, insnCreate]

private theorem inside_mapIdx {α : Type} {f : Nat → α → Insn} {items : List α} {k : Nat}
    (few : InRegisters (items.mapIdx f)) (convention : ∀ k a, (f k a).type.isConvention)
    (slot : ∀ (k : Nat) a, (f k a).in1 = .imm k .i27) (inside : k < items.length) :
    (k : Int) < 24 := by
  have member : f k items[k] ∈ items.mapIdx f := by
    rw [List.mem_mapIdx]
    exact ⟨k, inside, rfl⟩
  exact few _ member (convention k _) k .i27 (slot k _)

/-- The arguments of a call, the call and its results. -/
private theorem call_phase {target : Callee} {args : List Arg} {rets : List String}
    (few : InRegisters ((Stmt.call target args rets).insns ν)) :
    phaseAfter (.args 0) ((Stmt.call target args rets).insns ν) = some .results := by
  have fewArgs : InRegisters (args.mapIdx (argInsn ν)) := fun n member =>
    few n (List.mem_append_left _ member)
  have fewRets : InRegisters (rets.mapIdx (retvalInsn ν)) := fun n member =>
    few n (List.mem_append_right _ (List.mem_cons_of_mem _ member))
  have passed : phaseAfter (.args 0) (args.mapIdx (argInsn ν)) = some (.args (0 + args.length)) :=
    phaseAfter_count Phase.args 0 fun k a inside _ => by
      rw [Nat.zero_add] at inside
      rw [role_arg a (inside_mapIdx fewArgs (fun _ _ => rfl) (fun _ _ => rfl) inside)]
      cases k <;> simp [Phase.next]
  have read : phaseAfter .results (rets.mapIdx (retvalInsn ν)) = some .results := by
    apply phaseAfter_stay
    intro n member
    obtain ⟨k, inside, rfl⟩ := List.mem_mapIdx.mp member
    rw [role_retval _ (inside_mapIdx fewRets (fun _ _ => rfl) (fun _ _ => rfl) inside)]
    rfl
  have called (count : Nat) :
      (role (callInsn ν target)).bind (Phase.next (.args count)) = some .results := by
    rw [role_call]
    cases count <;> rfl
  rw [Stmt.insns, phaseAfter_append, passed, Option.bind_some, phaseAfter_cons, called,
    Option.bind_some, read]

/-- The values of a return. -/
private theorem leave_phase {args : List Arg} (few : InRegisters ((Stmt.leave args).insns ν)) :
    ∃ phase, phaseAfter (.args 0) ((Stmt.leave args).insns ν) = some phase ∧
      (phase = .args 0 ∨ ∃ count, phase = .returns count) := by
  cases args with
  | nil => exact ⟨_, rfl, Or.inl rfl⟩
  | cons a rest =>
    have inside (k : Nat) (less : k < (a :: rest).length) : (k : Int) < 24 :=
      inside_mapIdx few (fun _ _ => rfl) (fun _ _ => rfl) less
    have first : (role (retargInsn ν 0 a)).bind (Phase.next (.args 0)) = some (.returns 1) := by
      rw [role_retarg a (inside 0 (by simp))]
      rfl
    have others : phaseAfter (.returns 1) (rest.mapIdx fun i b => retargInsn ν (i + 1) b) =
        some (.returns (1 + rest.length)) :=
      phaseAfter_count Phase.returns 1 fun k b less _ => by
        rw [role_retarg b (inside k (by simp only [List.length_cons]; omega))]
        simp [Phase.next]
    refine ⟨_, ?_, Or.inr ⟨1 + rest.length, rfl⟩⟩
    rw [Stmt.insns, List.mapIdx_cons, phaseAfter_cons, first, Option.bind_some]
    exact others

/-- What closes a chunk. -/
private theorem last_shape {last : Option Stmt}
    (few : InRegisters (last.toList.flatMap (Stmt.insns ν))) {b : Blk}
    (leaves : ∀ args, last = some (.leave args) → b.isReturn)
    (compares : (∀ type a0 a1 label, (last.elim Exit.fall (Stmt.exit ν)) ≠ .cond type a0 a1 label) →
      ¬ b.cmp0.isImm ∧ ¬ b.cmp1.isImm) :
    ∃ phase, phaseAfter (.args 0) (last.toList.flatMap (Stmt.insns ν)) = some phase ∧
      phase.Ends b := by
  cases last with
  | none => exact ⟨_, rfl, rfl⟩
  | some s =>
    simp only [Option.toList_some, List.flatMap_cons, List.flatMap_nil, List.append_nil] at few ⊢
    cases s with
    | plain p => exact ⟨_, phaseAfter_plain (by simp [Stmt.insns, role_plain]), rfl⟩
    | call target args rets =>
      exact ⟨_, call_phase few, compares (by simp [Stmt.exit])⟩
    | leave args =>
      obtain ⟨phase, reached, rfl | ⟨count, rfl⟩⟩ := leave_phase few
      · exact ⟨_, reached, rfl⟩
      · exact ⟨_, reached, leaves args rfl, compares (by simp [Stmt.exit])⟩
    | branch op left right label => exact ⟨_, rfl, rfl⟩
    | branchNz operand label => exact ⟨_, rfl, rfl⟩
    | branchEz operand label => exact ⟨_, rfl, rfl⟩
    | jump label => exact ⟨_, rfl, rfl⟩

private theorem plain_type (s : Plain) : (s.insn ν).type ≠ .param := by
  cases s with
  | binary op type dst left right => cases op <;> simp [Plain.insn, insnCreate, BinOp.insn]
  | unary op type dst operand => cases op <;> simp [Plain.insn, insnCreate, UnOp.insn]
  | _ => simp [Plain.insn, insnCreate]

private theorem stmt_type (s : Stmt) : ∀ n ∈ s.insns ν, n.type ≠ .param := by
  intro n member
  cases s with
  | plain p =>
    rw [List.mem_singleton.mp member]
    exact plain_type p
  | call target args rets =>
    simp only [Stmt.insns, List.mem_append, List.mem_mapIdx, List.mem_cons] at member
    rcases member with ⟨k, _, rfl⟩ | rfl | ⟨k, _, rfl⟩ <;>
      simp [argInsn, callInsn, retvalInsn, insnCreate]
  | leave args =>
    obtain ⟨k, _, rfl⟩ := List.mem_mapIdx.mp member
    simp [retargInsn, insnCreate]
  | _ => simp [Stmt.insns] at member

/-- Parameters are read by the parameter instructions of a chunk only. -/
private theorem chunk_params {c : Chunk} {n : Insn} (member : n ∈ c.insns ν)
    (isParam : n.type = .param) : c.params ≠ [] := by
  intro none
  simp only [Chunk.insns, none, List.mapIdx_nil, List.nil_append, List.mem_append, List.mem_map,
    List.mem_flatMap] at member
  rcases member with ⟨s, _, rfl⟩ | ⟨s, _, inside⟩
  · exact plain_type s isParam
  · exact stmt_type s n inside isParam

/-- The instructions of a chunk. -/
private theorem chunk_shape {c : Chunk} (few : InRegisters (c.insns ν)) {b : Blk}
    (leaves : ∀ args, c.last = some (.leave args) → b.isReturn)
    (compares : (∀ type a0 a1 label, c.exit ν ≠ .cond type a0 a1 label) →
      ¬ b.cmp0.isImm ∧ ¬ b.cmp1.isImm) :
    ∃ phase, phaseAfter .params (c.insns ν) = some phase ∧ phase.Ends b := by
  have fewParams : InRegisters (c.params.mapIdx (paramInsn ν)) := fun n member =>
    few n (List.mem_append_left _ (List.mem_append_left _ member))
  have fewLast : InRegisters (c.last.toList.flatMap (Stmt.insns ν)) := fun n member =>
    few n (List.mem_append_right _ member)
  have read : phaseAfter .params (c.params.mapIdx (paramInsn ν)) = some .params := by
    apply phaseAfter_stay
    intro n member
    obtain ⟨k, inside, rfl⟩ := List.mem_mapIdx.mp member
    rw [role_param _ (inside_mapIdx fewParams (fun _ _ => rfl) (fun _ _ => rfl) inside)]
    rfl
  have plain : phaseAfter (.args 0) (c.plains.map (Plain.insn ν)) = some (.args 0) :=
    phaseAfter_plain (by simp [role_plain])
  have compares' : (∀ type a0 a1 label,
      (c.last.elim Exit.fall (Stmt.exit ν)) ≠ .cond type a0 a1 label) →
        ¬ b.cmp0.isImm ∧ ¬ b.cmp1.isImm := by
    intro none
    refine compares fun type a0 a1 label same => none type a0 a1 label ?_
    rw [← same]
    unfold Chunk.exit
    cases c.last <;> rfl
  obtain ⟨phase, closed, ends⟩ := last_shape fewLast leaves compares'
  have rest : phaseAfter (.args 0)
      (c.plains.map (Plain.insn ν) ++ c.last.toList.flatMap (Stmt.insns ν)) = some phase := by
    rw [phaseAfter_append, plain, Option.bind_some, closed]
  rw [Chunk.insns, List.append_assoc, phaseAfter_append, read, Option.bind_some]
  cases code : c.plains.map (Plain.insn ν) ++ c.last.toList.flatMap (Stmt.insns ν) with
  | nil => exact ⟨.params, rfl, trivial⟩
  | cons n others =>
    have other : n.type ≠ .param := by
      have member : n ∈ c.plains.map (Plain.insn ν) ++ c.last.toList.flatMap (Stmt.insns ν) := by
        rw [code]
        exact List.mem_cons_self
      simp only [List.mem_append, List.mem_map, List.mem_flatMap] at member
      rcases member with ⟨s, _, rfl⟩ | ⟨s, _, inside⟩
      · exact plain_type s
      · exact stmt_type s n inside
    rw [code] at rest
    exact ⟨phase, by rw [phaseAfter_params other, rest], ends⟩

/-- No edge leads to a block that reads parameters. -/
private theorem edge_params {source : Function} {chunks : List Chunk} {f : Fn}
    (built : Built source chunks f) {id next : Nat} (edge : Edge f id next) :
    ∃ k d, next = k + 1 ∧ chunks[k]? = some d ∧ d.params = [] := by
  obtain ⟨b, found, successor⟩ := edge
  obtain ⟨j, foundJ⟩ := List.mem_iff_getElem?.mp (Fn.find?_mem found)
  obtain ⟨c, foundC⟩ := built.chunk_of foundJ
  by_cases returns : b.isReturn
  · have none := built.return_successors foundJ returns
    rw [none.1, none.2] at successor
    simp at successor
  obtain ⟨falls, more, _⟩ := built.successors foundJ returns
  rw [built.count] at more
  have behind : ∃ k d, j + 2 = k + 1 ∧ chunks[k]? = some d ∧ d.params = [] :=
    ⟨j + 1, chunks[j + 1], rfl, List.getElem?_eq_getElem more,
      (built.linked.next j c _ foundC (List.getElem?_eq_getElem more)).2⟩
  rcases successor with first | second
  · obtain rfl : j + 2 = next := Option.some.inj (falls.symm.trans first)
    exact behind
  · have numbers := numbers_numbering f.tmps
    have block := built.blks _ numbers j c b foundC foundJ
    have target : (c.exit (numbering f.tmps)).target f (j + 2) = some next := by
      rw [block] at second
      exact second
    cases exit : c.exit (numbering f.tmps) with
    | fall =>
      obtain rfl : j + 2 = next := by simpa [exit, Exit.target] using target
      exact behind
    | goto label =>
      obtain ⟨k, d, entry, foundD, params, _⟩ :=
        built.target_chunk numbers foundC foundJ (Or.inl exit)
      rw [exit, Exit.target, entry] at target
      exact ⟨k, d, (Option.some.inj target).symm, foundD, params⟩
    | cond type a0 a1 label =>
      obtain ⟨k, d, entry, foundD, params, _⟩ :=
        built.target_chunk numbers foundC foundJ (Or.inr ⟨type, a0, a1, exit⟩)
      rw [exit, Exit.target, entry] at target
      exact ⟨k, d, (Option.some.inj target).symm, foundD, params⟩
    | leave => simp [exit, Exit.target] at target

/-- The calls of a function are in order as the parser leaves it, provided its slots have
registers. -/
theorem built_callShape {source : Function} {chunks : List Chunk} {f : Fn}
    (built : Built source chunks f) (few : ∀ b ∈ f.blks, InRegisters b.insns) : CallShape f where
  blocks := by
    intro b member
    obtain ⟨i, found⟩ := List.mem_iff_getElem?.mp member
    obtain ⟨c, foundChunk⟩ := built.chunk_of found
    have block := built.blks _ (numbers_numbering f.tmps) i c b foundChunk found
    generalize numbering f.tmps = ν at block
    have insns : b.insns = c.insns ν := by
      rw [block]
      exact Chunk.blk_insns ν i b.name c
    unfold Ordered
    rw [insns]
    refine chunk_shape (insns ▸ few b member) ?_ ?_
    · intro args leave
      rw [block]
      simp [Blk.isReturn, Chunk.blk, Chunk.exitBlk, Chunk.exit, leave, Stmt.exit]
    · intro unconditional
      rw [block]
      unfold Chunk.blk Chunk.exitBlk
      cases exit : c.exit ν with
      | cond type a0 a1 label => exact absurd exit (unconditional type a0 a1 label)
      | _ => simp [Val.isImm]
  params := by
    rintro b member ⟨n, inside, isParam⟩ id edge
    obtain ⟨i, found⟩ := List.mem_iff_getElem?.mp member
    obtain ⟨c, foundChunk⟩ := built.chunk_of found
    obtain ⟨k, d, sameId, foundD, none⟩ := edge_params built edge
    rw [built.blk_id found, Nat.add_right_cancel_iff] at sameId
    obtain rfl : c = d := by
      rw [sameId, foundD] at foundChunk
      exact (Option.some.inj foundChunk).symm
    have block := built.blks _ (numbers_numbering f.tmps) i c b foundChunk found
    have insns : b.insns = c.insns (numbering f.tmps) := by
      rw [block]
      exact Chunk.blk_insns _ i b.name c
    exact chunk_params (insns ▸ inside) isParam none
  cmps b member := ⟨(built.below b member).cmp0.isReg, (built.below b member).cmp1.isReg⟩

end Parser

end Qbt.Abi
