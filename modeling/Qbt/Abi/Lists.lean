import Qbt.Abi.KeepsShape
import Qbt.Correct.Visits
import Qbt.Ssa.Form

/-!
# Lists of parameters, arguments and results

The parser numbers the items of every list, the passes before `abi0` neither add, drop nor
reorder them, and `abi0` reads the register of an item from `ar_map` at its number. So caller
and callee agree on the registers, as long as the number is inside the table.
-/

namespace Qbt

/-- The instructions that read or pass one item of a list. -/
def InsnType.isItem : InsnType → Bool
  | .param | .arg | .retval | .retarg => true
  | _ => false

theorem InsnType.isItem_iff {type : InsnType} :
    type.isItem ↔ type = .param ∨ type = .arg ∨ type = .retval ∨ type = .retarg := by
  cases type <;> simp [isItem]

namespace Frontend

/-- The items of the list that instructions of a type stand for: the parameters, the arguments
or results of the chunk's call, or the values it returns. -/
def Chunk.items (ν : String → Nat) (c : Chunk) : InsnType → List Insn
  | .param => c.params.mapIdx (paramInsn ν)
  | .arg =>
    match c.last with
    | some (.call _ args _) => args.mapIdx (argInsn ν)
    | _ => []
  | .retval =>
    match c.last with
    | some (.call _ _ rets) => rets.mapIdx (retvalInsn ν)
    | _ => []
  | .retarg =>
    match c.last with
    | some (.leave args) => args.mapIdx (retargInsn ν)
    | _ => []
  | _ => []

end Frontend

private theorem InsnType.isConvention_iff {type : InsnType} :
    type.isConvention ↔ type.isItem ∨ type = .call := by
  cases type <;> simp [isItem, isConvention]

/-- What `abi0` assumes of the instructions it rewrites: the slot of an item is an immediate, and
what is passed is a temporary or an immediate. -/
structure Insn.Passing (n : Insn) : Prop where
  slot : n.type.isItem → n.in1.isImm
  call : n.type = .call → n.in1 = .noclass
  operand : n.type = .arg ∨ n.type = .retarg → n.in0.isTmp ∨ n.in0.isImm
  out : n.type = .arg ∨ n.type = .retarg → n.out = .noclass

private theorem Insn.passing_other {n : Insn} (other : n.type.isConvention = false) :
    n.Passing where
  slot item := by simp [InsnType.isConvention_iff.mpr (Or.inl item)] at other
  call type := by simp [type, InsnType.isConvention] at other
  operand kind := by rcases kind with same | same <;> simp [same, InsnType.isConvention] at other
  out kind := by rcases kind with same | same <;> simp [same, InsnType.isConvention] at other

namespace Abi

/-- The slot an instruction of a type names. -/
def slotIn (type : InsnType) (n : Insn) : Option Val := if n.type = type then some n.in1 else none

/-- The slots that the instructions of a type name, in order. -/
def slots (type : InsnType) (insns : List Insn) : List Val := insns.filterMap (slotIn type)

/-- The slots from 0 on. -/
def numbered (count : Nat) : List Val := (List.range count).map fun j : Nat => .imm j .i27

/-- The operand in which `abi0` has put the register of an item. -/
def itemReg (n : Insn) (n' : Insn) : Val :=
  match n.type with
  | .param | .retval => n'.in0
  | _ => n'.out

/-- The registers of the items of a type, in order. -/
def itemRegs (type : InsnType) (b b' : Blk) : List Val :=
  ((b.insns.zip b'.insns).filter fun p => p.1.type = type).map fun p => itemReg p.1 p.2

section Text

variable {ν : String → Nat}

private theorem mapIdx_numbered {α : Type} {make : Nat → α → Insn}
    (slot : ∀ (k : Nat) a, (make k a).in1 = .imm k .i27) (items : List α) :
    (items.mapIdx make).map (·.in1) = numbered items.length := by
  apply List.ext_getElem?
  intro k
  simp only [numbered, List.getElem?_map, List.getElem?_mapIdx]
  by_cases inside : k < items.length
  · simp [inside, slot]
  · simp [inside]

/-- The parser numbers the items of every list. -/
theorem items_numbered (c : Frontend.Chunk) (type : InsnType) :
    (c.items ν type).map (·.in1) = numbered (c.items ν type).length := by
  unfold Frontend.Chunk.items
  split
  · rw [mapIdx_numbered fun _ _ => rfl, List.length_mapIdx]
  · split
    · rw [mapIdx_numbered fun _ _ => rfl, List.length_mapIdx]
    · rfl
  · split
    · rw [mapIdx_numbered fun _ _ => rfl, List.length_mapIdx]
    · rfl
  · split
    · rw [mapIdx_numbered fun _ _ => rfl, List.length_mapIdx]
    · rfl
  · rfl

/-- Plain statements read and pass no items. -/
theorem plain_other (s : Frontend.Plain) : (s.insn ν).type.isConvention = false := by
  cases s with
  | binary op type dst left right => cases op <;> rfl
  | unary op type dst operand => cases op <;> rfl
  | _ => rfl

private theorem filter_mapIdx {α : Type} {make : Nat → α → Insn} {made : InsnType}
    (makes : ∀ (k : Nat) a, (make k a).type = made) (items : List α) (type : InsnType) :
    (items.mapIdx make).filter (·.type = type) =
      if made = type then items.mapIdx make else [] := by
  split
  · rename_i same
    rw [List.filter_eq_self]
    intro n member
    obtain ⟨k, _, rfl⟩ := List.mem_mapIdx.mp member
    exact decide_eq_true ((makes k _).trans same)
  · rename_i differ
    rw [List.filter_eq_nil_iff]
    intro n member
    obtain ⟨k, _, rfl⟩ := List.mem_mapIdx.mp member
    simpa [makes k] using differ

private theorem filter_call (target : Frontend.Callee) {type : InsnType} (item : type.isItem)
    (rest : List Insn) :
    (Frontend.callInsn ν target :: rest).filter (·.type = type) =
      rest.filter (·.type = type) := by
  apply List.filter_cons_of_neg
  rw [decide_eq_true_iff]
  rintro rfl
  cases item

/-- The instructions of a type are the items of its list, in textual order. -/
theorem filter_insns (c : Frontend.Chunk) {type : InsnType} (item : type.isItem) :
    (c.insns ν).filter (·.type = type) = c.items ν type := by
  have kind := InsnType.isItem_iff.mp item
  have plain (s : Frontend.Plain) : (s.insn ν).type ≠ type := by
    rintro rfl
    have convention := InsnType.isConvention_iff.mpr (Or.inl item)
    rw [plain_other] at convention
    cases convention
  have plains : (c.plains.map (Frontend.Plain.insn ν)).filter (·.type = type) = [] := by
    rw [List.filter_eq_nil_iff]
    intro n member same
    obtain ⟨s, _, rfl⟩ := List.mem_map.mp member
    exact plain s (of_decide_eq_true same)
  have params := @filter_mapIdx _ (Frontend.paramInsn ν) .param (fun _ _ => rfl) c.params type
  unfold Frontend.Chunk.insns
  rw [List.filter_append, List.filter_append, plains, List.append_nil, params]
  cases closes : c.last with
  | none => rcases kind with rfl | rfl | rfl | rfl <;> simp [Frontend.Chunk.items, closes]
  | some s =>
    rw [Option.toList_some, List.flatMap_singleton]
    cases s with
    | plain p =>
      rw [Frontend.Stmt.insns, List.filter_cons_of_neg (by simpa using plain p)]
      rcases kind with rfl | rfl | rfl | rfl <;> simp [Frontend.Chunk.items, closes]
    | call target args rets =>
      rw [Frontend.Stmt.insns, List.filter_append, filter_call target item,
        @filter_mapIdx _ (Frontend.argInsn ν) .arg (fun _ _ => rfl),
        @filter_mapIdx _ (Frontend.retvalInsn ν) .retval (fun _ _ => rfl)]
      rcases kind with rfl | rfl | rfl | rfl <;> simp [Frontend.Chunk.items, closes]
    | leave args =>
      rw [Frontend.Stmt.insns, @filter_mapIdx _ (Frontend.retargInsn ν) .retarg (fun _ _ => rfl)]
      rcases kind with rfl | rfl | rfl | rfl <;> simp [Frontend.Chunk.items, closes]
    | _ =>
      rcases kind with rfl | rfl | rfl | rfl <;>
        simp [Frontend.Chunk.items, Frontend.Stmt.insns, closes]

private theorem arg_operand (a : Frontend.Arg) : (a.val ν).isTmp ∨ (a.val ν).isImm := by
  cases a <;> simp [Frontend.Arg.val, Val.isTmp, Val.isImm]

/-- The items of a list can be passed. -/
private theorem items_passing {c : Frontend.Chunk} {type : InsnType} :
    ∀ n ∈ c.items ν type, n.Passing := by
  have read {n : Insn} (kind : n.type = .param ∨ n.type = .retval) (slot : n.in1.isImm) :
      n.Passing := by
    refine ⟨fun _ => slot, ?_, ?_, ?_⟩ <;> rcases kind with same | same <;> simp [same]
  have passed {n : Insn} (kind : n.type = .arg ∨ n.type = .retarg) (slot : n.in1.isImm)
      (operand : n.in0.isTmp ∨ n.in0.isImm) (out : n.out = .noclass) : n.Passing := by
    refine ⟨fun _ => slot, ?_, fun _ => operand, fun _ => out⟩
    rcases kind with same | same <;> simp [same]
  unfold Frontend.Chunk.items
  intro n member
  split at member
  · obtain ⟨k, _, rfl⟩ := List.mem_mapIdx.mp member
    exact read (Or.inl rfl) rfl
  · split at member
    · obtain ⟨k, _, rfl⟩ := List.mem_mapIdx.mp member
      exact passed (Or.inl rfl) rfl (arg_operand _) rfl
    · cases member
  · split at member
    · obtain ⟨k, _, rfl⟩ := List.mem_mapIdx.mp member
      exact read (Or.inr rfl) rfl
    · cases member
  · split at member
    · obtain ⟨k, _, rfl⟩ := List.mem_mapIdx.mp member
      exact passed (Or.inr rfl) rfl (arg_operand _) rfl
    · cases member
  · cases member

/-- Only the statement of a call inserts a CALL. -/
theorem insns_call (c : Frontend.Chunk) :
    (c.insns ν).filter (·.type = .call) =
      match c.last with
      | some (.call target _ _) => [Frontend.callInsn ν target]
      | _ => [] := by
  have plain (s : Frontend.Plain) : (s.insn ν).type ≠ .call := by
    intro type
    have other := plain_other (ν := ν) s
    rw [type] at other
    cases other
  have plains : (c.plains.map (Frontend.Plain.insn ν)).filter (·.type = .call) = [] := by
    rw [List.filter_eq_nil_iff]
    intro n member same
    obtain ⟨s, _, rfl⟩ := List.mem_map.mp member
    exact plain s (of_decide_eq_true same)
  unfold Frontend.Chunk.insns
  rw [List.filter_append, List.filter_append, plains, List.append_nil,
    @filter_mapIdx _ (Frontend.paramInsn ν) .param (fun _ _ => rfl)]
  cases closes : c.last with
  | none => simp
  | some s =>
    rw [Option.toList_some, List.flatMap_singleton]
    cases s with
    | plain p => simp [Frontend.Stmt.insns, plain p]
    | call target args rets =>
      have called : (Frontend.callInsn ν target).type = .call := rfl
      rw [Frontend.Stmt.insns, List.filter_append, List.filter_cons_of_pos (by simp [called]),
        @filter_mapIdx _ (Frontend.argInsn ν) .arg (fun _ _ => rfl),
        @filter_mapIdx _ (Frontend.retvalInsn ν) .retval (fun _ _ => rfl)]
      simp
    | leave args =>
      rw [Frontend.Stmt.insns, @filter_mapIdx _ (Frontend.retargInsn ν) .retarg (fun _ _ => rfl)]
      simp
    | _ => simp [Frontend.Stmt.insns]

/-- The instructions of a chunk can be passed. -/
theorem insns_passing (c : Frontend.Chunk) : ∀ n ∈ c.insns ν, n.Passing := by
  intro n member
  by_cases item : n.type.isItem
  · have listed : n ∈ c.items ν n.type := by
      rw [← filter_insns c item]
      simpa using member
    exact items_passing n listed
  by_cases type : n.type = .call
  · have listed : n ∈ (c.insns ν).filter (·.type = .call) := by simp [member, type]
    rw [insns_call] at listed
    split at listed
    · rw [List.mem_singleton.mp listed]
      exact ⟨(fun item => by cases item), fun _ => rfl, by simp [Frontend.callInsn, insnCreate],
        by simp [Frontend.callInsn, insnCreate]⟩
    · cases listed
  · refine Insn.passing_other ?_
    rw [Bool.eq_false_iff, ne_eq, InsnType.isConvention_iff, not_or]
    exact ⟨item, type⟩

end Text

section Kept

variable {n n' : Insn} {type : InsnType}

theorem slots_append (type : InsnType) (first second : List Insn) :
    slots type (first ++ second) = slots type first ++ slots type second :=
  List.filterMap_append

theorem slots_cons (type : InsnType) (n : Insn) (rest : List Insn) :
    slots type (n :: rest) = slots type [n] ++ slots type rest := slots_append type [n] rest

theorem slots_singleton (type : InsnType) (n : Insn) :
    slots type [n] = if n.type = type then [n.in1] else [] := by
  by_cases same : n.type = type <;> simp [slots, slotIn, same]

/-- Instructions that pass no items name no slots. -/
theorem slots_other {insns : List Insn} (others : ∀ n ∈ insns, n.type.isConvention = false)
    (convention : type.isConvention) : slots type insns = [] := by
  rw [slots, List.filterMap_eq_nil_iff]
  intro n member
  rw [slotIn, if_neg]
  rintro rfl
  rw [others n member] at convention
  cases convention

/-- The slots of a kind of instruction, in the order of the instructions. -/
theorem slots_map (type : InsnType) (insns : List Insn) :
    slots type insns = (insns.filter (·.type = type)).map (·.in1) := by
  induction insns with
  | nil => rfl
  | cons n rest ih =>
    rw [slots_cons, ih, slots_singleton, List.filter_cons]
    by_cases same : n.type = type <;> simp [same]

/-- Instructions that name the same slots in the same order, and can all be passed. CALLs name
none, but are as many. -/
structure KeepsItems (insns insns' : List Insn) : Prop where
  slots : ∀ type : InsnType, type.isConvention → slots type insns' = Abi.slots type insns
  passing : ∀ n ∈ insns', n.Passing

/-- Instructions that are no items may be added. -/
theorem KeepsItems.append {insns insns' others : List Insn} (keeps : KeepsItems insns insns')
    (plain : ∀ n ∈ others, n.type.isConvention = false) :
    KeepsItems insns (insns' ++ others) where
  slots type convention := by
    rw [slots_append, keeps.slots type convention, slots_other plain convention, List.append_nil]
  passing := by
    rw [List.forall_mem_append]
    exact ⟨keeps.passing, fun n member => Insn.passing_other (plain n member)⟩

theorem KeepsItems.trans {first second third : List Insn} (before : KeepsItems first second)
    (after : KeepsItems second third) : KeepsItems first third where
  slots type convention := (after.slots type convention).trans (before.slots type convention)
  passing := after.passing

/-- An instruction that replaces another one in its place, with the same slot. -/
theorem KeepsItems.singleton {i i' : Insn} (passing : i.Passing) (type : i'.type = i.type)
    (slot : i.type.isConvention → i'.in1 = i.in1)
    (operand : i.type.isConvention → i'.in0 = i.in0 ∨ i'.in0.isTmp)
    (out : i.out = .noclass → i'.out = .noclass) : KeepsItems [i] [i'] where
  slots kind convention := by
    rw [slots_singleton, slots_singleton, type]
    by_cases same : i.type = kind
    · rw [if_pos same, if_pos same, slot (by rwa [same])]
    · rw [if_neg same, if_neg same]
  passing := by
    intro n member
    obtain rfl := List.mem_singleton.mp member
    have passes (kind : i.type = .arg ∨ i.type = .retarg) : i.type.isConvention := by
      rcases kind with same | same <;> rw [same] <;> rfl
    constructor
    · intro item
      rw [type] at item
      rw [slot (InsnType.isConvention_iff.mpr (Or.inl item))]
      exact passing.slot item
    · intro called
      rw [type] at called
      rw [slot (InsnType.isConvention_iff.mpr (Or.inr called))]
      exact passing.call called
    · intro kind
      rw [type] at kind
      rcases operand (passes kind) with same | isTmp
      · rw [same]
        exact passing.operand kind
      · exact Or.inl isTmp
    · intro kind
      rw [type] at kind
      exact out (passing.out kind)

end Kept

end Abi

namespace Correct

open Abi

variable {v : Visit} {middle : List Insn} {rules : List Val} {ri : Nat} {type : InsnType}

/-- Loading into an input keeps the items: the slot of an item is never loaded. -/
private theorem keepsItems_loadedBy {i : Insn} {w : Val} {t : Nat} {idx : Fin 2}
    (passing : i.Passing) (loading : type.isConvention = false)
    (first : idx = 1 → i.type.isConvention = false) :
    KeepsItems [i] (loadedBy type w t i idx) := by
  have load : (insnCreate type .i27 (.tmp t) w .noclass 0).type.isConvention = false := loading
  have keeps : KeepsItems [i] [i.setInput idx (.tmp t)] := by
    apply KeepsItems.singleton passing (Insn.type_setInput ..)
    · intro convention
      match idx with
      | 0 => rfl
      | 1 => simp [first rfl] at convention
    · intro convention
      match idx with
      | 0 => exact Or.inr rfl
      | 1 => exact Or.inl rfl
    · rw [Insn.out_setInput]
      exact id
  constructor
  · intro kind convention
    rw [loadedBy, slots_cons, slots_other (by simpa using load) convention, List.nil_append]
    exact keeps.slots kind convention
  · rw [loadedBy, List.forall_mem_cons]
    exact ⟨Insn.passing_other load, keeps.passing⟩

/-- The slot of an item is not loaded into a temporary. -/
private theorem other_of_class {i : Insn} (passing : i.Passing)
    (loadable : i.in1.isTmp ∨ i.in1.isRef) : i.type.isConvention = false := by
  rw [Bool.eq_false_iff]
  intro convention
  rcases InsnType.isConvention_iff.mp convention with item | called
  · have slot := passing.slot item
    cases in1 : i.in1 <;> simp_all [Val.isTmp, Val.isRef, Val.isImm]
  · rw [passing.call called] at loadable
    simp [Val.isTmp, Val.isRef] at loadable

/-- A visit of `correct` keeps the list items of its instruction. -/
theorem Visited.keepsItems (visited : Visited v middle rules ri) (passing : v.i.Passing) :
    KeepsItems [v.i] middle := by
  cases visited with
  | @loaded idx a rule _ =>
    apply keepsItems_loadedBy passing rfl
    rintro rfl
    obtain ⟨t, _, isTmp, _⟩ := rewriteTmp_eq_ok.mp rule
    have isTmp : v.i.in1 = .tmp t := isTmp
    exact other_of_class passing (by rw [isTmp]; exact Or.inl rfl)
  | @settled current middle behind _ _ unloaded redirected settled =>
    have kept : KeepsItems [v.i] [current] := by
      have out : v.i.out = .noclass → current.out = .noclass := by
        intro none
        cases redirected with
        | kept => exact none
        | stored rule =>
          obtain ⟨t, _, isTmp, _⟩ := rewriteTmp_eq_ok.mp rule
          rw [none] at isTmp
          cases isTmp
      rw [redirected.eq] at out ⊢
      exact KeepsItems.singleton passing rfl (fun _ => rfl) (fun _ => Or.inl rfl) out
    have plain : ∀ n ∈ behind, n.type.isConvention = false := by
      cases redirected with
      | kept => simp
      | stored => simp [insnCreate, InsnType.isConvention]
    refine KeepsItems.append ?_ plain
    cases settled with
    | kept => exact kept
    | addressed => exact kept
    | swapped _ commutes _ =>
      have other : v.i.type.isConvention = false := by
        rcases commutes with same | same <;> rw [same] <;> rfl
      exact KeepsItems.singleton passing rfl (fun convention => by simp [other] at convention)
        (fun convention => by simp [other] at convention) id
    | @spilled idx type spills =>
      rcases spilled_eq_some spills with ⟨rfl, isRef⟩ | ⟨rfl, _, positional⟩
      · apply keepsItems_loadedBy passing rfl
        rintro rfl
        exact other_of_class passing (Or.inr isRef)
      · apply keepsItems_loadedBy passing rfl
        rintro rfl
        revert positional
        unfold spilledImm InsnType.isConvention
        cases v.i.type <;> simp

/-- The loop keeps the items. -/
theorem Walk.keepsItems {rules rules' : List Val} {ri ri' : Nat} {todo out : List Insn}
    {vs : List Visit} (walk : Walk rules ri todo vs out rules' ri')
    (passing : ∀ n ∈ todo, n.Passing) : KeepsItems todo out := by
  induction walk with
  | nil => exact ⟨fun _ _ => rfl, by simp⟩
  | @cons _ _ _ _ _ _ i m rest todo out vs visited walk ih =>
    rw [List.forall_mem_cons] at passing
    have head := visited.keepsItems passing.1
    have passing' := head.passing
    rw [List.forall_mem_cons] at passing'
    have tail := ih (List.forall_mem_append.mpr ⟨passing'.2, passing.2⟩)
    constructor
    · intro type convention
      have first : slots type [m] ++ slots type rest = slots type [i] :=
        (slots_cons type m rest).symm.trans (head.slots type convention)
      rw [slots_cons, tail.slots type convention, slots_append, ← List.append_assoc, first]
      exact (slots_cons type i todo).symm
    · rw [List.forall_mem_cons]
      exact ⟨passing'.1, tail.passing⟩

/-- Correction keeps the items of every block. -/
theorem correctBlks_keepsItems {fuel ri ri' : Nat} {blks blks' : List Blk} {rules : List Val}
    (passing : ∀ b ∈ blks, ∀ n ∈ b.insns, n.Passing)
    (corrected : correctBlks fuel blks rules ri = .ok (blks', ri')) :
    List.Forall₂ (fun b b' => SameNode b b' ∧ KeepsItems b.insns b'.insns) blks blks' := by
  induction blks generalizing rules ri blks' with
  | nil =>
    obtain ⟨rfl, rfl⟩ := correctBlks_nil corrected
    exact .nil
  | cons b rest ih =>
    rw [List.forall_mem_cons] at passing
    obtain ⟨p, rest', first, others, rfl⟩ := correctBlks_cons corrected
    obtain ⟨q, -, rfl, -, -, walk⟩ := correctBlk_walk first
    obtain ⟨copies, areCopies, insns⟩ := correctCmps_insns q
    refine .cons ⟨(correctBlk_rewritten first).sameNode, ?_⟩ (ih passing.2 others)
    rw [insns]
    exact (walk.keepsItems passing.1).append fun n member => by rw [areCopies n member]; rfl

end Correct

/-- `correct` keeps the list items of every block. -/
theorem Corrected.keepsItems {f g : Fn} (corrected : Corrected f g)
    (passing : ∀ b ∈ f.blks, ∀ n ∈ b.insns, n.Passing) :
    List.Forall₂ (fun b b' => SameNode b b' ∧ Abi.KeepsItems b.insns b'.insns) f.blks g.blks := by
  obtain ⟨fuel, h, ri, returned, rfl⟩ := corrected
  simp only [correct, Result.bind_eq_ok, Result.pure_eq, Except.ok.injEq, Prod.mk.injEq,
    Prod.exists] at returned
  obtain ⟨blks, ri', passed, rfl, rfl⟩ := returned
  exact Correct.correctBlks_keepsItems passing passed

namespace Abi

open Ssa

/-- An instruction whose operands are renamed keeps its slot and its operand's class. -/
private theorem renameInsn_keepsItems {r r' : Renaming} {n n' : Insn} (passing : n.Passing)
    (renamed : renameInsn r n = .ok (r', n')) : KeepsItems [n] [n'] := by
  obtain ⟨in0, first, in1, second, out, defined, rfl⟩ := renameInsn_eq_ok.mp renamed
  refine .singleton passing rfl (fun convention => ?_) (fun convention => ?_) fun none => ?_
  · rcases renameUse_class second with ⟨t, _, isTmp, -⟩ | same
    · rcases InsnType.isConvention_iff.mp convention with item | called
      · have isImm := passing.slot item
        simp [isTmp, Val.isImm] at isImm
      · rw [passing.call called] at isTmp
        cases isTmp
    · exact same
  · rcases renameUse_class first with ⟨_, u, -, isTmp⟩ | same
    · exact Or.inr (by rw [isTmp]; rfl)
    · exact Or.inl same
  · exact (renameOut_class defined).noclass_iff.mpr none

private theorem renameInsns_keepsItems {r r' : Renaming} {insns insns' : List Insn}
    (passing : ∀ n ∈ insns, n.Passing) (renamed : renameInsns r insns = .ok (r', insns')) :
    KeepsItems insns insns' := by
  induction insns generalizing r insns' with
  | nil =>
    obtain ⟨rfl, rfl⟩ := renameInsns_nil_eq_ok.mp renamed
    exact ⟨fun _ _ => rfl, passing⟩
  | cons n rest ih =>
    rw [List.forall_mem_cons] at passing
    obtain ⟨next, n', first, rest', others, rfl⟩ := renameInsns_cons_eq_ok.mp renamed
    have head := renameInsn_keepsItems passing.1 first
    have tail := ih passing.2 others
    constructor
    · intro type item
      rw [slots_cons, head.slots type item, tail.slots type item, ← slots_cons]
    · rw [List.forall_mem_cons]
      exact ⟨head.passing n' (List.mem_singleton_self _), tail.passing⟩

private theorem renamed_keepsItems {b b' : Blk} (renamed : RenamedTo b b')
    (passing : ∀ n ∈ b.insns, n.Passing) : KeepsItems b.insns b'.insns := by
  obtain ⟨i, i', renamed⟩ := renamed
  obtain ⟨_, _, _, _, _, renamedInsns, _, _, _, _, _, _, _, _, rfl, _⟩ :=
    renameTemps_eq_ok.mp renamed
  exact renameInsns_keepsItems passing renamedInsns

section Rewritten

variable {n : Insn} {type : InsnType}

/-- A temporary or an immediate is moved or copied to the register. -/
private theorem passIn_slot (operand : n.in0.isTmp ∨ n.in0.isImm) :
    ∃ make : Val → Insn, (∀ r, (make r).out = r) ∧
      passIn n = (slotOf n >>= nthAr) >>= fun r => pure (make r) := by
  rcases operand with isTmp | isImm
  · obtain ⟨t, in0⟩ := Val.isTmp_iff.mp isTmp
    refine ⟨fun r => insnCreate .move .i27 r n.in0 .noclass 0, fun r => rfl, ?_⟩
    simp [passIn, in0]
  · refine ⟨fun r => insnCreate .copy .i27 r n.in0 .noclass 0, fun r => rfl, ?_⟩
    cases in0 : n.in0 <;> simp [in0, Val.isImm] at isImm
    simp [passIn, in0]

/-- `abi0` puts the register of an item's slot into its place. -/
theorem rewriteInsn_item (item : n.type.isItem) (passing : n.Passing) :
    ∃ make : Val → Insn, (∀ r, itemReg n (make r) = r) ∧
      rewriteInsn n = (slotOf n >>= nthAr) >>= fun r => pure (make r) := by
  rcases InsnType.isItem_iff.mp item with kind | kind | kind | kind
  · refine ⟨fun r => insnCreate .move .i27 n.out r .noclass 0, fun r => ?_, ?_⟩
    · simp [itemReg, kind, insnCreate]
    · simp [rewriteInsn, kind, rewriteParam]
  · obtain ⟨make, out, passes⟩ := passIn_slot (passing.operand (Or.inl kind))
    refine ⟨fun r => { make r with flags := { callSetup := true } }, fun r => ?_, ?_⟩
    · simp [itemReg, kind, out]
    · simp [rewriteInsn, kind, rewriteArg, passes]
  · refine ⟨fun r => { insnCreate .move .i27 n.out r .noclass 0 with
      flags := { callTeardown := true } }, fun r => ?_, ?_⟩
    · simp [itemReg, kind, insnCreate]
    · simp [rewriteInsn, kind, rewriteRetval]
  · obtain ⟨make, out, passes⟩ := passIn_slot (passing.operand (Or.inr kind))
    refine ⟨make, fun r => ?_, ?_⟩
    · simp [itemReg, kind, out]
    · simp [rewriteInsn, kind, rewriteRetarg, passes]

/-- Other instructions are not rejected. -/
theorem rewriteInsn_other (other : n.type.isItem = false) : ∃ n', rewriteInsn n = .ok n' := by
  unfold rewriteInsn
  split <;> simp_all [InsnType.isItem]

section Slot

variable {k : Nat} (slot : n.in1 = .imm k .i27)
include slot

/-- The register of a slot inside the table. -/
private theorem register_inside (inside : k < 24) : (slotOf n >>= nthAr) = .ok (.reg (ra k)) := by
  rw [slotOf_eq slot inside, Result.ok_bind, nthAr_eq inside]

/-- The check on the slot lets one slot pass that is outside the table. -/
private theorem register_last (last : k = 24) : (slotOf n >>= nthAr) = .error .overread := by
  subst last
  simp [slotOf, slot, Result.check, nthAr, arMap]

private theorem register_outside (outside : 25 ≤ k) :
    (slotOf n >>= nthAr) = .error .stackSlot := by
  have range : ¬ (k : Int) < 25 := by omega
  simp [slotOf, slot, Result.check, range]

end Slot

/-- An item that is not rejected has the register of its slot. -/
theorem itemReg_eq {n' : Insn} {k : Nat} (item : n.type.isItem) (passing : n.Passing)
    (slot : n.in1 = .imm k .i27) (rewritten : rewriteInsn n = .ok n') :
    k < 24 ∧ itemReg n n' = .reg (ra k) := by
  obtain ⟨make, register, eq⟩ := rewriteInsn_item item passing
  rw [eq] at rewritten
  rcases Nat.lt_trichotomy k 24 with inside | last | outside
  · rw [register_inside slot inside, Result.ok_bind, Result.pure_eq, Except.ok.injEq] at rewritten
    rw [← rewritten]
    exact ⟨inside, register _⟩
  · rw [register_last slot last] at rewritten
    cases rewritten
  · rw [register_outside slot outside] at rewritten
    cases rewritten

/-- The registers of the items of a list are those of their slots. -/
theorem itemRegs_slots {b b' : Blk} (item : type.isItem) (passing : ∀ n ∈ b.insns, n.Passing)
    (rewritten : rewriteBlk b = .ok b') :
    List.Forall₂ (fun slot r => ∀ k : Nat, slot = .imm k .i27 → k < 24 ∧ r = .reg (ra k))
      (slots type b.insns) (itemRegs type b b') := by
  obtain ⟨insns, replaced, rfl⟩ := rewriteBlk_eq_ok.mp rewritten
  unfold itemRegs
  generalize b.insns = insns₀ at passing replaced
  clear rewritten
  change List.Forall₂ _ (slots type insns₀) (((insns₀.zip insns).filter _).map _)
  induction replaced with
  | nil => exact .nil
  | @cons n n' rest rest' head _ ih =>
    rw [List.forall_mem_cons] at passing
    rw [slots_cons, slots_singleton, List.zip_cons_cons, List.filter_cons]
    by_cases same : n.type = type
    · rw [if_pos same, if_pos (by simpa using same), List.map_cons]
      refine .cons (fun k slot => ?_) (ih passing.2)
      exact itemReg_eq (by rwa [same]) passing.1 slot head
    · rw [if_neg same, if_neg (by simpa using same)]
      exact ih passing.2

/-- Consecutive slots have consecutive registers. -/
theorem itemRegs_numbered {b b' : Blk} {count : Nat} (item : type.isItem)
    (passing : ∀ n ∈ b.insns, n.Passing) (rewritten : rewriteBlk b = .ok b')
    (slots : slots type b.insns = numbered count) :
    count ≤ 24 ∧ itemRegs type b b' = (List.range count).map fun j : Nat => .reg (ra j) := by
  have related := itemRegs_slots item passing rewritten
  rw [slots, numbered, List.forall₂_map_left_iff] at related
  have registers := related.imp fun j r known => known j rfl
  constructor
  · by_contra more
    have last : 24 ∈ List.range count := List.mem_range.mpr (by omega)
    obtain ⟨r, -, entry⟩ := Lists.mem_of_forall₂ registers.flip last
    exact absurd entry.1 (Nat.lt_irrefl 24)
  · rw [← List.forall₂_eq_eq_eq, List.forall₂_map_right_iff]
    exact (registers.imp fun _ _ known => known.2).flip

/-- An item of a numbered list has one of its numbers. -/
theorem slot_lt {insns : List Insn} {count : Nat} (member : n ∈ insns)
    (slots : slots n.type insns = numbered count) :
    ∃ k < count, n.in1 = .imm (k : Nat) .i27 := by
  have named : n.in1 ∈ numbered count := by
    rw [← slots]
    exact List.mem_filterMap.mpr ⟨n, member, by simp [slotIn]⟩
  obtain ⟨k, inside, slot⟩ := List.mem_map.mp named
  exact ⟨k, List.mem_range.mp inside, slot.symm⟩

/-- The slots before an item are those below its own. -/
theorem numbered_split {count k : Nat} {before after : List Val}
    (split : numbered count = before ++ .imm k .i27 :: after) : before = numbered k := by
  obtain ⟨first, second, ranges, rfl, rest⟩ := List.map_eq_append_iff.mp split
  rw [List.range_eq_range', List.range'_eq_append_iff] at ranges
  obtain ⟨low, _, rfl, rfl⟩ := ranges
  obtain ⟨head, _, later, here, _⟩ := List.map_eq_cons_iff.mp rest
  simp only [Nat.zero_add, Nat.mul_one] at later
  obtain rfl : low = head := by
    cases left : count - low <;> simp [left, List.range'_succ] at later
    exact later.1
  obtain rfl : low = k := Int.ofNat.inj (Val.imm.inj here).1
  rw [numbered, List.range_eq_range']

/-- A list is never stopped by the check on its slots: the slot outside the table comes
first. -/
theorem rewriteBlk_not_stackSlot {b : Blk} (passing : ∀ n ∈ b.insns, n.Passing)
    (ordered : ∀ type : InsnType, type.isItem → ∃ count, slots type b.insns = numbered count) :
    rewriteBlk b ≠ .error .stackSlot := by
  intro stopped
  obtain ⟨before, n, after, split, returned, stopped⟩ :=
    Result.mapM_eq_error.mp (Result.bind_pure_eq_error.mp stopped)
  rw [split, List.forall_mem_append, List.forall_mem_cons] at passing
  have item : n.type.isItem := by
    by_contra other
    obtain ⟨n', rewritten⟩ := rewriteInsn_other (by simpa using other)
    rw [stopped] at rewritten
    cases rewritten
  obtain ⟨make, -, eq⟩ := rewriteInsn_item item passing.2.1
  obtain ⟨count, slots⟩ := ordered n.type item
  obtain ⟨k, -, slot⟩ := slot_lt (split ▸ List.mem_append_right _ List.mem_cons_self) slots
  rw [split, slots_append, slots_cons, slots_singleton, if_pos rfl] at slots
  have outside : 25 ≤ k := by
    by_contra inside
    rcases Nat.lt_or_eq_of_le (Nat.le_of_lt_succ (Nat.lt_of_not_le inside)) with early | last
    · rw [eq, register_inside slot early] at stopped
      cases stopped
    · rw [eq, register_last slot last] at stopped
      cases stopped
  -- The item with the last slot that is let pass has been rewritten before.
  rw [slot] at slots
  have earlier := numbered_split slots.symm
  have member : .imm (24 : Nat) .i27 ∈ Abi.slots n.type before := by
    rw [earlier]
    exact List.mem_map_of_mem (List.mem_range.mpr (by omega))
  obtain ⟨m, inside, slotM⟩ := List.mem_filterMap.mp member
  obtain ⟨kind, slotM⟩ : m.type = n.type ∧ m.in1 = .imm (24 : Nat) .i27 := by
    simpa [slotIn] using slotM
  obtain ⟨m', rewritten⟩ := returned m inside
  have bound := (itemReg_eq (by rwa [kind]) (passing.1 m inside) slotM rewritten).1
  exact Nat.lt_irrefl 24 bound

end Rewritten

open Frontend

/-- The list of one type in a chunk of the text, from the text to its registers: `bf` is the
block the parser builds for the chunk, `b` the block `abi0` rewrites and `b'` what it leaves. -/
structure ListAgrees (items : List Insn) (type : InsnType) (bf b b' : Blk) : Prop where
  /-- the parser inserts the items in textual order -/
  written : bf.insns.filter (·.type = type) = items
  /-- they are numbered from 0 on -/
  numbered : slots type b.insns = numbered items.length
  /-- every number is inside the table -/
  inside : items.length ≤ arMap.length
  /-- the `k`-th item goes to the `k`-th entry of the table -/
  registers : itemRegs type b b' = (List.range items.length).map fun k : Nat => .reg (ra k)
  distinct : (itemRegs type b b').Nodup

/-- `abi0` stops at its check of the slots, or caller and callee agree on all lists: each goes
to the first entries of the table, whichever of the four kinds it is. -/
def AgreesOnRegisters (chunks : List Chunk) (f h : Fn) : Prop :=
  abi0 h = .error .stackSlot ∨ ∃ k, abi0 h = .ok k ∧ ∀ i c bf b b', chunks[i]? = some c →
    f.blks[i]? = some bf → h.find? (i + 1) = some b → k.find? (i + 1) = some b' →
      ∀ type : InsnType, type.isItem →
        ListAgrees (c.items (numbering f.tmps) type) type bf b b'

/-- No list of the text that is left in the function has more than 24 items. -/
def ShortLists (chunks : List Chunk) (f h : Fn) : Prop :=
  ∀ i c, chunks[i]? = some c → i + 1 ∈ h.ids → ∀ type : InsnType, type.isItem →
    (c.items (numbering f.tmps) type).length ≤ 24

section Agreement

variable {source : Function} {chunks : List Chunk} {f g h k : Fn} {n : Nat}

/-- List items of a parsed function pass temporaries or immediates. -/
theorem built_passing (built : Built source chunks f) : ∀ b ∈ f.blks, ∀ n ∈ b.insns, n.Passing := by
  intro b listed
  obtain ⟨i, found⟩ := List.mem_iff_getElem?.mp listed
  obtain ⟨c, -, insns⟩ := built.insns_of found
  rw [insns]
  exact insns_passing c

/-- Every block that is converted stands for a chunk, with the chunk's items. -/
theorem converted_chunk (built : Built source chunks f) (corrected : Corrected f g)
    (converted : ssa g = .ok (h, n)) {b : Blk} (member : b ∈ h.blks) :
    ∃ i c bf, chunks[i]? = some c ∧ f.blks[i]? = some bf ∧ b.id = i + 1 ∧
      bf.insns = c.insns (numbering f.tmps) ∧ KeepsItems bf.insns b.insns := by
  obtain ⟨_, bg, listed, named⟩ := ssa_origin (corrected.raw built.raw) converted member
  obtain ⟨i, foundG⟩ := List.mem_iff_getElem?.mp listed
  obtain ⟨bf, found, same, keeps⟩ :=
    Lists.getElem?_of_forall₂ (corrected.keepsItems (built_passing built)) foundG
  obtain ⟨c, foundChunk, insns⟩ := built.insns_of found
  have behind := renamed_keepsItems named keeps.passing
  refine ⟨i, c, bf, foundChunk, found, ?_, insns, ?_⟩
  · rw [named.sameNode.id, ← built.blk_id found, ← same.id]
    rfl
  · exact keeps.trans behind

/-- The slots of a block's list are numbered. -/
private theorem chunk_slots {c : Chunk} {bf b : Blk} {ν : String → Nat}
    (insns : bf.insns = c.insns ν) (keeps : KeepsItems bf.insns b.insns) {type : InsnType}
    (item : type.isItem) : slots type b.insns = numbered (c.items ν type).length := by
  rw [keeps.slots type (InsnType.isConvention_iff.mpr (Or.inl item)), slots_map, insns,
    filter_insns c item, items_numbered]

/-- The lists of a block that is converted are numbered, and its items are what `abi0` assumes. -/
theorem converted_items (built : Built source chunks f) (corrected : Corrected f g)
    (converted : ssa g = .ok (h, n)) {b : Blk} (member : b ∈ h.blks) :
    (∀ n ∈ b.insns, n.Passing) ∧ ∀ type : InsnType, type.isItem →
      ∃ count, slots type b.insns = numbered count := by
  obtain ⟨i, c, bf, -, -, -, insns, keeps⟩ := converted_chunk built corrected converted member
  exact ⟨keeps.passing, fun type item => ⟨_, chunk_slots insns keeps item⟩⟩

/-- What `abi0` leaves of a block's list. -/
private theorem listAgrees_of_rewritten {c : Chunk} {bf b b' : Blk} {ν : String → Nat}
    (insns : bf.insns = c.insns ν) (keeps : KeepsItems bf.insns b.insns) {type : InsnType}
    (item : type.isItem) (rewritten : rewriteBlk b = .ok b') :
    ListAgrees (c.items ν type) type bf b b' := by
  have slots := chunk_slots insns keeps item
  obtain ⟨inside, registers⟩ := itemRegs_numbered item keeps.passing rewritten slots
  exact {
    written := by rw [insns, filter_insns c item]
    numbered := slots
    inside := inside
    registers := registers
    distinct := by
      rw [registers]
      refine List.Nodup.map_on (fun j memberJ k memberK same => ?_) List.nodup_range
      rw [List.mem_range] at memberJ memberK
      exact ra_injective (by omega) (by omega) (Val.reg.inj same) }

/-- A block with short lists is rewritten. -/
private theorem rewriteBlk_of_short {c : Chunk} {bf b : Blk} {ν : String → Nat}
    (insns : bf.insns = c.insns ν) (keeps : KeepsItems bf.insns b.insns)
    (short : ∀ type : InsnType, type.isItem → (c.items ν type).length ≤ 24) :
    ∃ b', rewriteBlk b = .ok b' := by
  have each : ∀ m ∈ b.insns, ∃ m', rewriteInsn m = .ok m' := by
    intro m member
    by_cases item : m.type.isItem
    · obtain ⟨k, inside, slot⟩ := slot_lt member (chunk_slots insns keeps item)
      obtain ⟨make, -, eq⟩ := rewriteInsn_item item (keeps.passing m member)
      rw [eq, register_inside slot (Nat.lt_of_lt_of_le inside (short _ item))]
      exact ⟨_, rfl⟩
    · exact rewriteInsn_other (by simpa using item)
  obtain ⟨insns', mapped⟩ := Result.exists_mapM_eq_ok each
  exact ⟨{ b with insns := insns' }, by simp [rewriteBlk, mapped]⟩

/-- The check on the slots stops no function. -/
private theorem abi0_not_stackSlot (built : Built source chunks f) (corrected : Corrected f g)
    (converted : ssa g = .ok (h, n)) : abi0 h ≠ .error .stackSlot := by
  intro stopped
  obtain ⟨before, b, after, split, -, stopped⟩ :=
    Result.mapM_eq_error.mp (Result.bind_pure_eq_error.mp stopped)
  obtain ⟨passing, ordered⟩ := converted_items built corrected converted (b := b) (by simp [split])
  exact rewriteBlk_not_stackSlot passing ordered stopped

/-- Caller and callee agree exactly on the lists that fit into the table. The check lets the
slot behind its end pass, and the lists that are longer never reach it. -/
theorem agreesOnRegisters_iff {idx : Nat} (parsed : buildFunction idx source = .ok f)
    (corrected : Corrected f g) (converted : ssa g = .ok (h, n)) :
    ∃ chunks, Built source chunks f ∧
      (AgreesOnRegisters chunks f h ↔ ShortLists chunks f h) := by
  obtain ⟨chunks, built⟩ := buildFunction_built parsed
  refine ⟨chunks, built, ?_⟩
  -- The block of a chunk that is converted.
  have block {i : Nat} {c : Chunk} (foundChunk : chunks[i]? = some c) {b : Blk}
      (found : h.find? (i + 1) = some b) : ∃ bf, f.blks[i]? = some bf ∧
        bf.insns = c.insns (numbering f.tmps) ∧ KeepsItems bf.insns b.insns := by
    obtain ⟨j, d, bf, foundChunk', foundBlk, id, insns, keeps⟩ :=
      converted_chunk built corrected converted (Fn.find?_mem found)
    obtain rfl : i = j := by
      rw [Fn.find?_id found] at id
      omega
    obtain rfl : c = d := Option.some.inj (foundChunk.symm.trans foundChunk')
    exact ⟨bf, foundBlk, insns, keeps⟩
  constructor
  · rintro (stopped | ⟨k, returned, agrees⟩) i c foundChunk listed type item
    · exact absurd stopped (abi0_not_stackSlot built corrected converted)
    · obtain ⟨b, found⟩ := Fn.exists_find? listed
      obtain ⟨bf, foundBlk, -, -⟩ := block foundChunk found
      obtain ⟨b', found', -⟩ := (abi0_rewritten returned).find? found
      exact (agrees i c bf b b' foundChunk foundBlk found found' type item).inside
  · intro short
    have each : ∀ b ∈ h.blks, ∃ b', rewriteBlk b = .ok b' := by
      intro b member
      obtain ⟨i, c, bf, foundChunk, -, id, insns, keeps⟩ :=
        converted_chunk built corrected converted member
      refine rewriteBlk_of_short insns keeps (short i c foundChunk ?_)
      rw [← id]
      exact List.mem_map_of_mem (f := Blk.id) member
    obtain ⟨blks, mapped⟩ := Result.exists_mapM_eq_ok each
    have returned : abi0 h = .ok { h with blks } := by simp [abi0, mapped]
    refine Or.inr ⟨_, returned, fun i c bf b b' foundChunk foundBlk found found' type item => ?_⟩
    obtain ⟨bf', foundBlk', insns, keeps⟩ := block foundChunk found
    obtain rfl : bf = bf' := Option.some.inj (foundBlk.symm.trans foundBlk')
    refine listAgrees_of_rewritten insns keeps item ?_
    obtain ⟨b'', found'', rewritten⟩ := (abi0_rewritten returned).find? found
    obtain rfl : b' = b'' := Option.some.inj (found'.symm.trans found'')
    exact rewritten

/-- Blocks with few instructions have short lists. -/
theorem shortLists_of_few (built : Built source chunks f)
    (few : ∀ b ∈ f.blks, b.insns.length ≤ 24) : ShortLists chunks f h := by
  intro i c foundChunk _ type item
  obtain ⟨b, found⟩ := built.blk_of foundChunk
  obtain ⟨d, foundChunk', insns⟩ := built.insns_of found
  obtain rfl : c = d := Option.some.inj (foundChunk.symm.trans foundChunk')
  rw [← filter_insns c item, ← insns]
  exact Nat.le_trans (List.length_filter_le _ _) (few b (List.mem_of_getElem? found))

/-- Caller and callee agree on the lists of the loop test. -/
theorem agreesOnRegisters_iff_simpleLoop :
    ∃ f g h n chunks, buildFunction 0 simpleLoop = .ok f ∧ Corrected f g ∧ ssa g = .ok (h, n) ∧
      Built simpleLoop chunks f ∧ AgreesOnRegisters chunks f h := by
  have ran : ∃ f g ri h n, buildFunction 0 simpleLoop = .ok f ∧
      correct 20 f f.ntmp = .ok (g, ri) ∧ ssa { g with ntmp := ri } = .ok (h, n) ∧
        ∀ b ∈ f.blks, b.insns.length ≤ 24 :=
    ⟨_, _, _, _, _, by rfl, by rfl, by rfl, by decide⟩
  obtain ⟨f, g, ri, h, n, parsed, corrected, converted, few⟩ := ran
  have corrected : Corrected f { g with ntmp := ri } := ⟨20, g, ri, corrected, rfl⟩
  obtain ⟨chunks, built, same⟩ := agreesOnRegisters_iff parsed corrected converted
  exact ⟨f, _, h, n, chunks, parsed, corrected, converted, built,
    same.mpr (shortLists_of_few built few)⟩

/-- A function that returns 25 values. -/
def returnsTwentyFive : Function where
  name := "main"
  body := { items := [{ stmt := .leave (List.replicate 25 (.int 0)) }] }

/-- The last value passes the check, and its register is read behind the end of the table. -/
theorem returnsTwentyFive_overread :
    ∃ f g h n chunks, buildFunction 0 returnsTwentyFive = .ok f ∧ Corrected f g ∧
      ssa g = .ok (h, n) ∧ Built returnsTwentyFive chunks f ∧ abi0 h = .error .overread ∧
        ¬ AgreesOnRegisters chunks f h := by
  have ran : ∃ f g ri h n, buildFunction 0 returnsTwentyFive = .ok f ∧
      correct 30 f f.ntmp = .ok (g, ri) ∧ ssa { g with ntmp := ri } = .ok (h, n) ∧
        abi0 h = .error .overread :=
    ⟨_, _, _, _, _, by rfl, by rfl, by rfl, by rfl⟩
  obtain ⟨f, g, ri, h, n, parsed, corrected, converted, stopped⟩ := ran
  obtain ⟨chunks, built⟩ := buildFunction_built parsed
  refine ⟨f, _, h, n, chunks, parsed, ⟨30, g, ri, corrected, rfl⟩, converted, built, stopped, ?_⟩
  rintro (checked | ⟨k, returned, -⟩)
  · rw [stopped] at checked
    cases checked
  · rw [stopped] at returned
    cases returned

end Agreement

end Abi
end Qbt
