import Mathlib.Data.List.Forall2
import Mathlib.Data.List.Nodup

/-!
# Nodes

The data model of `include/qbt/nodes.h`: values, instructions, blocks and
functions. A block pointer is the block's `id`, which `new_block` never reuses; a
pointer is dereferenced by `Fn.find?`, which fails on a block that has been
destroyed. Fallible code returns a `Result`, and each `Fault` is one way in which
the source stops: a failed assertion, a call of `abort`, or an access outside the
memory it owns.
-/

namespace Qbt

/-- Where the compiler stops instead of returning. -/
inductive Fault where
  /-- an assertion on `val.class` -/
  | valClass
  /-- the bounds check of `vec_at` or `vec_insert` -/
  | outOfBounds
  /-- a rewrite rule that is looked up and missing -/
  | noRule
  /-- `do_idtoval`: no such temporary -/
  | noTemporary
  /-- `finish_block`: illegal comparison type for block -/
  | blockType
  /-- `finish_function`: last block not empty -/
  | missingReturn
  /-- `finish_function`: the last block is no return -/
  | notReturn
  /-- `finish_function`: no such label -/
  | noLabel
  /-- a null pointer or a destroyed block is dereferenced -/
  | dangling
  /-- an assertion on `insn.type` -/
  | insnType
  /-- `abi0`: the slot index is negative or at least 25 -/
  | stackSlot
  /-- `nth_ar`: slot 24 reads past the end of `ar_map` -/
  | overread
  /-- `rewrite_arg`, `rewrite_retarg`: no register, temporary, immediate or reference -/
  | illegalOperand
  /-- `find_free_reg`: ran out of registers -/
  | outOfRegisters
  /-- `output_moves`: parameters and arguments differ in number -/
  | lengthMismatch
  /-- the assembly printer has no case for the instruction, operand or branch -/
  | unimplemented
  /-- a loop of the model used up its iteration bound -/
  | diverged
deriving DecidableEq, Repr

/-- The outcome of a function that may stop with a fault. -/
abbrev Result (α : Type) := Except Fault α

namespace Result

variable {α β : Type}

/-- A sequenced computation returns exactly when both parts return. -/
theorem bind_eq_ok {first : Result α} {next : α → Result β} {value : β} :
    first >>= next = .ok value ↔ ∃ middle, first = .ok middle ∧ next middle = .ok value := by
  cases first with
  | error fault => simp [bind, Except.bind]
  | ok middle => simp [bind, Except.bind]

/-- A sequenced computation stops where one of its parts does. -/
theorem bind_eq_error {first : Result α} {next : α → Result β} {fault : Fault} :
    first >>= next = .error fault ↔
      first = .error fault ∨ ∃ middle, first = .ok middle ∧ next middle = .error fault := by
  cases first with
  | error other => simp [bind, Except.bind]
  | ok middle => simp [bind, Except.bind]

@[simp] theorem ok_bind (value : α) (next : α → Result β) :
    ((.ok value : Result α) >>= next) = next value := rfl

@[simp] theorem error_bind (fault : Fault) (next : α → Result β) :
    ((.error fault : Result α) >>= next) = .error fault := rfl

@[simp] theorem pure_eq (value : α) : (pure value : Result α) = .ok value := rfl

@[simp] theorem throw_eq (fault : Fault) : (throw fault : Result α) = .error fault := rfl

/-- Mapping a fallible function over a list returns exactly when every call does. -/
theorem mapM_eq_ok {f : α → Result β} {inputs : List α} {outputs : List β} :
    inputs.mapM f = .ok outputs ↔ List.Forall₂ (fun a b => f a = .ok b) inputs outputs := by
  induction inputs generalizing outputs with
  | nil =>
    simp only [List.mapM_nil, pure_eq, Except.ok.injEq, List.forall₂_nil_left_iff]
    exact eq_comm
  | cons input rest ih =>
    simp only [List.mapM_cons, bind_eq_ok, pure_eq, Except.ok.injEq, ih,
      List.forall₂_cons_left_iff]
    constructor
    · rintro ⟨b, first, bs, others, rfl⟩
      exact ⟨b, bs, first, others, rfl⟩
    · rintro ⟨b, bs, first, others, rfl⟩
      exact ⟨b, first, bs, others, rfl⟩

/-- Mapping a fallible function over a list stops at the first call that stops. -/
theorem mapM_eq_error {f : α → Result β} {inputs : List α} {fault : Fault} :
    inputs.mapM f = .error fault ↔ ∃ before input after, inputs = before ++ input :: after ∧
      (∀ a ∈ before, ∃ b, f a = .ok b) ∧ f input = .error fault := by
  induction inputs with
  | nil => simp
  | cons first rest ih =>
    rw [List.mapM_cons]
    cases called : f first with
    | error other =>
      rw [error_bind]
      constructor
      · intro stopped
        exact ⟨[], first, rest, rfl, by simp, by rw [called, Except.error.inj stopped]⟩
      · rintro ⟨before, input, after, split, returned, stopped⟩
        cases before with
        | nil =>
          obtain ⟨rfl, -⟩ := List.cons.inj split
          rw [Except.error.inj (called.symm.trans stopped)]
        | cons head before =>
          obtain ⟨rfl, -⟩ := List.cons.inj split
          obtain ⟨b, returns⟩ := returned first List.mem_cons_self
          rw [called] at returns
          cases returns
    | ok b =>
      have skips : (do let bs ← rest.mapM f; pure (b :: bs)) = .error fault ↔
          rest.mapM f = .error fault := by
        cases rest.mapM f <;> simp
      rw [ok_bind, skips, ih]
      constructor
      · rintro ⟨before, input, after, rfl, returned, stopped⟩
        refine ⟨first :: before, input, after, rfl, ?_, stopped⟩
        exact List.forall_mem_cons.mpr ⟨⟨b, called⟩, returned⟩
      · rintro ⟨before, input, after, split, returned, stopped⟩
        cases before with
        | nil =>
          obtain ⟨rfl, -⟩ := List.cons.inj split
          rw [called] at stopped
          cases stopped
        | cons head before =>
          obtain ⟨rfl, split'⟩ := List.cons.inj split
          exact ⟨before, input, after, split', (List.forall_mem_cons.mp returned).2, stopped⟩

/-- Mapping a fallible function over a list returns where every call does. -/
theorem exists_mapM_eq_ok {f : α → Result β} {inputs : List α}
    (returns : ∀ a ∈ inputs, ∃ b, f a = .ok b) : ∃ outputs, inputs.mapM f = .ok outputs := by
  cases mapped : inputs.mapM f with
  | ok outputs => exact ⟨outputs, rfl⟩
  | error fault =>
    obtain ⟨before, input, after, rfl, -, stopped⟩ := mapM_eq_error.mp mapped
    obtain ⟨b, returned⟩ := returns input (by simp)
    rw [stopped] at returned
    cases returned

/-- What is done with a result does not stop. -/
theorem bind_pure_eq_error {first : Result α} {next : α → β} {fault : Fault} :
    (do let a ← first; pure (next a)) = .error fault ↔ first = .error fault := by
  cases first <;> simp

/-- `assert(condition)`, stopping with `fault`. -/
def check (condition : Bool) (fault : Fault) : Result Unit :=
  if condition then .ok () else .error fault

@[simp] theorem check_eq_ok {condition : Bool} {fault : Fault} {done : Unit} :
    check condition fault = .ok done ↔ condition = true := by
  cases condition <;> simp [check]

end Result

/-- `enum insn_type`. -/
inductive InsnType where
  | add | sub | mul | div | rem
  | call | label
  | store | load | alloc | dealloc
  | copy | move | blit
  | eq | ne | le | ge | lt | gt
  | not | neg
  | lshift | rshift
  | beq | bne | ble | bge | blt | bgt | bnz | bez | j | ret
  | arg | retarg | param | retval
  | addr
  | save | restore
deriving DecidableEq, Repr

/-- The range `cmp >= BEQ && cmp <= RET` that `finish_block` asserts. -/
def InsnType.endsBlock : InsnType → Bool
  | .beq | .bne | .ble | .bge | .blt | .bgt | .bnz | .bez | .j | .ret => true
  | _ => false

/-- The instructions that call or read and pass parameters, arguments and results. -/
def InsnType.isConvention : InsnType → Bool
  | .param | .arg | .call | .retval | .retarg => true
  | _ => false

/-- `enum val_type`. -/
inductive VType where
  | notype | i9 | i27
deriving DecidableEq, Repr

/-- `struct val`, one constructor for each `enum val_class`. An immediate keeps its
type in the field `r` of the source. -/
inductive Val where
  | reg (r : Nat)
  | tmp (t : Nat)
  | imm (v : Int) (type : VType)
  | mem (base : Nat) (offset : Int)
  | ref (s : String)
  | noclass
deriving DecidableEq, Repr

namespace Val

/-- `v.class == TMP`. -/
def isTmp : Val → Bool
  | .tmp _ => true
  | _ => false

/-- `v.class == REG`. -/
def isReg : Val → Bool
  | .reg _ => true
  | _ => false

/-- `v.class == IMM`. -/
def isImm : Val → Bool
  | .imm _ _ => true
  | _ => false

/-- `v.class == REF`. -/
def isRef : Val → Bool
  | .ref _ => true
  | _ => false

/-- `hasclass`. -/
def hasclass : Val → Bool
  | .noclass => false
  | _ => true

@[simp] theorem isReg_reg (r : Nat) : (Val.reg r).isReg = true := rfl

@[simp] theorem isReg_tmp (t : Nat) : (Val.tmp t).isReg = false := rfl

@[simp] theorem isReg_imm (v : Int) (type : VType) : (Val.imm v type).isReg = false := rfl

@[simp] theorem isReg_ref (s : String) : (Val.ref s).isReg = false := rfl

@[simp] theorem isReg_noclass : Val.noclass.isReg = false := rfl

theorem isTmp_iff {v : Val} : v.isTmp ↔ ∃ t, v = .tmp t := by
  cases v <;> simp [isTmp]

/-- `same_val`. Immediates are compared without their type, memory operands by
offset only. For two references `same_val` compares the pointers, here the strings are compared:
this makes no difference, since none of its callers has two of them. `reg_free` compares with
what is reserved and `output_moves` with a parameter, which are registers, and `output_move` with
the output of an instruction, which is never a reference. -/
def same : Val → Val → Bool
  | .reg left, .reg right => left == right
  | .tmp left, .tmp right => left == right
  | .imm left _, .imm right _ => left == right
  | .mem _ left, .mem _ right => left == right
  | .ref left, .ref right => left == right
  | .noclass, .noclass => true
  | _, _ => false

end Val

/-- `enum insn_flags`, a bit set of two. -/
structure Flags where
  callTeardown : Bool := false
  callSetup : Bool := false
deriving DecidableEq, Repr

/-- `struct insn`. The two inputs `in[0]` and `in[1]` are separate fields. -/
structure Insn where
  type : InsnType
  vtype : VType
  out : Val
  in0 : Val
  in1 : Val
  v : Int := 0
  flags : Flags := {}
deriving DecidableEq, Repr

/-- `insn_create`. -/
def insnCreate (type : InsnType) (vtype : VType) (out in0 in1 : Val) (v : Int) : Insn :=
  { type, vtype, out, in0, in1, v }

/-- `struct blk`. A successor is the `id` of the block it points to; `toLabel` is the
field `to`. -/
structure Blk where
  name : Option String := none
  id : Nat
  btype : InsnType := .add
  cmp0 : Val := .reg 0
  cmp1 : Val := .reg 0
  s1 : Option Nat := none
  s2 : Option Nat := none
  insns : List Insn := []
  params : List Val := []
  args1 : List Val := []
  args2 : List Val := []
  toLabel : Option String := none
  visited : Nat := 0
deriving DecidableEq, Repr

/-- `struct fn`, with the tables `tmps` and `labels` as association lists. -/
structure Fn where
  name : String := ""
  ntmp : Nat := 0
  nblk : Nat := 0
  maxCalleeSave : Nat := 0
  maxCallSave : Nat := 0
  hasCalls : Bool := false
  blks : List Blk := []
  labels : List (String × Nat) := []
  tmps : List (String × Nat) := []
deriving DecidableEq, Repr

/-- `insadd`: append an instruction to a block. -/
def insadd (b : Blk) (type : InsnType) (vtype : VType) (out in0 in1 : Val) (v : Int) : Blk :=
  { b with insns := b.insns ++ [insnCreate type vtype out in0 in1 v] }

/-- `insn_insert`. -/
def insnInsert (b : Blk) (n : Insn) (pos : Nat) : Result Blk := do
  Result.check (pos ≤ b.insns.length) .outOfBounds
  pure { b with insns := b.insns.insertIdx pos n }

/-- Assignment through `insn_at`. -/
def setInsn (b : Blk) (i : Nat) (n : Insn) : Result Blk := do
  Result.check (i < b.insns.length) .outOfBounds
  pure { b with insns := b.insns.set i n }

/-- `return_blk`. -/
def Blk.isReturn (b : Blk) : Bool := b.btype == .ret

/-- The blocks a traversal pushes for `b`: `s1`, and `s2` where it differs. The
last one pushed comes first, as it is the first one popped. -/
def Blk.pushed (b : Blk) : List Nat :=
  (match b.s2 with
    | some second => if b.s2 ≠ b.s1 then [second] else []
    | none => []) ++ b.s1.toList

namespace Fn

/-- The live block a pointer refers to. -/
def find? (f : Fn) (id : Nat) : Option Blk := f.blks.find? (·.id == id)

/-- Dereference a block pointer. -/
def deref (f : Fn) (id : Nat) : Result Blk :=
  match f.find? id with
  | some b => .ok b
  | none => .error .dangling

/-- Store `b` where its pointer refers to. -/
def put (f : Fn) (b : Blk) : Fn :=
  { f with blks := f.blks.map fun old => if old.id = b.id then b else old }

/-- The pointers in `f->blks`, in order. -/
def ids (f : Fn) : List Nat := f.blks.map (·.id)

@[simp] theorem ids_put (f : Fn) (b : Blk) : (f.put b).ids = f.ids := by
  simp only [ids, put, List.map_map]
  apply List.map_congr_left
  intro old _
  by_cases same : old.id = b.id <;> simp [same]

/-- The block that is found has the name that is looked for. -/
theorem find?_id {f : Fn} {id : Nat} {b : Blk} (found : f.find? id = some b) : b.id = id := by
  simpa using List.find?_some found

theorem find?_mem {f : Fn} {id : Nat} {b : Blk} (found : f.find? id = some b) : b ∈ f.blks :=
  List.mem_of_find?_eq_some found

/-- A pointer can be dereferenced exactly while its block is listed. -/
theorem find?_isSome_iff {f : Fn} {id : Nat} : (f.find? id).isSome ↔ id ∈ f.ids := by
  simp [find?, ids, List.find?_isSome]

/-- Every name in the list is found. -/
theorem exists_find? {f : Fn} {id : Nat} (listed : id ∈ f.ids) : ∃ b, f.find? id = some b :=
  Option.isSome_iff_exists.mp (find?_isSome_iff.mpr listed)

/-- With distinct names every block is found under its own. -/
theorem find?_of_mem {f : Fn} (distinct : f.ids.Nodup) {b : Blk} (member : b ∈ f.blks) :
    f.find? b.id = some b := by
  obtain ⟨found, equal⟩ := exists_find? (List.mem_map_of_mem (f := (·.id)) member)
  rw [equal]
  have sameId := find?_id equal
  exact congrArg some (List.inj_on_of_nodup_map distinct (find?_mem equal) member sameId)

/-- A store is seen through its own pointer and through no other. -/
theorem find?_put {f : Fn} {b : Blk} (listed : b.id ∈ f.ids) (id : Nat) :
    (f.put b).find? id = if id = b.id then some b else f.find? id := by
  have keepsId : ((fun old : Blk => old.id == id) ∘ fun old => if old.id = b.id then b else old) =
      fun old => old.id == id := by
    funext old
    by_cases same : old.id = b.id <;> simp [same]
  have mapped : (f.put b).find? id =
      (f.find? id).map fun old => if old.id = b.id then b else old := by
    simp only [find?, put, List.find?_map, keepsId]
  rw [mapped]
  by_cases same : id = b.id
  · subst id
    obtain ⟨old, found⟩ := exists_find? listed
    simp [found, find?_id found]
  · rw [if_neg same]
    cases found : f.find? id with
    | none => rfl
    | some old => simp [find?_id found, same]

end Fn
end Qbt
