import Qbt.IR.Cfg

/-!
# Meaning of instructions

The source fixes what instructions do only through the assembly it prints, so their
meaning is a parameter. A `Semantics` says what an instruction computes from the
values of its two inputs and the rest of the machine, `M`: memory, the argument and
result slots, the stack, and whatever a call changes. Temporaries and registers are
kept apart from the rest and read and written through the operands only.
-/

namespace Qbt

/-- What instructions and comparisons compute. -/
structure Semantics (W M : Type) where
  /-- the value of an immediate -/
  imm : Int → W
  /-- the address of a symbol -/
  ref : String → W
  /-- what an absent operand reads as -/
  absent : W
  /-- the result of an instruction and its effect on the rest of the machine -/
  effect : InsnType → VType → W → W → Int → M → W × M
  /-- whether a branch on two values is taken -/
  taken : InsnType → W → W → Bool

namespace Semantics

/-- What the compiler relies on when it moves operands around. -/
structure Lawful {W M : Type} (S : Semantics W M) : Prop where
  /-- COPY yields its operand -/
  copy : ∀ w x v m, S.effect .copy .i27 w x v m = (w, m)
  /-- MOVE yields its operand -/
  move : ∀ w x v m, S.effect .move .i27 w x v m = (w, m)
  /-- ADDR of a symbol yields its address -/
  addr : ∀ s x v m, S.effect .addr .i27 (S.ref s) x v m = (S.ref s, m)
  /-- the operands of an addition may be exchanged -/
  add : ∀ type w x v m, S.effect .add type w x v m = S.effect .add type x w v m
  /-- the operands of a multiplication may be exchanged -/
  mul : ∀ type w x v m, S.effect .mul type w x v m = S.effect .mul type x w v m

end Semantics

/-- The temporaries, the registers and the rest of the machine. -/
structure State (W M : Type) where
  tmp : Nat → W
  reg : Nat → W
  world : M

namespace State

variable {W M : Type}

/-- Store a value where an operand points to. -/
def write (state : State W M) (v : Val) (w : W) : State W M :=
  match v with
  | .tmp t => { state with tmp := fun u => if u = t then w else state.tmp u }
  | .reg r => { state with reg := fun u => if u = r then w else state.reg u }
  | _ => state

@[simp] theorem write_tmp_tmp (state : State W M) (t u : Nat) (w : W) :
    (state.write (.tmp t) w).tmp u = if u = t then w else state.tmp u := rfl

@[simp] theorem write_tmp_reg (state : State W M) (t : Nat) (w : W) :
    (state.write (.tmp t) w).reg = state.reg := rfl

@[simp] theorem write_reg_tmp (state : State W M) (r : Nat) (w : W) :
    (state.write (.reg r) w).tmp = state.tmp := rfl

@[simp] theorem write_reg_reg (state : State W M) (r u : Nat) (w : W) :
    (state.write (.reg r) w).reg u = if u = r then w else state.reg u := rfl

@[simp] theorem write_world (state : State W M) (v : Val) (w : W) :
    (state.write v w).world = state.world := by
  cases v <;> rfl

theorem write_with_world (state : State W M) (v : Val) (w : W) :
    { state.write v w with world := state.world } = state.write v w := by
  cases v <;> rfl

end State

namespace Semantics

variable {W M : Type} (S : Semantics W M)

/-- The value of an operand. -/
def value (state : State W M) : Val → W
  | .reg r => state.reg r
  | .tmp t => state.tmp t
  | .imm v _ => S.imm v
  | .ref s => S.ref s
  | .mem _ _ | .noclass => S.absent

@[simp] theorem value_reg (state : State W M) (r : Nat) : S.value state (.reg r) = state.reg r :=
  rfl

@[simp] theorem value_tmp (state : State W M) (t : Nat) : S.value state (.tmp t) = state.tmp t :=
  rfl

@[simp] theorem value_imm (state : State W M) (v : Int) (type : VType) :
    S.value state (.imm v type) = S.imm v := rfl

@[simp] theorem value_ref (state : State W M) (s : String) : S.value state (.ref s) = S.ref s :=
  rfl

@[simp] theorem value_noclass (state : State W M) : S.value state .noclass = S.absent := rfl

/-- Execute an instruction. -/
def exec (n : Insn) (state : State W M) : State W M :=
  let result := S.effect n.type n.vtype (S.value state n.in0) (S.value state n.in1) n.v state.world
  { state.write n.out result.1 with world := result.2 }

/-- Assign the values of arguments, all read before the first assignment, to
parameters. -/
def assign (params args : List Val) (state : State W M) : State W M :=
  (params.zip (args.map (S.value state))).foldl (fun state entry => state.write entry.1 entry.2)
    state

@[simp] theorem assign_nil (state : State W M) : S.assign [] [] state = state := rfl

/-- A write is seen through its own operand. -/
theorem value_write_self (state : State W M) {v : Val} (place : v.isTmp ∨ v.isReg) (w : W) :
    S.value (state.write v w) v = w := by
  cases v with
  | tmp t => simp
  | reg r => simp
  | _ => simp [Val.isTmp, Val.isReg] at place

/-- A write is not seen through any other operand. -/
theorem value_write_of_ne (state : State W M) {v other : Val} (differs : other ≠ v) (w : W) :
    S.value (state.write v w) other = S.value state other := by
  cases v with
  | tmp t =>
    cases other with
    | tmp u =>
      have distinct : u ≠ t := fun same => differs (by rw [same])
      simp [distinct]
    | _ => rfl
  | reg r =>
    cases other with
    | reg u =>
      have distinct : u ≠ r := fun same => differs (by rw [same])
      simp [distinct]
    | _ => rfl
  | _ => rfl

private theorem value_writes_of_notMem (entries : List (Val × W)) (state : State W M) {v : Val}
    (absent : v ∉ entries.map Prod.fst) :
    S.value (entries.foldl (fun state entry => state.write entry.1 entry.2) state) v =
      S.value state v := by
  induction entries generalizing state with
  | nil => rfl
  | cons entry rest ih =>
    simp only [List.map_cons, List.mem_cons, not_or] at absent
    rw [List.foldl_cons, ih _ absent.2, S.value_write_of_ne state absent.1]

private theorem value_writes (params : List Val) (values : List W) (state : State W M)
    (length : values.length = params.length) (nodup : params.Nodup)
    (places : ∀ p ∈ params, p.isTmp ∨ p.isReg) :
    List.Forall₂ (fun p w =>
      S.value ((params.zip values).foldl (fun state entry => state.write entry.1 entry.2) state) p =
        w) params values := by
  induction params generalizing values state with
  | nil =>
    obtain rfl : values = [] := List.eq_nil_of_length_eq_zero length
    exact .nil
  | cons p rest ih =>
    obtain ⟨w, values, rfl⟩ := List.exists_cons_of_length_eq_add_one length
    simp only [List.length_cons, Nat.add_right_cancel_iff] at length
    obtain ⟨fresh, nodup⟩ := List.nodup_cons.mp nodup
    have absent : p ∉ (rest.zip values).map Prod.fst := by
      rwa [List.map_fst_zip (Nat.le_of_eq length.symm)]
    simp only [List.zip_cons_cons, List.foldl_cons]
    constructor
    · rw [S.value_writes_of_notMem _ _ absent]
      exact S.value_write_self state (places p (by simp)) w
    · exact ih values _ length nodup fun q member => places q (List.mem_cons_of_mem _ member)

/-- Distinct parameters receive the values of their arguments. -/
theorem assign_values {params args : List Val} (state : State W M)
    (length : args.length = params.length) (nodup : params.Nodup)
    (places : ∀ p ∈ params, p.isTmp ∨ p.isReg) :
    List.Forall₂ (fun p a => S.value (S.assign params args state) p = S.value state a)
      params args := by
  have assigned := S.value_writes params (args.map (S.value state)) state (by simpa) nodup places
  exact List.forall₂_map_right_iff.mp assigned

/-- Whatever is no parameter keeps its value. -/
theorem assign_of_notMem {params : List Val} (args : List Val) (state : State W M) {v : Val}
    (other : v ∉ params) : S.value (S.assign params args state) v = S.value state v := by
  apply S.value_writes_of_notMem
  intro member
  obtain ⟨entry, listed, rfl⟩ := List.mem_map.mp member
  exact other (List.of_mem_zip (a := entry.1) (b := entry.2) listed).1

@[simp] theorem assign_world (params args : List Val) (state : State W M) :
    (S.assign params args state).world = state.world := by
  unfold assign
  generalize params.zip (args.map (S.value state)) = entries
  induction entries generalizing state with
  | nil => rfl
  | cons entry rest ih => rw [List.foldl_cons, ih, State.write_world]

/-- Assignments to temporaries change no register. -/
theorem assign_reg {params : List Val} (args : List Val) (state : State W M)
    (temps : ∀ p ∈ params, p.isTmp) : (S.assign params args state).reg = state.reg := by
  funext r
  have other : Val.reg r ∉ params := fun member => absurd (temps _ member) (by simp [Val.isTmp])
  exact S.assign_of_notMem args state other

end Semantics

/-- What an observer is shown: an instruction with the values of its inputs, a branch
decision, or a return. -/
inductive Event (W : Type) where
  | insn (type : InsnType) (vtype : VType) (in0 in1 : W) (v : Int)
  | branch (taken : Bool)
  | leave
deriving DecidableEq, Repr

namespace Semantics

variable {W M : Type} (S : Semantics W M)

/-- The interpretation in which the instructions of the types `visible` are observed. -/
def interp (visible : InsnType → Bool) : Interp (State W M) (Event W) where
  exec := S.exec
  observe n state :=
    if visible n.type then
      [.insn n.type n.vtype (S.value state n.in0) (S.value state n.in1) n.v]
    else []
  taken type cmp0 cmp1 state := S.taken type (S.value state cmp0) (S.value state cmp1)
  decision taken := [.branch taken]
  assign := S.assign
  leave _ := [.leave]
  assign_nil _ := rfl

/-- Unbounded integers without memory or calls, to run programs on. -/
def integers : Semantics Int Unit where
  imm v := v
  ref _ := 0
  absent := 0
  effect type _ w x _ m :=
    (match type with
      | .add => w + x
      | .sub => w - x
      | .mul => w * x
      | .lt => if w < x then 1 else 0
      | .copy | .move | .addr => w
      | _ => 0, m)
  taken type w x :=
    match type with
    | .beq => w == x
    | .bne => w != x
    | .blt => w < x
    | .ble => w ≤ x
    | .bgt => x < w
    | .bge => x ≤ w
    | .bnz => w != 0
    | .bez => w == 0
    | _ => false

/-- The integers satisfy the laws for moves and copies. -/
theorem integers_lawful : integers.Lawful where
  copy _ _ _ _ := rfl
  move _ _ _ _ := rfl
  addr _ _ _ _ := rfl
  add _ w x _ _ := by simp [integers, Int.add_comm w x]
  mul _ w x _ _ := by simp [integers, Int.mul_comm w x]

end Semantics
end Qbt
