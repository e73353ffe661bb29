import Qbt.Frontend.Grammar

/-!
# Reading programs

A reader for each rule of the grammar, which looks at the next tokens only. Each of them
decides its rule, so that the grammar is unambiguous: tokens have at most one parse tree.
-/

namespace Qbt.Frontend

open Phrases

/-- Read an `id`. -/
def readId : Reader Token String
  | .id x :: rest => some (String.ofList x, rest)
  | .string x :: rest => some (String.ofList (cloneString x), rest)
  | _ => none

/-- Read an `int`. -/
def readInt : Reader Token Int
  | .int n :: rest => some (n, rest)
  | _ => none

/-- Read a `type`. -/
def readType : Reader Token VType
  | .i9 :: rest => some (.i9, rest)
  | .i27 :: rest => some (.i27, rest)
  | _ => none

/-- Read an `arg`. -/
def readArg : Reader Token Arg
  | .int n :: rest => some (.int n, rest)
  | ts => (readId ts).map fun read => (.id read.1, read.2)

/-- Read a `param`. -/
def readParam : Reader Token (VType × String) := fun ts => do
  let (type, mid) ← readType ts
  let (name, rest) ← readId mid
  pure ((type, name), rest)

section Words

variable {ts rest : List Token}

/-- The reader of names decides their rule. -/
theorem readId_iff {name : String} : readId ts = some (name, rest) ↔ IdRule ts name rest := by
  constructor
  · intro read
    unfold readId at read
    split at read
    · cases read
      exact .id
    · cases read
      exact .string
    · cases read
  · rintro (_ | _) <;> rfl

private theorem readInt_iff {n : Int} : readInt ts = some (n, rest) ↔ IntRule ts n rest := by
  constructor
  · intro read
    unfold readInt at read
    split at read
    · cases read
      exact .int
    · cases read
  · rintro ⟨⟩
    rfl

private theorem readType_iff {type : VType} :
    readType ts = some (type, rest) ↔ TypeRule ts type rest := by
  constructor
  · intro read
    unfold readType at read
    split at read
    · cases read
      exact .i9
    · cases read
      exact .i27
    · cases read
  · rintro (_ | _) <;> rfl

private theorem readArg_iff {a : Arg} : readArg ts = some (a, rest) ↔ ArgRule ts a rest := by
  constructor
  · intro read
    unfold readArg at read
    split at read
    · cases read
      exact .int .int
    · simp only [Option.map_eq_some_iff, Prod.exists] at read
      obtain ⟨name, rest, read, same⟩ := read
      cases same
      exact .id (readId_iff.mp read)
  · rintro (isId | isInt)
    · cases isId <;> rfl
    · cases isInt
      rfl

private theorem readParam_iff {param : VType × String} :
    readParam ts = some (param, rest) ↔ ParamRule ts param rest := by
  constructor
  · intro read
    simp only [readParam, Option.bind_eq_bind, Option.bind_eq_some_iff, Prod.exists] at read
    obtain ⟨type, mid, isType, name, behind, isId, same⟩ := read
    cases same
    exact .param (readType_iff.mp isType) (readId_iff.mp isId)
  · rintro ⟨isType, isId⟩
    simp [readParam, readType_iff.mpr isType, readId_iff.mpr isId]

end Words

/-- Read a list that may be left out. -/
def readOpt {α : Type} (read : Reader Token α) : Reader Token (List α) :=
  readOptional (readSeparated .comma read)

/-- The tokens a list ends in front of. -/
def ListEnd (ts : List Token) : Prop := ∃ rest, ts = .rparen :: rest ∨ ts = .rbrace :: rest

/-- Lists of elements that are decided are decided. -/
theorem readOpt_decides {α : Type} {read : Reader Token α} {element : Phrase Token α}
    (decides : ∀ {ts v rest}, read ts = some (v, rest) ↔ element ts v rest)
    (shrinks : ∀ {ts v rest}, element ts v rest → rest.length < ts.length)
    (stops : ∀ {ts}, ListEnd ts → read ts = none) :
    Decides (readOpt read) (OptRule element) ListEnd := by
  have elements : Decides read element fun _ => True :=
    ⟨decides.mp, fun isElement _ => decides.mpr isElement⟩
  have closes : Closes .comma read (fun _ => True) ListEnd := by
    refine ⟨fun _ => trivial, fun _ => trivial, ?_, stops⟩
    rintro rest ⟨behind, rfl | rfl⟩ <;> simp
  exact (elements.separated shrinks closes).optional
    fun ends => readSeparated_eq_none (stops ends)

/-- A name takes at least one token. -/
theorem IdRule.shrinks {ts rest : List Token} {name : String} (isId : IdRule ts name rest) :
    rest.length < ts.length := by
  cases isId <;> simp

/-- An integer takes at least one token. -/
theorem IntRule.shrinks {ts rest : List Token} {n : Int} (isInt : IntRule ts n rest) :
    rest.length < ts.length := by
  cases isInt
  simp

/-- An argument takes at least one token. -/
theorem ArgRule.shrinks {ts rest : List Token} {a : Arg} (isArg : ArgRule ts a rest) :
    rest.length < ts.length := by
  cases isArg with
  | id isId => exact isId.shrinks
  | int isInt => exact isInt.shrinks

/-- A parameter takes at least one token. -/
theorem ParamRule.shrinks {ts rest : List Token} {param : VType × String}
    (isParam : ParamRule ts param rest) : rest.length < ts.length := by
  obtain ⟨isType, isId⟩ := isParam
  have shorter := isId.shrinks
  cases isType <;> exact Nat.lt_succ_of_lt shorter

private theorem readId_decides : Decides (readOpt readId) (OptRule IdRule) ListEnd :=
  readOpt_decides readId_iff IdRule.shrinks (by rintro ts ⟨rest, rfl | rfl⟩ <;> rfl)

private theorem readArg_decides : Decides (readOpt readArg) (OptRule ArgRule) ListEnd :=
  readOpt_decides readArg_iff ArgRule.shrinks (by rintro ts ⟨rest, rfl | rfl⟩ <;> rfl)

/-- Before the end of a list an optional parameter is decided. -/
theorem readParam_decides : Decides (readOpt readParam) (OptRule ParamRule) ListEnd :=
  readOpt_decides readParam_iff ParamRule.shrinks (by rintro ts ⟨rest, rfl | rfl⟩ <;> rfl)

/-- Before the end of a list an optional integer is decided. -/
theorem readInt_decides : Decides (readOpt readInt) (OptRule IntRule) ListEnd :=
  readOpt_decides readInt_iff IntRule.shrinks (by rintro ts ⟨rest, rfl | rfl⟩ <;> rfl)

/-- The operator a token stands for between the operands of a value. -/
def binOp? : Token → Option BinOp
  | .plus => some .add
  | .minus => some .sub
  | .star => some .mul
  | .div => some .div
  | .rem => some .rem
  | .eq => some .eq
  | .ne => some .ne
  | .le => some .le
  | .ge => some .ge
  | .lt => some .lt
  | .gt => some .gt
  | .from => some .lshift
  | .to => some .rshift
  | _ => none

/-- The comparison a token stands for. -/
def cond? : Token → Option Cond
  | .eq => some .eq
  | .ne => some .ne
  | .le => some .le
  | .ge => some .ge
  | .lt => some .lt
  | .gt => some .gt
  | _ => none

private theorem binOp?_iff {t : Token} {op : BinOp} : binOp? t = some op ↔ t = op.token := by
  constructor
  · intro isOp
    cases t <;> cases isOp <;> rfl
  · rintro rfl
    cases op <;> rfl

private theorem cond?_iff {t : Token} {op : Cond} : cond? t = some op ↔ t = op.token := by
  constructor
  · intro isOp
    cases t <;> cases isOp <;> rfl
  · rintro rfl
    cases op <;> rfl

/-- An operand on its own is a value: `imm` or `move`. -/
def Arg.value : Arg → VType → String → Plain
  | .int n => fun type dst => .immInt type dst n
  | .id src => fun type dst => .move type dst src

/-- Go on behind the first operand of a value. -/
def readValueBehind (a : Arg) : Reader Token (VType → String → Plain)
  | [] => some (a.value, [])
  | t :: mid =>
    match binOp? t with
    | none => some (a.value, t :: mid)
    | some op =>
      (readArg mid).map fun read => (fun type dst => .binary op type dst a read.1, read.2)

/-- Read what stands behind `type id =`. -/
def readValue : Reader Token (VType → String → Plain)
  | .bang :: ts =>
    (readArg ts).map fun read => (fun type dst => .unary .not type dst read.1, read.2)
  | .minus :: ts =>
    (readArg ts).map fun read => (fun type dst => .unary .neg type dst read.1, read.2)
  | .and :: ts => (readId ts).map fun read => (fun type dst => .immRef type dst read.1, read.2)
  | .alloc :: .int n :: rest => some (fun type dst => .alloc type dst n, rest)
  | .alloc :: ts => (readId ts).map fun read => (fun type dst => .addr type dst read.1, read.2)
  | ts => (readArg ts).bind fun read => readValueBehind read.1 read.2

/-- Read a call behind its callee and the parenthesis. -/
def readCall (callee : Callee) : Reader Token Stmt := fun ts => do
  match ← readOpt readArg ts with
  | (args, .rparen :: .fatArrow :: .lparen :: mid) =>
    match ← readOpt readId mid with
    | (rets, .rparen :: rest) => pure (.call callee args rets, rest)
    | _ => none
  | _ => none

/-- Read an instruction that starts with a `type`. -/
def readTyped (type : VType) : Reader Token Stmt := fun ts => do
  match ← readId ts with
  | (dst, .assign :: mid) =>
    let (value, rest) ← readValue mid
    pure (.plain (value type dst), rest)
  | (dst, .from :: mid) =>
    let (base, behind) ← readId mid
    let (offset, rest) ← readInt behind
    pure (.plain (.load type dst base offset), rest)
  | _ => none

/-- Read an instruction that starts with an `arg`. -/
def readArgInsn (a : Arg) : Reader Token Stmt
  | [] => none
  | t :: mid =>
    match t, a with
    | .thinArrow, a => (readId mid).map fun read => (.branchNz a read.1, read.2)
    | .to, a => do
      let (type, behind) ← readType mid
      let (base, last) ← readId behind
      let (offset, rest) ← readInt last
      pure (.plain (.store a type base offset), rest)
    | .lparen, .id name => readCall (.id name) mid
    | .blit, .id dst => do
      let (size, behind) ← readInt mid
      let (src, rest) ← readId behind
      pure (.plain (.blit dst size src), rest)
    | t, a => do
      let op ← cond? t
      match ← readArg mid with
      | (b, .thinArrow :: behind) => (readId behind).map fun read => (.branch op a b read.1, read.2)
      | _ => none

/-- Read an `insn`. -/
def readInsn : Reader Token Stmt
  | .alloc :: .alloc :: .int n :: rest => some (.plain (.dealloc n), rest)
  | .bang :: ts => do
    match ← readArg ts with
    | (a, .thinArrow :: mid) => (readId mid).map fun read => (.branchEz a read.1, read.2)
    | _ => none
  | .thinArrow :: ts => (readId ts).map fun read => (.jump read.1, read.2)
  | .fatArrow :: .lparen :: ts => do
    match ← readOpt readArg ts with
    | (args, .rparen :: rest) => pure (.leave args, rest)
    | _ => none
  | .and :: ts => do
    match ← readId ts with
    | (name, .lparen :: mid) => readCall (.symbol name) mid
    | _ => none
  | .i9 :: ts => readTyped .i9 ts
  | .i27 :: ts => readTyped .i27 ts
  | ts => (readArg ts).bind fun read => readArgInsn read.1 read.2

/-- An instruction ends in front of a semicolon or the end of the body. -/
def InsnEnd (ts : List Token) : Prop := ∃ rest, ts = .semi :: rest ∨ ts = .rbrace :: rest

section Insns

variable {ts rest : List Token}

private theorem readValueBehind_sound {a : Arg} (isArg : ArgRule ts a rest) {last : List Token}
    {value : VType → String → Plain} (read : readValueBehind a rest = some (value, last)) :
    ValueRule ts value last := by
  have alone : ValueRule ts a.value rest := by
    cases isArg with
    | id isId => exact .move isId
    | int isInt => exact .immInt isInt
  cases rest with
  | nil =>
    cases read
    exact alone
  | cons t mid =>
    simp only [readValueBehind] at read
    split at read
    · cases read
      exact alone
    · rename_i op isOp
      simp only [Option.map_eq_some_iff, Prod.exists] at read
      obtain ⟨b, behind, isRight, same⟩ := read
      cases same
      exact .binary (binOp?_iff.mp isOp ▸ isArg) (readArg_iff.mp isRight)

private theorem readValue_decides : Decides readValue ValueRule InsnEnd where
  sound := by
    intro ts value rest read
    unfold readValue at read
    split at read
    · simp only [Option.map_eq_some_iff, Prod.exists] at read
      obtain ⟨a, behind, operand, same⟩ := read
      cases same
      exact @ValueRule.unary _ _ .not a (readArg_iff.mp operand)
    · simp only [Option.map_eq_some_iff, Prod.exists] at read
      obtain ⟨a, behind, operand, same⟩ := read
      cases same
      exact @ValueRule.unary _ _ .neg a (readArg_iff.mp operand)
    · simp only [Option.map_eq_some_iff, Prod.exists] at read
      obtain ⟨symbol, behind, isId, same⟩ := read
      cases same
      exact .immRef (.addr (readId_iff.mp isId))
    · cases read
      exact .alloc .int
    · simp only [Option.map_eq_some_iff, Prod.exists] at read
      obtain ⟨src, behind, isId, same⟩ := read
      cases same
      exact .addr (readId_iff.mp isId)
    · simp only [Option.bind_eq_some_iff, Prod.exists] at read
      obtain ⟨a, behind, isArg, read⟩ := read
      exact readValueBehind_sound (readArg_iff.mp isArg) read
  complete := by
    intro ts value rest isValue ends
    have stops : ∀ a, readValueBehind a rest = some (a.value, rest) := by
      intro a
      obtain ⟨behind, rfl | rfl⟩ := ends <;> rfl
    have operand : ∀ {ts a last}, ArgRule ts a last →
        readValue ts = readValueBehind a last := by
      intro ts a last isArg
      rcases isArg with ⟨_ | _⟩ | ⟨⟨⟩⟩ <;> rfl
    cases isValue with
    | @binary _ _ mid op a b left right =>
      rw [operand left]
      simp only [readValueBehind, binOp?_iff.mpr rfl, readArg_iff.mpr right, Option.map_some]
    | @unary _ _ op a isArg =>
      cases op <;> simp only [UnOp.token, readValue, readArg_iff.mpr isArg, Option.map_some]
    | immInt isInt =>
      rw [operand (.int isInt), stops]
      rfl
    | immRef isAddr =>
      obtain ⟨isId⟩ := isAddr
      simp only [readValue, readId_iff.mpr isId, Option.map_some]
    | move isId =>
      rw [operand (.id isId), stops]
      rfl
    | alloc isInt =>
      cases isInt
      rfl
    | addr isId => cases isId <;> rfl

private theorem readCall_sound {callee : Callee} {s : Stmt}
    (read : readCall callee ts = some (s, rest)) : ∃ args rets mid, s = .call callee args rets ∧
      OptRule ArgRule ts args (.rparen :: .fatArrow :: .lparen :: mid) ∧
      OptRule IdRule mid rets (.rparen :: rest) := by
  simp only [readCall, Option.bind_eq_bind, Option.bind_eq_some_iff, Prod.exists] at read
  obtain ⟨args, mid, isArgs, read⟩ := read
  split at read
  · rename_i args mid same
    cases same
    simp only [Option.bind_eq_some_iff, Prod.exists] at read
    obtain ⟨rets, last, isRets, read⟩ := read
    split at read
    · rename_i rets rest same
      cases same
      cases read
      exact ⟨_, _, _, rfl, readArg_decides.sound isArgs, readId_decides.sound isRets⟩
    · cases read
  · cases read

private theorem readCall_complete {callee : Callee} {args : List Arg} {rets : List String}
    {mid : List Token} (isArgs : OptRule ArgRule ts args (.rparen :: .fatArrow :: .lparen :: mid))
    (isRets : OptRule IdRule mid rets (.rparen :: rest)) :
    readCall callee ts = some (.call callee args rets, rest) := by
  have first := readArg_decides.complete isArgs ⟨_, Or.inl rfl⟩
  have second := readId_decides.complete isRets ⟨_, Or.inl rfl⟩
  simp only [readCall, first, second, Option.bind_eq_bind, Option.bind_some]
  rfl

private theorem readTyped_sound {type : VType} {s : Stmt} {start : List Token}
    (isType : TypeRule start type ts) (read : readTyped type ts = some (s, rest)) :
    InsnRule start s rest := by
  simp only [readTyped, Option.bind_eq_bind, Option.bind_eq_some_iff, Prod.exists] at read
  obtain ⟨dst, mid, isId, read⟩ := read
  split at read
  · rename_i dst mid same
    cases same
    simp only [Option.bind_eq_some_iff, Prod.exists] at read
    obtain ⟨value, last, isValue, same⟩ := read
    cases same
    exact .value isType (readId_iff.mp isId) (readValue_decides.sound isValue)
  · rename_i dst mid same
    cases same
    simp only [Option.bind_eq_some_iff, Prod.exists] at read
    obtain ⟨base, behind, isBase, offset, last, isOffset, same⟩ := read
    cases same
    exact .load isType (readId_iff.mp isId) (readId_iff.mp isBase) (readInt_iff.mp isOffset)
  · cases read

private theorem readArgInsn_sound {a : Arg} {s : Stmt} {start : List Token}
    (isArg : ArgRule start a ts)
    (read : readArgInsn a ts = some (s, rest)) : InsnRule start s rest := by
  unfold readArgInsn at read
  split at read
  · cases read
  · rename_i t mid
    split at read
    · simp only [Option.map_eq_some_iff, Prod.exists] at read
      obtain ⟨name, last, isId, same⟩ := read
      cases same
      exact .branchNz isArg (readId_iff.mp isId)
    · simp only [Option.bind_eq_bind, Option.bind_eq_some_iff, Prod.exists] at read
      obtain ⟨type, behind, isType, base, last, isBase, offset, rest, isOffset, same⟩ := read
      cases same
      exact .store isArg (readType_iff.mp isType) (readId_iff.mp isBase) (readInt_iff.mp isOffset)
    · obtain ⟨args, rets, behind, rfl, isArgs, isRets⟩ := readCall_sound read
      obtain ⟨isId⟩ := isArg
      exact .call (.id isId) isArgs isRets
    · simp only [Option.bind_eq_bind, Option.bind_eq_some_iff, Prod.exists] at read
      obtain ⟨size, behind, isSize, src, last, isSrc, same⟩ := read
      cases same
      obtain ⟨isId⟩ := isArg
      exact .blit isId (readInt_iff.mp isSize) (readId_iff.mp isSrc)
    · simp only [Option.bind_eq_bind, Option.bind_eq_some_iff, Prod.exists] at read
      obtain ⟨op, isCond, b, behind, isRight, read⟩ := read
      obtain rfl := cond?_iff.mp isCond
      split at read
      · rename_i b behind same
        cases same
        simp only [Option.map_eq_some_iff, Prod.exists] at read
        obtain ⟨name, last, isId, same⟩ := read
        cases same
        exact .branch isArg (readArg_iff.mp isRight) (readId_iff.mp isId)
      · cases read

/-- What is read is derived by the rule of instructions. -/
theorem readInsn_sound {s : Stmt} (read : readInsn ts = some (s, rest)) : InsnRule ts s rest := by
  unfold readInsn at read
  split at read
  · cases read
    exact .dealloc .int
  · simp only [Option.bind_eq_bind, Option.bind_eq_some_iff, Prod.exists] at read
    obtain ⟨a, mid, isArg, read⟩ := read
    split at read
    · rename_i a mid same
      cases same
      simp only [Option.map_eq_some_iff, Prod.exists] at read
      obtain ⟨name, last, isId, same⟩ := read
      cases same
      exact .branchEz (readArg_iff.mp isArg) (readId_iff.mp isId)
    · cases read
  · simp only [Option.map_eq_some_iff, Prod.exists] at read
    obtain ⟨name, last, isId, same⟩ := read
    cases same
    exact .jump (readId_iff.mp isId)
  · simp only [Option.bind_eq_bind, Option.bind_eq_some_iff, Prod.exists] at read
    obtain ⟨args, mid, isArgs, read⟩ := read
    split at read
    · rename_i args last same
      cases same
      cases read
      exact .leave (readArg_decides.sound isArgs)
    · cases read
  · simp only [Option.bind_eq_bind, Option.bind_eq_some_iff, Prod.exists] at read
    obtain ⟨name, mid, isId, read⟩ := read
    split at read
    · rename_i name mid same
      cases same
      obtain ⟨args, rets, behind, rfl, isArgs, isRets⟩ := readCall_sound read
      exact .call (.symbol (.addr (readId_iff.mp isId))) isArgs isRets
    · cases read
  · exact readTyped_sound .i9 read
  · exact readTyped_sound .i27 read
  · simp only [Option.bind_eq_some_iff, Prod.exists] at read
    obtain ⟨a, mid, isArg, read⟩ := read
    exact readArgInsn_sound (readArg_iff.mp isArg) read

/-- What starts with an `arg` is read as such. -/
theorem readInsn_arg {a : Arg} {mid : List Token} (isArg : ArgRule ts a mid) :
    readInsn ts = readArgInsn a mid := by
  rcases isArg with ⟨_ | _⟩ | ⟨⟨⟩⟩ <;> rfl

private theorem readInsn_typed {type : VType} {mid : List Token} (isType : TypeRule ts type mid) :
    readInsn ts = readTyped type mid := by
  cases isType <;> rfl

/-- What is derived by the rule of instructions is read where an instruction ends. -/
theorem readInsn_complete {s : Stmt} (isInsn : InsnRule ts s rest) (ends : InsnEnd rest) :
    readInsn ts = some (s, rest) := by
  cases isInsn with
  | value isType isId isValue =>
    rw [readInsn_typed isType, readTyped, readId_iff.mpr isId]
    simp only [Option.bind_eq_bind, Option.bind_some, readValue_decides.complete isValue ends]
    rfl
  | load isType isId isBase isOffset =>
    rw [readInsn_typed isType, readTyped, readId_iff.mpr isId]
    simp only [Option.bind_eq_bind, Option.bind_some, readId_iff.mpr isBase,
      readInt_iff.mpr isOffset]
    rfl
  | store isArg isType isBase isOffset =>
    rw [readInsn_arg isArg]
    simp only [readArgInsn, Option.bind_eq_bind, Option.bind_some, readType_iff.mpr isType,
      readId_iff.mpr isBase, readInt_iff.mpr isOffset]
    rfl
  | blit isDst isSize isSrc =>
    rw [readInsn_arg (.id isDst)]
    simp only [readArgInsn, Option.bind_eq_bind, Option.bind_some, readInt_iff.mpr isSize,
      readId_iff.mpr isSrc]
    rfl
  | dealloc isInt =>
    cases isInt
    rfl
  | @branch _ _ _ _ op _ _ _ left right isId =>
    rw [readInsn_arg left]
    cases op <;>
    simp only [Cond.token, readArgInsn, cond?, readArg_iff.mpr right, readId_iff.mpr isId,
      Option.bind_eq_bind, Option.bind_some, Option.map_some]
  | branchNz isArg isId =>
    rw [readInsn_arg isArg]
    simp only [readArgInsn, readId_iff.mpr isId, Option.map_some]
  | branchEz isArg isId =>
    simp only [readInsn, readArg_iff.mpr isArg, readId_iff.mpr isId, Option.bind_eq_bind,
      Option.bind_some, Option.map_some]
  | jump isId => simp only [readInsn, readId_iff.mpr isId, Option.map_some]
  | call isCallee isArgs isRets =>
    cases isCallee with
    | symbol isAddr =>
      obtain ⟨isId⟩ := isAddr
      simp only [readInsn, readId_iff.mpr isId, Option.bind_eq_bind, Option.bind_some]
      exact readCall_complete isArgs isRets
    | id isId =>
      rw [readInsn_arg (.id isId)]
      exact readCall_complete isArgs isRets
  | leave isArgs =>
    have args := readArg_decides.complete isArgs ⟨_, Or.inl rfl⟩
    simp only [readInsn, args, Option.bind_eq_bind, Option.bind_some]
    rfl

end Insns

end Qbt.Frontend
