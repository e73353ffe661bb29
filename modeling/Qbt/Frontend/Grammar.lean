import Qbt.Frontend.Source
import Qbt.Frontend.Words
import Qbt.Std.Phrases

/-!
# The grammar of `parser.y`

The productions, with what each phrase stands for. A phrase is a relation between the tokens
it starts, its parse tree and the tokens behind it. Rules that differ only in an operator
share a constructor, as their parse trees do; the empty rules that only carry actions are left
out.
-/

namespace Qbt.Frontend

open Phrases

/-- The tokens between the operands of `arith`, `cond` and `logic`. -/
def BinOp.token : BinOp → Token
  | .add => .plus
  | .sub => .minus
  | .mul => .star
  | .div => .div
  | .rem => .rem
  | .eq => .eq
  | .ne => .ne
  | .le => .le
  | .ge => .ge
  | .lt => .lt
  | .gt => .gt
  | .lshift => .from
  | .rshift => .to

/-- The tokens in front of the operand of `logic`. -/
def UnOp.token : UnOp → Token
  | .not => .bang
  | .neg => .minus

/-- The tokens between the operands of `branch`. -/
def Cond.token : Cond → Token
  | .eq => .eq
  | .ne => .ne
  | .le => .le
  | .ge => .ge
  | .lt => .lt
  | .gt => .gt

/-- `top`. -/
inductive Top where
  | data (name : String) (consts : List Int)
  | function (f : Function)
deriving DecidableEq, Repr

/-- `id`, with the rules that are nothing else: `mem_base`, `local` and `ret`. -/
inductive IdRule : Phrase Token String where
  | id {rest : List Token} {x : List Char} : IdRule (.id x :: rest) (String.ofList x) rest
  | string {rest : List Token} {x : List Char} :
      IdRule (.string x :: rest) (String.ofList (cloneString x)) rest

/-- `int`, with the rules that are nothing else: `const` and `mem_off`. -/
inductive IntRule : Phrase Token Int where
  | int {rest : List Token} {n : Int} : IntRule (.int n :: rest) n rest

/-- `type`. -/
inductive TypeRule : Phrase Token VType where
  | i9 {rest : List Token} : TypeRule (.i9 :: rest) .i9 rest
  | i27 {rest : List Token} : TypeRule (.i27 :: rest) .i27 rest

/-- `arg`, with the rules that are nothing else: `call_arg` and `proc_ret`. -/
inductive ArgRule : Phrase Token Arg where
  | id {ts rest : List Token} {name : String} (isId : IdRule ts name rest) :
      ArgRule ts (.id name) rest
  | int {ts rest : List Token} {n : Int} (isInt : IntRule ts n rest) : ArgRule ts (.int n) rest

/-- `addr`. -/
inductive AddrRule : Phrase Token String where
  | addr {ts rest : List Token} {name : String} (isId : IdRule ts name rest) :
      AddrRule (.and :: ts) name rest

/-- `param`. -/
inductive ParamRule : Phrase Token (VType × String) where
  | param {ts rest mid : List Token} {type : VType} {name : String} (isType : TypeRule ts type mid)
      (isId : IdRule mid name rest) : ParamRule ts (type, name) rest

/-- `label`. -/
inductive LabelRule : Phrase Token String where
  | label {ts rest : List Token} {name : String} (isId : IdRule ts name (.colon :: rest)) :
      LabelRule ts name rest

/-- `labels`. -/
inductive LabelsRule : Phrase Token (List String) where
  | labels {ts rest mid : List Token} {names : List String} {name : String}
      (others : LabelsRule ts names mid) (isLabel : LabelRule mid name rest) :
      LabelsRule ts (names ++ [name]) rest
  | label {ts rest : List Token} {name : String} (isLabel : LabelRule ts name rest) :
      LabelsRule ts [name] rest

/-- `opt_consts`, `opt_params`, `opt_call_args`, `opt_call_rets` and `opt_proc_rets`, each with
the rule for the elements of its list. -/
abbrev OptRule {α : Type} (element : Phrase Token α) : Phrase Token (List α) :=
  Optional (Separated .comma element)

/-- What stands behind `type id =`, with the instruction for a type and a target: `arith`,
`imm`, `move`, `cond`, `logic`, and `stack` with a target. -/
inductive ValueRule : Phrase Token (VType → String → Plain) where
  | binary {ts rest mid : List Token} {op : BinOp} {a b : Arg}
      (left : ArgRule ts a (op.token :: mid))
      (right : ArgRule mid b rest) : ValueRule ts (fun type dst => .binary op type dst a b) rest
  | unary {ts rest : List Token} {op : UnOp} {a : Arg} (operand : ArgRule ts a rest) :
      ValueRule (op.token :: ts) (fun type dst => .unary op type dst a) rest
  | immInt {ts rest : List Token} {n : Int} (isInt : IntRule ts n rest) :
      ValueRule ts (fun type dst => .immInt type dst n) rest
  | immRef {ts rest : List Token} {symbol : String} (isAddr : AddrRule ts symbol rest) :
      ValueRule ts (fun type dst => .immRef type dst symbol) rest
  | move {ts rest : List Token} {src : String} (isId : IdRule ts src rest) :
      ValueRule ts (fun type dst => .move type dst src) rest
  | alloc {ts rest : List Token} {n : Int} (isInt : IntRule ts n rest) :
      ValueRule (.alloc :: ts) (fun type dst => .alloc type dst n) rest
  | addr {ts rest : List Token} {src : String} (isId : IdRule ts src rest) :
      ValueRule (.alloc :: ts) (fun type dst => .addr type dst src) rest

/-- The callee of `call`. -/
inductive CalleeRule : Phrase Token Callee where
  | symbol {ts rest : List Token} {name : String} (isAddr : AddrRule ts name rest) :
      CalleeRule ts (.symbol name) rest
  | id {ts rest : List Token} {name : String} (isId : IdRule ts name rest) :
      CalleeRule ts (.id name) rest

/-- `insn`. -/
inductive InsnRule : Phrase Token Stmt where
  | value {ts rest mid behind : List Token} {type : VType} {dst : String}
      {value : VType → String → Plain}
      (isType : TypeRule ts type mid) (isId : IdRule mid dst (.assign :: behind))
      (isValue : ValueRule behind value rest) : InsnRule ts (.plain (value type dst)) rest
  | load {ts rest mid behind last : List Token} {type : VType} {dst base : String} {offset : Int}
      (isType : TypeRule ts type mid) (isId : IdRule mid dst (.from :: behind))
      (isBase : IdRule behind base last) (isOffset : IntRule last offset rest) :
      InsnRule ts (.plain (.load type dst base offset)) rest
  | store {ts rest mid behind last : List Token} {a : Arg} {type : VType} {base : String}
      {offset : Int}
      (isArg : ArgRule ts a (.to :: mid)) (isType : TypeRule mid type behind)
      (isBase : IdRule behind base last) (isOffset : IntRule last offset rest) :
      InsnRule ts (.plain (.store a type base offset)) rest
  | blit {ts rest mid behind : List Token} {dst src : String} {size : Int}
      (isDst : IdRule ts dst (.blit :: mid)) (isSize : IntRule mid size behind)
      (isSrc : IdRule behind src rest) : InsnRule ts (.plain (.blit dst size src)) rest
  | dealloc {ts rest : List Token} {n : Int} (isInt : IntRule ts n rest) :
      InsnRule (.alloc :: .alloc :: ts) (.plain (.dealloc n)) rest
  | branch {ts rest mid behind : List Token} {op : Cond} {a b : Arg} {name : String}
      (left : ArgRule ts a (op.token :: mid)) (right : ArgRule mid b (.thinArrow :: behind))
      (isId : IdRule behind name rest) : InsnRule ts (.branch op a b name) rest
  | branchNz {ts rest mid : List Token} {a : Arg} {name : String}
      (isArg : ArgRule ts a (.thinArrow :: mid))
      (isId : IdRule mid name rest) : InsnRule ts (.branchNz a name) rest
  | branchEz {ts rest mid : List Token} {a : Arg} {name : String}
      (isArg : ArgRule ts a (.thinArrow :: mid))
      (isId : IdRule mid name rest) : InsnRule (.bang :: ts) (.branchEz a name) rest
  | jump {ts rest : List Token} {name : String} (isId : IdRule ts name rest) :
      InsnRule (.thinArrow :: ts) (.jump name) rest
  | call {ts rest mid behind : List Token} {callee : Callee} {args : List Arg} {rets : List String}
      (isCallee : CalleeRule ts callee (.lparen :: mid))
      (isArgs : OptRule ArgRule mid args (.rparen :: .fatArrow :: .lparen :: behind))
      (isRets : OptRule IdRule behind rets (.rparen :: rest)) :
      InsnRule ts (.call callee args rets) rest
  | leave {ts rest : List Token} {args : List Arg}
      (isArgs : OptRule ArgRule ts args (.rparen :: rest)) :
      InsnRule (.fatArrow :: .lparen :: ts) (.leave args) rest

/-- `body`. -/
inductive BodyRule : Phrase Token Body where
  | nextLabeled {ts rest mid behind : List Token} {b : Body} {names : List String} {s : Stmt}
      (front : BodyRule ts b (.semi :: mid)) (isLabels : LabelsRule mid names behind)
      (isInsn : InsnRule behind s rest) :
      BodyRule ts { b with items := b.items ++ [{ labels := names, stmt := s }] } rest
  | next {ts rest mid : List Token} {b : Body} {s : Stmt} (front : BodyRule ts b (.semi :: mid))
      (isInsn : InsnRule mid s rest) :
      BodyRule ts { b with items := b.items ++ [{ stmt := s }] } rest
  | labeled {ts rest mid : List Token} {names : List String} {s : Stmt}
      (isLabels : LabelsRule ts names mid)
      (isInsn : InsnRule mid s rest) :
      BodyRule ts { items := [{ labels := names, stmt := s }] } rest
  | lead {ts rest : List Token} {names : List String} (isLabels : LabelsRule ts names rest) :
      BodyRule ts { lead := names, items := [] } rest
  | insn {ts rest : List Token} {s : Stmt} (isInsn : InsnRule ts s rest) :
      BodyRule ts { items := [{ stmt := s }] } rest

/-- `body_opt_term`. -/
inductive BodyOptTermRule : Phrase Token Body where
  | body {ts rest : List Token} {b : Body} (isBody : BodyRule ts b rest) : BodyOptTermRule ts b rest
  | term {ts rest : List Token} {b : Body} (isBody : BodyRule ts b (.semi :: rest)) :
      BodyOptTermRule ts b rest

/-- `function`. -/
inductive FunctionRule : Phrase Token Function where
  | function {ts rest mid behind : List Token} {name : String} {params : List (VType × String)}
      {body : Body}
      (isId : IdRule ts name (.lparen :: mid))
      (isParams : OptRule ParamRule mid params (.rparen :: .lbrace :: behind))
      (isBody : BodyOptTermRule behind body (.rbrace :: rest)) :
      FunctionRule ts { name, params, body } rest

/-- `data`. -/
inductive DataRule : Phrase Token (String × List Int) where
  | data {ts rest mid : List Token} {name : String} {consts : List Int}
      (isId : IdRule ts name (.assign :: .lbrace :: mid))
      (isConsts : OptRule IntRule mid consts (.rbrace :: rest)) : DataRule ts (name, consts) rest

/-- `top`. -/
inductive TopRule : Phrase Token Top where
  | data {ts rest : List Token} {name : String} {consts : List Int}
      (isData : DataRule ts (name, consts) rest) :
      TopRule ts (.data name consts) rest
  | function {ts rest : List Token} {f : Function} (isFunction : FunctionRule ts f rest) :
      TopRule ts (.function f) rest

/-- `unit`, without the rule for errors. -/
inductive UnitRule : Phrase Token (List Top) where
  | unit {ts rest mid : List Token} {tops : List Top} {top : Top} (front : UnitRule ts tops mid)
      (isTop : TopRule mid top rest) : UnitRule ts (tops ++ [top]) rest
  | top {ts rest : List Token} {top : Top} (isTop : TopRule ts top rest) : UnitRule ts [top] rest

/-- `input`, up to the end of the tokens. -/
inductive InputRule : List Token → List Top → Prop where
  | unit {ts : List Token} {tops : List Top} (isUnit : UnitRule ts tops []) : InputRule ts tops
  | empty : InputRule [] []

end Qbt.Frontend
