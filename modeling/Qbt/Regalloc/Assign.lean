import Qbt.Abi.Registers
import Qbt.Regalloc.Lifetimes

/-!
# Assignment of registers

`build_rmap` goes through the lifetimes of a block in the order of their temporaries and
gives each temporary its hint, if that is free, or else the first free register. What is
free is decided by the lifetimes `build_active` collects: the active ones of the
temporary that last received a free register, and those from the current one on.
-/

namespace Qbt.Regalloc

/-- The loop of `build_active_between` over previously active lifetimes. -/
def activeAmong (start finish : Nat) : List Lifetime → List Lifetime
  | [] => []
  | l :: rest =>
    if l.finish ≤ start then activeAmong start finish rest
    else if finish ≤ l.start then []
    else l :: activeAmong start finish rest

/-- `build_active_between`. Without previously active lifetimes the first list is empty. -/
def buildActiveBetween (prevActive lifetimes : List Lifetime) (i start finish : Nat) :
    List Lifetime :=
  activeAmong start finish prevActive ++
    activeAmong start finish ((lifetimes.drop i).filter (·.used ≠ 0))

/-- `build_active`. -/
def buildActive (prevActive lifetimes : List Lifetime) (i : Nat) (l : Lifetime) : List Lifetime :=
  buildActiveBetween prevActive lifetimes i l.start l.finish

/-- `build_reserved`. -/
def buildReserved (active : List Lifetime) (rmap : List Val) : Result (List Val) :=
  (active.filter fun l => l.used ≠ 0 ∧ hasRewriteRule rmap l.v).mapM fun l => rewriteTmp rmap l.v

/-- `reg_free`. -/
def regFree (reserved : List Val) (f : Val) : Bool := reserved.all fun r => !(r.same f)

/-- `find_free_reg`. -/
def findFreeReg (reserved : List Val) : Result Val :=
  match trMap.find? fun r => regFree reserved (.reg r) with
  | some r => .ok (.reg r)
  | none => .error .outOfRegisters

/-- `highest_sreg`. -/
def highestSreg : Val → Nat
  | .reg r => if r ∈ rsMap then rsMap.idxOf r + 1 else 0
  | _ => 0

/-- The state of the loop of `build_rmap`. -/
structure Assignment where
  rmap : List Val
  prevActive : List Lifetime := []
  maxCalleeSave : Nat := 0
deriving DecidableEq, Repr

/-- What `build_rmap` reserves before it chooses a register for the `i`-th lifetime. -/
def reservedFor (lifetimes : List Lifetime) (a : Assignment) (i : Nat) (l : Lifetime) :
    Result (List Val) :=
  buildReserved (buildActive a.prevActive lifetimes i l) a.rmap

/-- The loop body of `build_rmap` for a lifetime that still needs a register. -/
def chooseReg (hints : List Val) (lifetimes : List Lifetime) (a : Assignment) (i : Nat)
    (l : Lifetime) : Result Assignment := do
  let reserved ← reservedFor lifetimes a i l
  let h := getHint hints l.v
  if h.hasclass ∧ regFree reserved h then
    pure { a with rmap := ← addRewriteRule a.rmap l.v h }
  else
    let f ← findFreeReg reserved
    pure {
      rmap := ← addRewriteRule a.rmap l.v f
      prevActive := buildActive a.prevActive lifetimes i l
      maxCalleeSave := max a.maxCalleeSave (highestSreg f) }

/-- The loop body of `build_rmap`. -/
def assignOne (hints : List Val) (lifetimes : List Lifetime) (a : Assignment) (i : Nat)
    (l : Lifetime) : Result Assignment :=
  if l.used = 0 ∨ hasRewriteRule a.rmap l.v then .ok a else chooseReg hints lifetimes a i l

/-- The loop of `build_rmap` over `rest`, the lifetimes from the `i`-th on. -/
def assignFrom (hints : List Val) (lifetimes : List Lifetime) (a : Assignment) (i : Nat) :
    List Lifetime → Result Assignment
  | [] => pure a
  | l :: rest => do
    let a ← assignOne hints lifetimes a i l
    assignFrom hints lifetimes a (i + 1) rest

/-- `build_rmap`. -/
def buildRmap (hints : List Val) (lifetimes : List Lifetime) (rmap : List Val) :
    Result Assignment :=
  assignFrom hints lifetimes { rmap } 0 lifetimes

end Qbt.Regalloc
