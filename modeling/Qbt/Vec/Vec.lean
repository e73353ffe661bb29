import Qbt.Std.Bytes

/-!
# `vec`

The vectors of `vec.c`: elements of `ns` bytes in a block that is reallocated when it gets
full. A function stops where an assertion fails, and where it reads or writes outside of the
block. A pointer into the block is its offset. Allocation succeeds and sizes are not bounded;
`fresh` are the bytes found in what is newly allocated.
-/

namespace Qbt

/-- `struct vec`. -/
structure Vec (β : Type) where
  n : Nat
  s : Nat
  ns : Nat
  buf : List β
deriving DecidableEq, Repr

namespace Vec

variable {β : Type}

/-- `vec_create`. -/
def vecCreate (fresh : Nat → β) (ns : Nat) : Vec β :=
  { n := 0, s := 1, ns, buf := Bytes.malloc fresh ns }

/-- `vec_reset`. -/
def vecReset (v : Vec β) : Vec β := { v with n := 0 }

/-- `vec_len`. -/
def vecLen (v : Vec β) : Nat := v.n

/-- `vec_at`. -/
def vecAt (v : Vec β) (i : Nat) : Option Nat := if i < v.n then some (i * v.ns) else none

/-- `vec_pop`. -/
def vecPop (v : Vec β) : Option (Nat × Vec β) :=
  if v.n = 0 then none
  else
    let v := { v with n := v.n - 1 }
    some (v.n * v.ns, v)

/-- What `vec_append` and `vec_insert` do first. -/
def grow (fresh : Nat → β) (v : Vec β) : Vec β :=
  let v := { v with n := v.n + 1 }
  if v.n ≥ v.s then
    let v := { v with s := v.s * 2 }
    { v with buf := Bytes.realloc fresh v.buf (v.s * v.ns) }
  else v

/-- `vec_append`, where `n` are the bytes of the element. -/
def vecAppend (fresh : Nat → β) (v : Vec β) (n : List β) : Option (Vec β) := do
  let v := grow fresh v
  let p ← vecAt v (v.n - 1)
  let buf ← Bytes.memcpy v.buf p n v.ns
  pure { v with buf }

/-- `vec_insert`. -/
def vecInsert (fresh : Nat → β) (v : Vec β) (n : List β) (i : Nat) : Option (Vec β) :=
  if vecLen v < i then none
  else if i = vecLen v then vecAppend fresh v n
  else do
    let v := grow fresh v
    let p ← vecAt v i
    let elems := v.n - i - 1
    let bytes := elems * v.ns
    let buf ← Bytes.memmove v.buf (p + v.ns) p bytes
    let buf ← Bytes.memcpy buf p n v.ns
    pure { v with buf }

/-- The value of `vect_at`. -/
def vectAt (v : Vec β) (i : Nat) : Option (List β) := do
  Bytes.read v.buf (← vecAt v i) v.ns

/-- An assignment to `vect_at`. -/
def vectSet (v : Vec β) (i : Nat) (x : List β) : Option (Vec β) := do
  let buf ← Bytes.write v.buf (← vecAt v i) x
  pure { v with buf }

/-- The value of `vect_pop`, with the vector it leaves. -/
def vectPop (v : Vec β) : Option (List β × Vec β) := do
  let (p, v) ← vecPop v
  let x ← Bytes.read v.buf p v.ns
  pure (x, v)

/-- What a loop with `foreach_vec` sees. -/
def elems (v : Vec β) : Option (List (List β)) := (List.range (vecLen v)).mapM (vectAt v)

end Vec

end Qbt
