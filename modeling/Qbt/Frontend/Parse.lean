import Qbt.Frontend.Parser
import Qbt.Frontend.Programs

/-!
# `parse`

One `struct parser` goes through all definitions of a file. A function that is finished is kept in
`p->fns`, and a new one is begun. Of what the parser has gone through, only `p->idx` is left for
the next function, which resets it before it is used.
-/

namespace Qbt.Frontend

/-- `struct fn_map`. -/
structure FnMap where
  id : String
  fn : Fn
deriving DecidableEq, Repr

/-- `struct parser` in front of or behind a definition. -/
structure FileParser extends Parser where
  fns : List FnMap := []

namespace FileParser

/-- `do_new_function`. -/
def doNewFunction (p : FileParser) (name : String) : Result FileParser := do
  let f ← p.finishFunction name
  pure { newFunction p.idx with fns := p.fns ++ [{ id := name, fn := f }] }

/-- `function`. -/
def function (p : FileParser) (source : Function) : Result FileParser := do
  let started := source.params.foldl (fun q entry => q.param entry.1 entry.2) p.resetIndex
  let parser ← started.body source.body
  doNewFunction { p with toParser := parser } source.name

/-- `top`. Data is read but not kept. -/
def top (p : FileParser) : Top → Result FileParser
  | .data _ _ => pure p
  | .function source => p.function source

/-- What `create_parser` and `parse` begin with. -/
def start : FileParser := { newFunction 0 with }

end FileParser

/-- The file is a program: no character of it is unexpected, and the grammar derives the program
from its tokens. -/
def Accepts (buf : List Char) (tops : List Top) : Prop :=
  ∃ ts s, lex {} (scanString buf) = some (ts, s) ∧ s.failed = false ∧ InputRule ts tops

/-- A function that is kept is built from its text alone. -/
def Keeps (source : Function) (m : FnMap) : Prop :=
  m.id = source.name ∧ buildFunction 0 source = .ok m.fn

section Files

/-- The index that an earlier function has left makes no difference. -/
theorem buildFunction_idx (idx : Nat) (source : Function) :
    buildFunction idx source = buildFunction 0 source := rfl

/-- Nothing but its index tells a parser in front of a definition from a new one. -/
def FileParser.Fresh (p : FileParser) : Prop := p.toParser = newFunction p.idx

variable {p q : FileParser} {source : Function} {tops : List Top} {fns : List FnMap}

/-- A function leaves a fresh parser, and what is built from its text alone. -/
theorem FileParser.Fresh.function (fresh : p.Fresh) (parsed : p.function source = .ok q) :
    q.Fresh ∧ ∃ m, Keeps source m ∧ q.fns = p.fns ++ [m] := by
  unfold FileParser.function at parsed
  rw [show p.toParser = _ from fresh] at parsed
  obtain ⟨parser, body, parsed⟩ := Result.bind_eq_ok.mp parsed
  obtain ⟨f, finished, same⟩ := Result.bind_eq_ok.mp parsed
  cases same
  have built : buildFunction p.idx source = .ok f :=
    Result.bind_eq_ok.mpr ⟨parser, body, finished⟩
  rw [buildFunction_idx] at built
  exact ⟨rfl, ⟨source.name, f⟩, ⟨rfl, built⟩, rfl⟩

/-- A file is one program only. -/
theorem Accepts.unique {buf : List Char} {tops tops' : List Top} (accepts : Accepts buf tops)
    (accepts' : Accepts buf tops') : tops = tops' := by
  obtain ⟨ts, s, scanned, -, derived⟩ := accepts
  obtain ⟨ts', s', scanned', -, derived'⟩ := accepts'
  cases scanned.symm.trans scanned'
  exact Option.some.inj ((readInput_complete derived).symm.trans (readInput_complete derived'))

end Files

end Qbt.Frontend
