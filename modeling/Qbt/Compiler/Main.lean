import Qbt.Asm.Linking
import Qbt.Compiler.Compiler
import Qbt.Frontend.Parse
import Qbt.Frontend.Printing

/-!
# `main`

From the bytes of a file to the lines that are printed for it. The whole file is parsed before the
first function is compiled, and a function that cannot be compiled stops the program behind the
text of those in front of it. The headlines and dumps that `optimize` prints between the passes are
comments of the assembly, and left out.
-/

namespace Qbt.Compiler

open Frontend Asm Regalloc

/-- What a run of `main` comes to. -/
inductive Outcome where
  /-- The file is rejected, or an action of the parser stops the program. -/
  | rejected
  /-- A function stops the program; the lines are those of the functions in front of it. -/
  | aborted (lines : List Line) (fault : Fault)
  /-- `main` returns 0. -/
  | returned (lines : List Line)
deriving DecidableEq

/-- The body of the loop of `main`, with a bound on the iterations of the loops of `correct`. -/
def print (fuel : Nat) (f : Fn) : Result (List Line) := do output (← optimize fuel f)

/-- What comes of two files that are compiled as one. -/
def Outcome.append : Outcome → Outcome → Outcome
  | .rejected, _ => .rejected
  | _, .rejected => .rejected
  | .aborted lines fault, _ => .aborted lines fault
  | .returned lines, .aborted lines' fault => .aborted (lines ++ lines') fault
  | .returned lines, .returned lines' => .returned (lines ++ lines')

/-- What comes of files that are compiled as one. -/
def Outcome.concat (outcomes : List Outcome) : Outcome := outcomes.foldr .append (.returned [])

/-- What comes of a function of the text on its own. -/
def alone (fuel : Nat) (source : Frontend.Function) : Outcome :=
  match buildFunction 0 source with
  | .error _ => .rejected
  | .ok f =>
    match print fuel f with
    | .error fault => .aborted [] fault
    | .ok text => .returned text

/-- What is printed for a function of the text on its own. -/
def PrintedAlone (fuel : Nat) (source : Frontend.Function) (text : List Line) : Prop :=
  ∃ f, buildFunction 0 source = .ok f ∧ print fuel f = .ok text

section Main

variable {fuel : Nat} {buf : List Char} {lines : List Line} {fns : List FnMap} {tops : List Top}

theorem Outcome.append_nil (outcome : Outcome) : outcome.append (.returned []) = outcome := by
  cases outcome <;> simp [Outcome.append]

/-- What is printed for a function of the text has gone through all passes. -/
theorem PrintedAlone.compiles {source : Frontend.Function} {text : List Line}
    (prints : PrintedAlone fuel source text) : ∃ f g h k m a, Compiles source f g h k m a text := by
  obtain ⟨f, parsed, printed⟩ := prints
  obtain ⟨m, optimized, printed⟩ := Result.bind_eq_ok.mp printed
  obtain ⟨g, h, k, optimizes⟩ := optimizes_of_optimize optimized
  obtain ⟨⟨a, blks⟩, allocated, -⟩ := Result.bind_eq_ok.mp optimizes.allocated
  exact ⟨f, g, h, k, m, a, ⟨⟨0, parsed⟩, optimizes, ⟨blks, allocated⟩, printed⟩⟩

end Main

/-- A function that has nothing to do. -/
def idle : Frontend.Function where
  name := "idle"
  params := []
  body := { items := [{ stmt := .leave [] }] }

end Qbt.Compiler
