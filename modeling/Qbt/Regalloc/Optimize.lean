import Qbt.Abi.Abi0
import Qbt.Frontend.Parser
import Qbt.Correct.Correct
import Qbt.Regalloc.Regalloc
import Qbt.Ssa.Rename

/-!
# `optimize`

`src/opt.c`: the passes in their order.
-/

namespace Qbt

/-- What `optimize` makes of `f`, pass by pass: `g` behind `correct`, `h` behind `ssa`,
`k` behind `abi0` and `m` behind `regalloc`. -/
structure Optimizes (f g h k m : Fn) : Prop where
  corrected : Corrected f g
  converted : ∃ n, ssa g = .ok (h, n)
  merged : abi0 h = .ok k
  allocated : regalloc k = .ok m

/-- `optimize`, with a bound on the iterations of the loops of `correct`. -/
def optimize (fuel : Nat) (f : Fn) : Result Fn := do
  let (g, ri) ← correct fuel f f.ntmp
  let (h, _) ← ssa { g with ntmp := ri }
  regalloc (← abi0 h)

/-- Where `optimize` returns, its passes do. -/
theorem optimizes_of_optimize {fuel : Nat} {f m : Fn} (returned : optimize fuel f = .ok m) :
    ∃ g h k, Optimizes f g h k m := by
  simp only [optimize, Result.bind_eq_ok, Prod.exists] at returned
  obtain ⟨g, ri, corrected, h, n, converted, k, merged, allocated⟩ := returned
  exact ⟨_, h, k, ⟨⟨fuel, g, ri, corrected, rfl⟩, ⟨n, converted⟩, merged, allocated⟩⟩

end Qbt
