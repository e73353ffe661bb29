import Mathlib.Data.List.Induction
import Mathlib.Order.FixedPoints
import Mathlib.Data.Set.Lattice
import Mathlib.Order.CompletePartialOrder

/-!
# Backward dataflow

A backward problem assigns to every node of a graph what it generates and what it
kills; its solution is the least family of sets that is closed under the transfer
function. `OnePass` describes the family computed in a single pass over the nodes, in
which a successor contributes only when it comes earlier in the pass.
-/

namespace Qbt

/-- A backward problem over a graph. -/
structure Dataflow (α τ : Type) where
  succs : α → List α
  gen : α → Set τ
  kill : α → Set τ

namespace Dataflow

variable {α τ : Type} (P : Dataflow α τ)

/-- What a family of sets says about a node, given what it says about the successors. -/
def transfer : (α → Set τ) →o (α → Set τ) where
  toFun family node := P.gen node ∪ ((⋃ next ∈ P.succs node, family next) \ P.kill node)
  monotone' := by
    intro small large le node t
    rintro (generated | ⟨flows, kept⟩)
    · exact Or.inl generated
    · obtain ⟨next, edge, member⟩ := Set.mem_iUnion₂.mp flows
      exact Or.inr ⟨Set.mem_iUnion₂.mpr ⟨next, edge, le next member⟩, kept⟩

/-- The least solution. -/
def least : α → Set τ := P.transfer.lfp

variable {P}

private theorem mem_transfer {family : α → Set τ} {node : α} {t : τ} :
    t ∈ P.transfer family node ↔
      t ∈ P.gen node ∨ (∃ next ∈ P.succs node, t ∈ family next) ∧ t ∉ P.kill node := by
  change t ∈ P.gen node ∪ ((⋃ next ∈ P.succs node, family next) \ P.kill node) ↔ _
  simp

/-- The least solution solves the equations. -/
theorem mem_least_iff {node : α} {t : τ} :
    t ∈ P.least node ↔
      t ∈ P.gen node ∨ (∃ next ∈ P.succs node, t ∈ P.least next) ∧ t ∉ P.kill node := by
  have fixed : P.least node = P.transfer P.least node := by
    rw [least, OrderHom.map_lfp]
  rw [fixed, mem_transfer]

/-- A family that takes in what is generated and what flows bounds the least solution. -/
theorem least_subset {family : α → Set τ} (gen : ∀ node, P.gen node ⊆ family node)
    (flows : ∀ node, ∀ next ∈ P.succs node, family next \ P.kill node ⊆ family node)
    (node : α) : P.least node ⊆ family node := by
  have closed : P.transfer family ≤ family := by
    intro node t member
    rcases mem_transfer.mp member with generated | ⟨⟨next, edge, flown⟩, kept⟩
    · exact gen node generated
    · exact flows node next edge ⟨flown, kept⟩
  exact P.transfer.lfp_le closed node

/-- A family computed in one pass: a successor contributes where it comes before the
node in the pass. -/
def OnePass (P : Dataflow α τ) (order : List α) (family : α → Set τ) : Prop :=
  ∀ before node after, order = before ++ node :: after → ∀ t,
    t ∈ family node ↔
      t ∈ P.gen node ∨ (∃ next ∈ P.succs node, next ∈ before ∧ t ∈ family next) ∧
        t ∉ P.kill node

/-- Whatever flows in over an edge to a later node is generated by the node itself or
flows in over an edge to an earlier node as well. -/
def Covered (P : Dataflow α τ) (order : List α) : Prop :=
  ∀ before node after, order = before ++ node :: after → ∀ next ∈ P.succs node, next ∉ before →
    ∀ t ∈ P.least next, t ∉ P.kill node →
      t ∈ P.gen node ∨ ∃ early ∈ P.succs node, early ∈ before ∧ t ∈ P.least early

variable {order : List α} {family : α → Set τ}

/-- Along the pass, a fact about each node may use the fact about all earlier ones. -/
private theorem prefix_induction {holds : α → Prop}
    (each : ∀ before node after, order = before ++ node :: after →
      (∀ early ∈ before, holds early) → holds node) : ∀ node ∈ order, holds node := by
  have upTo : ∀ before after, order = before ++ after → ∀ node ∈ before, holds node := by
    intro before
    induction before using List.reverseRecOn with
    | nil => simp
    | append_singleton before last ih =>
      intro after split node member
      have split' : order = before ++ last :: after := by simpa using split
      have earlier := ih (last :: after) split'
      rcases List.mem_append.mp member with old | new
      · exact earlier node old
      · rw [List.mem_singleton.mp new]
        exact each before last after split' earlier
  exact upTo order [] (List.append_nil order).symm

/-- One pass never finds too much. -/
theorem OnePass.subset (pass : P.OnePass order family) :
    ∀ node ∈ order, family node ⊆ P.least node := by
  apply prefix_induction
  intro before node after split earlier t member
  rw [mem_least_iff]
  rcases (pass before node after split t).mp member with
    generated | ⟨⟨next, edge, early, flows⟩, kept⟩
  · exact Or.inl generated
  · exact Or.inr ⟨⟨next, edge, earlier next early flows⟩, kept⟩

/-- One pass finds the least solution exactly where nothing is lost over an edge to a
later node. -/
theorem OnePass.exact_iff (pass : P.OnePass order family) :
    (∀ node ∈ order, family node = P.least node) ↔ P.Covered order := by
  constructor
  · intro exact before node after split next edge _ t live kept
    have here : node ∈ order := by simp [split]
    have member : t ∈ family node := by
      rw [exact node here, mem_least_iff]
      exact Or.inr ⟨⟨next, edge, live⟩, kept⟩
    rcases (pass before node after split t).mp member with
      generated | ⟨⟨early, edge', before', flows⟩, _⟩
    · exact Or.inl generated
    · have earlyHere : early ∈ order := by simp [split, before']
      rw [exact early earlyHere] at flows
      exact Or.inr ⟨early, edge', before', flows⟩
  · intro covered
    apply prefix_induction
    intro before node after split earlier
    have here : node ∈ order := by simp [split]
    refine Set.Subset.antisymm (pass.subset node here) ?_
    intro t live
    rw [pass before node after split t]
    rcases mem_least_iff.mp live with generated | ⟨⟨next, edge, flows⟩, kept⟩
    · exact Or.inl generated
    · by_cases early : next ∈ before
      · rw [← earlier next early] at flows
        exact Or.inr ⟨⟨next, edge, early, flows⟩, kept⟩
      · rcases covered before node after split next edge early t flows kept with
          generated | ⟨other, edge', early', flows'⟩
        · exact Or.inl generated
        · rw [← earlier other early'] at flows'
          exact Or.inr ⟨⟨other, edge', early', flows'⟩, kept⟩

end Dataflow
end Qbt
