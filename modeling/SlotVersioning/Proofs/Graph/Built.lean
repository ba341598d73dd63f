import SlotVersioning.Proofs.Graph.Leading

/-!
# Version graphs that were built

A version graph is built from the empty one by its edits. Whatever their order, and whether or not
edges stay within a slot, nodes are found by their keys and edges from both of their ends
(`Built.consistent`). A graph was surveyed when its dominators were computed after its edges were
edited for the last time; nodes may still have been added since (`Surveyed`).
-/

namespace SlotVersioning

namespace VersionGraph

variable {graph : VersionGraph}

/-- The graphs that edits lead to. Edges are edited between nodes that are there. -/
inductive Built : VersionGraph → Prop
  | empty : Built {}
  | ensure {graph : VersionGraph} (built : Built graph) (key : VersionKey)
      (origin : VersionOrigin) (debugName : Option DebugName) :
      Built (graph.ensure key origin debugName).1
  | link {graph : VersionGraph} (built : Built graph) {source target : Nat}
      (sourceKnown : source < graph.size) (targetKnown : target < graph.size) :
      Built (graph.link source target)
  | unlink {graph : VersionGraph} (built : Built graph) {source target : Nat}
      (sourceKnown : source < graph.size) (targetKnown : target < graph.size) :
      Built (graph.unlink source target)
  | withLive {graph : VersionGraph} (built : Built graph) (key : VersionKey) (facts : Facts) :
      Built (graph.withLive key facts)
  | computeDominators {graph : VersionGraph} (built : Built graph) : Built graph.computeDominators

theorem exists_identity {position : Nat} (inside : position < graph.size) :
    ∃ identity, graph.identity? position = some identity :=
  ⟨_, congrArg (Option.map _) (Array.getElem?_eq_getElem inside)⟩

theorem Built.consistent (built : graph.Built) : graph.Consistent := by
  induction built with
  | empty => exact consistent_empty
  | ensure built key origin debugName consistent => exact consistent.ensure key origin debugName
  | link built sourceKnown targetKnown consistent =>
      rcases exists_identity sourceKnown with ⟨left, atSource⟩
      rcases exists_identity targetKnown with ⟨right, atTarget⟩
      exact consistent.link atSource atTarget
  | unlink built sourceKnown targetKnown consistent => exact consistent.unlink _ _
  | withLive built key facts consistent =>
      exact (similar_withLive _ key facts).consistent consistent
  | computeDominators built consistent =>
      exact (similar_computeDominators _).consistent consistent

/-! ## Surveys -/

/-- The dominators of the graph were computed when it had `count` nodes, and its edges were not
edited since. -/
inductive Surveyed : (count : Nat) → VersionGraph → Prop
  | computeDominators {graph : VersionGraph} (built : graph.Built) :
      Surveyed graph.size graph.computeDominators
  | ensure {count : Nat} {graph : VersionGraph} (surveyed : Surveyed count graph)
      (key : VersionKey) (origin : VersionOrigin) (debugName : Option DebugName) :
      Surveyed count (graph.ensure key origin debugName).1
  | withLive {count : Nat} {graph : VersionGraph} (surveyed : Surveyed count graph)
      (key : VersionKey) (facts : Facts) : Surveyed count (graph.withLive key facts)

/-- The same edges, and all nodes that were there. -/
structure Widens (before after : VersionGraph) : Prop where
  size : before.size ≤ after.size
  dominators : after.dominators = before.dominators
  predecessors : ∀ position, after.predecessorsAt position = before.predecessorsAt position
  successors : ∀ position, after.successorsAt position = before.successorsAt position

theorem Widens.trans {before middle after : VersionGraph} (first : Widens before middle)
    (second : Widens middle after) : Widens before after where
  size := Nat.le_trans first.size second.size
  dominators := second.dominators.trans first.dominators
  predecessors := fun position =>
    (second.predecessors position).trans (first.predecessors position)
  successors := fun position => (second.successors position).trans (first.successors position)

theorem widens_ensure (graph : VersionGraph) (key : VersionKey) (origin : VersionOrigin)
    (debugName : Option DebugName) : Widens graph (graph.ensure key origin debugName).1 := by
  have sized : graph.size ≤ (graph.ensure key origin debugName).1.size ∧
      (graph.ensure key origin debugName).1.dominators = graph.dominators := by
    unfold ensure size editAt
    split
    · exact ⟨Nat.le_of_eq Array.size_modify.symm, rfl⟩
    · exact ⟨Nat.le_of_lt (Array.size_push _ ▸ Nat.lt_succ_self _), rfl⟩
  cases found : graph.position? key with
  | some place =>
      have similar := (ensure_known origin debugName found).2
      exact ⟨sized.1, sized.2, similar.predecessors, similar.successors⟩
  | none =>
      have added := (ensure_unknown origin debugName found).2
      exact ⟨sized.1, sized.2, added.predecessors, added.successors⟩

private theorem widens_withLive (graph : VersionGraph) (key : VersionKey) (facts : Facts) :
    Widens graph (graph.withLive key facts) := by
  have similar := graph.similar_withLive key facts
  refine ⟨?_, ?_, similar.predecessors, similar.successors⟩
  · unfold withLive size editAt
    split
    · exact Nat.le_of_eq Array.size_modify.symm
    · exact Nat.le_refl _
  · unfold withLive
    split <;> rfl

namespace Surveyed

variable {count : Nat}

theorem consistent (surveyed : Surveyed count graph) : graph.Consistent := by
  induction surveyed with
  | computeDominators built => exact built.computeDominators.consistent
  | ensure surveyed key origin debugName consistent => exact consistent.ensure key origin debugName
  | withLive surveyed key facts consistent =>
      exact (similar_withLive _ key facts).consistent consistent

/-- There was a graph with the same edges whose dominators these are. -/
theorem widens (surveyed : Surveyed count graph) :
    ∃ base : VersionGraph, base.Consistent ∧ base.size = count ∧ base.Dominated ∧
      Widens base graph := by
  induction surveyed with
  | @computeDominators base built =>
      exact ⟨base.computeDominators, built.computeDominators.consistent, rfl,
        dominated_computeDominators base, Nat.le_refl _, rfl, fun _ => rfl, fun _ => rfl⟩
  | ensure surveyed key origin debugName induction =>
      rcases induction with ⟨base, consistent, sized, dominated, wider⟩
      exact ⟨base, consistent, sized, dominated, wider.trans (widens_ensure _ key origin debugName)⟩
  | withLive surveyed key facts induction =>
      rcases induction with ⟨base, consistent, sized, dominated, wider⟩
      exact ⟨base, consistent, sized, dominated, wider.trans (widens_withLive _ key facts)⟩

end Surveyed

end VersionGraph

end SlotVersioning
