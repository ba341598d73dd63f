import SlotVersioning.Proofs.Course.Growth
import SlotVersioning.Proofs.Pass.Settled

/-!
# Growing facts

With usage versions the facts of variables only grow: what was stored before a node on an earlier
visit is still brought there (`Growing`), so every later visit finds at least as much
(`Visited.growing_entering`).
-/

namespace SlotVersioning

open Std

/-- The source's edges or the outside still bring what is stored before the nodes. -/
def Growing (context : Context) (state : RunState) : Prop :=
  ∀ (name : NodeId) (facts : Facts), state.tables.inFacts[name]? = some facts →
    ∀ slot : Slot, 0 ≤ slot → ∀ version ∈ facts.reaching slot,
      (∃ source ∈ context.graph.predecessors name,
        version ∈ state.tables.brought context.graph source name slot) ∨
      version ∈ state.tables.seeded name slot

theorem Growing.of_unvisited {context : Context} {state : RunState}
    (nowhere : state.tables.inFacts = ∅) : Growing context state := by
  intro name facts entering
  rw [nowhere, ExtTreeMap.getElem?_empty] at entering
  exact nomatch entering

namespace RunM

variable {context : Context} {live : Bool} {node : FlowNode} {name : NodeId} {facts : Facts}
  {log : List (Visit × Facts)} {outcome : OutcomeFacts} {changed : Bool}
  {before middle after : RunState} {dirty : DirtyNodes}

namespace Visited

variable (visited : Visited context live node name facts log outcome changed before middle after)

include visited

/-- A visit finds at least what was stored before. -/
theorem growing_entering (growing : Growing context before) {stored : Facts}
    (entering : before.tables.inFacts[name]? = some stored) {slot : Slot} (ordinary : 0 ≤ slot) :
    ∀ version ∈ stored.reaching slot, version ∈ facts.reaching slot :=
  fun version member =>
    (visited.joins slot version).2 (growing name stored entering slot ordinary version member)

/-- With usage versions the sites of a node that was visited before keep their versions. -/
theorem version_again (regular : context.body.Regular) (settling : Settling context dirty before)
    (usage : context.config.has .usageVersions = true) {stored : Facts}
    (entering : before.tables.inFacts[name]? = some stored) :
    ∀ expression ∈ (context.body.course name).sites,
      before.version expression = after.version expression := by
  intro expression member
  have versioned := settling.versioned regular usage entering member
  rw [visited.version_after]
  exact (visited.done.performs.kept usage versioned).symm

/-- With usage versions an edge brings at least what it brought before. -/
private theorem growing_brought (regular : context.body.Regular)
    (settling : Settling context dirty before) (usage : context.config.has .usageVersions = true)
    (growing : Growing context before) (source target : NodeId) {slot : Slot}
    (ordinary : 0 ≤ slot) :
    ∀ version ∈ before.tables.brought context.graph source target slot,
      version ∈ after.tables.brought context.graph source target slot := by
  intro version brings
  by_cases here : source = name
  · subst here
    rcases settling.carry_of_brought ordinary brings with ⟨stored, entering, carries⟩
    rw [Course.carry_congr (visited.version_again regular settling usage entering)] at carries
    rw [(visited.carried (settling.stored source)).brought target ordinary]
    exact Course.carry_mono _ (visited.growing_entering growing entering ordinary) _ version carries
  · rw [visited.brought_same fun equal => absurd equal here]
    exact brings

end Visited

/-- With usage versions the facts grow on every visit. -/
theorem invariant_growing (regular : context.body.Regular)
    (usage : context.config.has .usageVersions = true) : Invariant context (Growing context) where
  visit := by
    intro live dirty node name facts log outcome changed before middle after found settling growing
      visited
    have still {other : NodeId} {slot : Slot} (ordinary : 0 ≤ slot) {version : Version}
        (earlier : (∃ source ∈ context.graph.predecessors other,
          version ∈ before.tables.brought context.graph source other slot) ∨
          version ∈ before.tables.seeded other slot) :
        (∃ source ∈ context.graph.predecessors other,
          version ∈ after.tables.brought context.graph source other slot) ∨
          version ∈ after.tables.seeded other slot := by
      rw [visited.seeded_after]
      apply earlier.imp_left
      rintro ⟨source, edge, brings⟩
      exact ⟨source, edge,
        visited.growing_brought regular settling usage growing source other ordinary version brings⟩
    refine visited.forall_stored ?_ ?_
    · intro slot ordinary version member
      exact still ordinary ((visited.joins slot version).1 member)
    · intro other stored _ entering slot ordinary version member
      exact still ordinary (growing other stored entering slot ordinary version member)
  aside := by
    intro before after growing aside name facts entering slot ordinary version member
    rw [aside.inFacts] at entering
    have brought := growing name facts entering slot ordinary version member
    unfold Tables.brought Tables.edgeFacts? at brought ⊢
    rw [aside.outFacts, aside.negativeFacts, aside.seeded]
    exact brought

end RunM

end SlotVersioning
