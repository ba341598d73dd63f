import Mathlib.Data.List.Chain
import Mathlib.Data.List.Nodup
import Mathlib.Data.List.Perm.Subperm
import SlotVersioning.Flow.Graph

/-!
# Cycles of flow graphs

A pass visits the nodes in order, so what leaves a node arrives at a later node in the same pass,
and at an earlier one in the next pass: the edge goes back. In a graph made of nested loops every
cycle goes back once, to the head of its outermost loop (`FlowGraph.GoesBackOnce`). Then nothing
that is passed on from node to node can circle in such a graph, and it began not long ago
(`FlowGraph.PassesOn.begun`).
-/

namespace SlotVersioning

namespace FlowGraph

/-- One for a step that goes back, to the same node or an earlier one. -/
def back (source target : NodeId) : Nat := if source < target then 0 else 1

/-- How often a walk goes back. -/
def backs : List NodeId → Nat
  | source :: target :: rest => back source target + backs (target :: rest)
  | _ => 0

def IsWalk (graph : FlowGraph) (walk : List NodeId) : Prop :=
  walk.IsChain fun source target => source ∈ graph.predecessors target

/-- No cycle goes back twice. A cycle is a walk through different nodes and from the last of them to
the first. -/
def GoesBackOnce (graph : FlowGraph) : Prop :=
  ∀ first rest, (first :: rest).Nodup → graph.IsWalk (first :: (rest ++ [first])) →
    backs (first :: (rest ++ [first])) ≤ 1

theorem backs_cons_cons (source target : NodeId) (rest : List NodeId) :
    backs (source :: target :: rest) = back source target + backs (target :: rest) := rfl

theorem back_le_one (source target : NodeId) : back source target ≤ 1 := by
  unfold back
  split <;> omega

private theorem backs_le_length (first : NodeId) (rest : List NodeId) :
    backs (first :: rest) ≤ rest.length := by
  induction rest generalizing first with
  | nil => exact Nat.le_refl 0
  | cons next rest induction =>
      have step := back_le_one first next
      have after := induction next
      rw [backs_cons_cons, List.length_cons]
      omega

/-- A walk that never goes back ends at a later node. -/
private theorem lt_of_backs_eq_zero {first last : NodeId} {between : List NodeId}
    (onward : backs (first :: (between ++ [last])) = 0) : first < last := by
  have step {source target : NodeId} (never : back source target = 0) : source < target := by
    unfold back at never
    split at never
    · assumption
    · omega
  induction between generalizing first with
  | nil =>
      rw [List.nil_append, backs_cons_cons] at onward
      exact step (by omega)
  | cons next rest induction =>
      rw [List.cons_append, backs_cons_cons] at onward
      have first : first < next := step (by omega)
      exact Nat.lt_trans first (induction (by omega))

/-- A step in front of the first part of a walk. -/
theorem backs_cons_of_split {source node other : NodeId} {rest before after : List NodeId}
    (split : node :: rest = before ++ other :: after) :
    backs (source :: (before ++ [other])) = back source node + backs (before ++ [other]) := by
  cases before with
  | nil =>
      obtain rfl : node = other := (List.cons.inj split).1
      rfl
  | cons head before =>
      obtain rfl : node = head := (List.cons.inj split).1
      rfl

private theorem IsWalk.cons_of_split {graph : FlowGraph} {source node other : NodeId}
    {rest before after : List NodeId} (along : graph.IsWalk (node :: rest))
    (edge : source ∈ graph.predecessors node)
    (split : node :: rest = before ++ other :: after) :
    graph.IsWalk (source :: (before ++ [other])) := by
  unfold IsWalk at along ⊢
  cases before with
  | nil =>
      obtain rfl : node = other := (List.cons.inj split).1
      exact List.isChain_pair.2 edge
  | cons head before =>
      obtain rfl : node = head := (List.cons.inj split).1
      rw [split, List.isChain_split] at along
      exact List.isChain_cons_cons.2 ⟨edge, along.1⟩

/-- When all edges that go back lead to one node, no cycle goes back twice. -/
theorem goesBackOnce_of_head {graph : FlowGraph} {head : NodeId}
    (leads : ∀ source target, source ∈ graph.predecessors target → target ≤ source →
      target = head) : graph.GoesBackOnce := by
  have counted (first : NodeId) (walk : List NodeId) (along : graph.IsWalk (first :: walk)) :
      backs (first :: walk) ≤ walk.count head := by
    induction walk generalizing first with
    | nil => exact Nat.le_refl 0
    | cons next rest induction =>
        unfold IsWalk at along
        rw [List.isChain_cons_cons] at along
        have after := induction next along.2
        rw [backs_cons_cons, List.count_cons]
        unfold back
        split
        · omega
        · next notBefore =>
            have here := leads first next along.1 (Nat.le_of_not_lt notBefore)
            rw [if_pos (beq_iff_eq.2 here)]
            omega
  intro first rest different along
  have once : (rest ++ [first]).Nodup := by
    rw [List.nodup_cons] at different
    rw [List.nodup_append]
    refine ⟨different.2, List.nodup_singleton first, ?_⟩
    rintro node inRest other isFirst rfl
    rw [List.mem_singleton.1 isFirst] at inRest
    exact different.1 inRest
  exact Nat.le_trans (counted first _ along) (List.nodup_iff_count_le_one.1 once head)

/-- What happens at a node at some time begins then, or comes from a predecessor, where it began or
happened at that time, or one earlier over an edge that goes back. It does not happen at a node
twice in a row. -/
structure PassesOn (graph : FlowGraph) (happens : NodeId → Nat → Prop) (begins : Nat → Prop) :
    Prop where
  inside : ∀ node time, happens node time → node < graph.size
  comes : ∀ node time, happens node time → begins time ∨
    ∃ source ∈ graph.predecessors node, ∃ earlier, time = earlier + back source node ∧
      (begins earlier ∨ happens source earlier)
  once : ∀ node time, happens node time → ¬ happens node (time + 1)

namespace PassesOn

variable {graph : FlowGraph} {happens : NodeId → Nat → Prop} {begins : Nat → Prop}

/-- Nothing that happens was passed on along a walk back to the node where it happens. -/
private theorem not_mem_walk (passes : graph.PassesOn happens begins)
    (goesBack : graph.GoesBackOnce) {source node : NodeId} {rest : List NodeId} {time : Nat}
    (different : (node :: rest).Nodup) (along : graph.IsWalk (node :: rest))
    (happened : ∀ before other after, node :: rest = before ++ other :: after →
      happens other (time + back source node + backs (before ++ [other])))
    (edge : source ∈ graph.predecessors node) (now : happens source time) :
    source ∉ node :: rest := by
  intro member
  rcases List.append_of_mem member with ⟨before, after, split⟩
  have later := happened before source after split
  have distinct : (source :: before).Nodup := by
    rw [split, List.nodup_append] at different
    exact List.nodup_cons.2 ⟨fun again => different.2.2 source again source
      List.mem_cons_self rfl, different.1⟩
  have atMost := goesBack source before distinct (along.cons_of_split edge split)
  have atLeast : backs (source :: (before ++ [source])) ≠ 0 := fun onward =>
    absurd (lt_of_backs_eq_zero onward) (Nat.lt_irrefl source)
  rw [backs_cons_of_split split] at atMost atLeast
  have next : time + back source node + backs (before ++ [source]) = time + 1 := by omega
  rw [next] at later
  exact passes.once source time now later

/-- What has been passed on along a walk began no more than the size of the graph before. -/
private theorem begun_of_walk (passes : graph.PassesOn happens begins)
    (goesBack : graph.GoesBackOnce) {node : NodeId} {rest : List NodeId} {time : Nat}
    (different : (node :: rest).Nodup)
    (within : ∀ other ∈ node :: rest, other < graph.size) (along : graph.IsWalk (node :: rest))
    (happened : ∀ before other after, node :: rest = before ++ other :: after →
      happens other (time + backs (before ++ [other]))) :
    ∃ begun, begins begun ∧ begun ≤ time ∧ time + backs (node :: rest) ≤ begun + graph.size := by
  have few : rest.length + 1 ≤ graph.size := by
    have listed : node :: rest ⊆ List.range graph.size :=
      fun other member => List.mem_range.2 (within other member)
    have length := (different.subperm listed).length_le
    rw [List.length_cons, List.length_range] at length
    exact length
  have bound := backs_le_length node rest
  have now : happens node time := happened [] node rest rfl
  rcases passes.comes node time now with
    here | ⟨source, edge, earlier, rfl, begun | sent⟩
  · exact ⟨time, here, Nat.le_refl time, by omega⟩
  · have step := back_le_one source node
    exact ⟨earlier, begun, by omega, by omega⟩
  · have fresh := passes.not_mem_walk goesBack different along happened edge sent
    have longer : ∀ before other after, source :: node :: rest = before ++ other :: after →
        happens other (earlier + backs (before ++ [other])) := by
      intro before other after split
      cases before with
      | nil =>
          obtain rfl : source = other := (List.cons.inj split).1
          exact sent
      | cons head before =>
          obtain ⟨rfl, tail⟩ := List.cons.inj split
          rw [List.cons_append, backs_cons_of_split tail, ← Nat.add_assoc]
          exact happened before other after tail
    have begun := passes.begun_of_walk goesBack (List.nodup_cons.2 ⟨fresh, different⟩)
      (List.forall_mem_cons.2 ⟨passes.inside source earlier sent, within⟩)
      (List.isChain_cons_cons.2 ⟨edge, along⟩) longer
    rcases begun with ⟨begun, begins, before, after⟩
    rw [backs_cons_cons] at after
    exact ⟨begun, begins, by omega, by omega⟩
termination_by graph.size - rest.length

/-- In a graph whose cycles go back once, what happens began no more than the size of the graph
before. -/
theorem begun (passes : graph.PassesOn happens begins) (goesBack : graph.GoesBackOnce)
    {node : NodeId} {time : Nat} (now : happens node time) :
    ∃ begun, begins begun ∧ begun ≤ time ∧ time ≤ begun + graph.size := by
  apply passes.begun_of_walk goesBack (List.nodup_singleton node)
  · intro other member
    rw [List.mem_singleton.1 member]
    exact passes.inside node time now
  · exact List.isChain_singleton node
  · intro before other after split
    cases before with
    | nil =>
        obtain rfl : node = other := (List.cons.inj split).1
        exact now
    | cons head before =>
        have empty := (List.cons.inj split).2
        exact absurd empty.symm (List.append_ne_nil_of_right_ne_nil _ (List.cons_ne_nil _ _))

end PassesOn

end FlowGraph

end SlotVersioning
