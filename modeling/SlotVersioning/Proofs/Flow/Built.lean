import Mathlib.Data.List.Nodup
import SlotVersioning.Flow.Graph

/-!
# Flow graphs that were built

A flow graph is built from the empty one by the operations of `FlowGraph`. Whatever their order, an
edge is stored at both of its ends (`Built.linked`), once at each (`Built.distinct`).
-/

namespace SlotVersioning

namespace FlowGraph

/-- The graphs that the building operations lead to. -/
inductive Built : FlowGraph → Prop
  | empty : Built {}
  | addNode {graph : FlowGraph} (built : Built graph) (kind : FlowNodeKind)
      (statement : StatementId) : Built (graph.addNode kind statement).1
  | appendExpression {graph next : FlowGraph} (built : Built graph) {node : NodeId}
      {expression : ExprId} (done : graph.appendExpression node expression = .ok next) : Built next
  | connect {graph next : FlowGraph} (built : Built graph) {source target : NodeId}
      (done : graph.connect source target = .ok next) : Built next
  | withEntry {graph : FlowGraph} (built : Built graph) (node : NodeId) :
      Built (graph.withEntry node)
  | withNegativeBranch {graph : FlowGraph} (built : Built graph) (node target : NodeId) :
      Built (graph.withNegativeBranch node target)
  | withShortPath {graph : FlowGraph} (built : Built graph) (exit : NodeId) (path : FinallyPath) :
      Built (graph.withShortPath exit path)
  | withLongPath {graph : FlowGraph} (built : Built graph) (exit : NodeId) (path : FinallyPath) :
      Built (graph.withLongPath exit path)
  | withMonitorExit {graph : FlowGraph} (built : Built graph) (exit destination : NodeId) :
      Built (graph.withMonitorExit exit destination)
  | withExtraNode {graph : FlowGraph} (built : Built graph) (node : NodeId) :
      Built (graph.withExtraNode node)
  | withStatementStart {graph : FlowGraph} (built : Built graph) (statement : StatementId)
      (node : NodeId) : Built (graph.withStatementStart statement node)

/-- Every edge is stored at both ends. -/
def Linked (graph : FlowGraph) : Prop :=
  ∀ source target, target ∈ graph.successors source ↔ source ∈ graph.predecessors target

/-- Every edge is stored once at each end. -/
def Distinct (graph : FlowGraph) : Prop :=
  ∀ node, (graph.predecessors node).Nodup ∧ (graph.successors node).Nodup

/-! ## Nodes after an edit -/

variable {graph : FlowGraph}

theorem node?_editNode (graph : FlowGraph) (node other : NodeId) (edit : FlowNode → FlowNode) :
    (graph.editNode node edit).node? other =
      if node = other then (graph.node? other).map edit else graph.node? other := by
  unfold node? editNode
  rw [Array.getElem?_modify]

private theorem node?_addNode (graph : FlowGraph) (kind : FlowNodeKind) (statement : StatementId)
    (node : NodeId) :
    (graph.addNode kind statement).1.node? node =
      if node = graph.size then some { kind, statement } else graph.node? node := by
  unfold node? addNode size
  exact Array.getElem?_push

theorem node?_of_contains {node : NodeId} (known : graph.contains node = true) :
    ∃ stored, graph.node? node = some stored := by
  unfold contains size at known
  exact ⟨_, Array.getElem?_eq_getElem (of_decide_eq_true known)⟩

/-- A new node has no edges, and the others keep theirs. -/
theorem edges_addNode (graph : FlowGraph) (kind : FlowNodeKind) (statement : StatementId)
    (node : NodeId) :
    (graph.addNode kind statement).1.successors node = graph.successors node ∧
      (graph.addNode kind statement).1.predecessors node = graph.predecessors node := by
  unfold successors predecessors
  rw [node?_addNode]
  split
  · next equal =>
      have absent : graph.node? node = none := by
        rw [equal]
        exact Array.getElem?_size
      rw [absent]
      exact ⟨rfl, rfl⟩
  · exact ⟨rfl, rfl⟩

theorem edges_appendExpression {next : FlowGraph} {node : NodeId} {expression : ExprId}
    (done : graph.appendExpression node expression = .ok next) (other : NodeId) :
    next.successors other = graph.successors other ∧
      next.predecessors other = graph.predecessors other := by
  unfold appendExpression at done
  split at done
  · cases done
    unfold successors predecessors
    rw [node?_editNode]
    split
    · cases graph.node? other <;> exact ⟨rfl, rfl⟩
    · exact ⟨rfl, rfl⟩
  · exact nomatch done

/-- The edges after one was added: its target is a successor of its source and its source is a
predecessor of its target, and nothing else changed. -/
theorem edges_connect {next : FlowGraph} {source target : NodeId}
    (done : graph.connect source target = .ok next) (absent : target ∉ graph.successors source) :
    (∀ node, next.successors node =
      if source = node then graph.successors node ++ [target] else graph.successors node) ∧
    (∀ node, next.predecessors node =
      if target = node then graph.predecessors node ++ [source] else graph.predecessors node) := by
  unfold connect at done
  split at done
  · exact nomatch done
  split at done
  · exact nomatch done
  split at done
  · next present => exact absurd (by simpa using present) absent
  next targetKnown sourceKnown _ =>
    rcases node?_of_contains (by simpa using sourceKnown) with ⟨sourceNode, sourceStored⟩
    rcases node?_of_contains (by simpa using targetKnown) with ⟨targetNode, targetStored⟩
    cases done
    constructor
    · intro node
      unfold successors
      rw [node?_editNode, node?_editNode]
      by_cases same : source = node
      · subst same
        rw [sourceStored]
        split <;> simp
      · rw [if_neg same, if_neg same]
        split <;> cases graph.node? node <;> rfl
    · intro node
      unfold predecessors
      rw [node?_editNode, node?_editNode]
      by_cases same : target = node
      · subst same
        rw [targetStored, if_pos rfl]
        split <;> simp
      · rw [if_neg same, if_neg same]
        split <;> cases graph.node? node <;> rfl

/-- An edge that is already there is not added again. -/
theorem connect_present {next : FlowGraph} {source target : NodeId}
    (done : graph.connect source target = .ok next) (present : target ∈ graph.successors source) :
    next = graph := by
  unfold connect at done
  rw [if_pos (List.contains_iff_mem.2 present)] at done
  split at done
  · exact nomatch done
  split at done
  · exact nomatch done
  cases done
  rfl

private theorem linked_connect {next : FlowGraph} {source target : NodeId} (linked : graph.Linked)
    (done : graph.connect source target = .ok next) : next.Linked := by
  by_cases present : target ∈ graph.successors source
  · rw [connect_present done present]
    exact linked
  · rcases edges_connect done present with ⟨successors, predecessors⟩
    intro left right
    rw [successors, predecessors]
    have before := linked left right
    by_cases fromSource : source = left <;> by_cases toTarget : target = right <;>
      simp only [fromSource, toTarget, if_true, if_false, List.mem_append, List.mem_singleton,
        before] <;> simp [eq_comm, fromSource, toTarget]

private theorem distinct_connect {next : FlowGraph} {source target : NodeId} (linked : graph.Linked)
    (distinct : graph.Distinct) (done : graph.connect source target = .ok next) :
    next.Distinct := by
  by_cases present : target ∈ graph.successors source
  · rw [connect_present done present]
    exact distinct
  · rcases edges_connect done present with ⟨successors, predecessors⟩
    have fresh : source ∉ graph.predecessors target :=
      fun stored => present ((linked source target).2 stored)
    intro node
    rw [successors, predecessors, ← List.concat_eq_append, ← List.concat_eq_append]
    constructor
    · split
      · next here => exact .concat (here ▸ fresh) (distinct node).1
      · exact (distinct node).1
    · split
      · next here => exact .concat (here ▸ present) (distinct node).2
      · exact (distinct node).2

/-! ## Edges of graphs that were built -/

/-- What concerns the edges alone holds of a graph that was built if adding an edge keeps it. -/
private theorem Built.edges_induction {motive : FlowGraph → Prop}
    (same : ∀ before after : FlowGraph, (∀ node, after.successors node = before.successors node ∧
      after.predecessors node = before.predecessors node) → motive before → motive after)
    (empty : motive {})
    (connect : ∀ (before after : FlowGraph) (source target : NodeId), motive before →
      before.connect source target = .ok after → motive after)
    (built : graph.Built) : motive graph := by
  induction built with
  | empty => exact empty
  | @addNode before built kind statement induction =>
      exact same before _ (edges_addNode before kind statement) induction
  | appendExpression built done induction => exact same _ _ (edges_appendExpression done) induction
  | connect built done induction => exact connect _ _ _ _ induction done
  | withEntry _ _ induction | withNegativeBranch _ _ _ induction
  | withShortPath _ _ _ induction | withLongPath _ _ _ induction
  | withMonitorExit _ _ _ induction | withExtraNode _ _ induction
  | withStatementStart _ _ _ induction =>
      refine same _ _ ?_ induction
      exact fun _ => ⟨rfl, rfl⟩

theorem Built.linked_distinct (built : graph.Built) : graph.Linked ∧ graph.Distinct := by
  refine edges_induction (motive := fun graph => graph.Linked ∧ graph.Distinct)
    (fun before after edges holds => ?_) ?_ ?_ built
  · refine ⟨fun source target => ?_, fun node => ?_⟩
    · rw [(edges source).1, (edges target).2]
      exact holds.1 source target
    · rw [(edges node).1, (edges node).2]
      exact holds.2 node
  · exact ⟨fun _ _ => ⟨nofun, nofun⟩, fun _ => ⟨List.nodup_nil, List.nodup_nil⟩⟩
  · rintro before after source target ⟨linked, distinct⟩ done
    exact ⟨linked_connect linked done, distinct_connect linked distinct done⟩

/-- Every edge of a graph that was built is stored at both ends. -/
theorem Built.linked (built : graph.Built) : graph.Linked := built.linked_distinct.1

/-- Every edge of a graph that was built is stored once at each end. -/
theorem Built.distinct (built : graph.Built) : graph.Distinct := built.linked_distinct.2

theorem successors_of_node {name : NodeId} {node : FlowNode}
    (found : graph.node? name = some node) : graph.successors name = node.successors := by
  unfold successors
  rw [found]
  rfl

/-- Only nodes of the graph have successors. -/
theorem lt_size_of_successor {source target : NodeId}
    (edge : target ∈ graph.successors source) : source < graph.size := by
  unfold successors at edge
  cases found : graph.node? source with
  | none =>
      rw [found] at edge
      exact nomatch edge
  | some node => exact (Array.getElem?_eq_some_iff.1 found).1

/-- Only nodes of the graph have predecessors. -/
theorem lt_size_of_entered {source target : NodeId}
    (edge : source ∈ graph.predecessors target) : target < graph.size := by
  unfold predecessors at edge
  cases found : graph.node? target with
  | none =>
      rw [found] at edge
      exact nomatch edge
  | some node => exact (Array.getElem?_eq_some_iff.1 found).1

/-- Edges come from nodes of the graph. -/
theorem Built.lt_size_of_predecessor (built : graph.Built) {source target : NodeId}
    (edge : source ∈ graph.predecessors target) : source < graph.size :=
  lt_size_of_successor ((built.linked source target).2 edge)

end FlowGraph

end SlotVersioning
