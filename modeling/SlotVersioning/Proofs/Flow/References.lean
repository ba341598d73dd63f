import SlotVersioning.Proofs.Flow.Resolving

/-!
# References of valid flow graphs

The edges, the entry and the starts of a valid flow graph are nodes of it, and a graph is refused for
malformed references only.
-/

namespace SlotVersioning

open Std

namespace FlowGraph

variable {graph : FlowGraph} {tree : StatementTree} {arena : Arena}

/-- A valid graph with nodes is entered at one of them. -/
theorem entry_lt_size (valid : graph.validate tree arena = .ok ()) (nodes : 0 < graph.size) :
    ∃ entry, graph.entry = some entry ∧ entry < graph.size := by
  rcases (fault?_eq_none_iff nodes).1 (validate_eq_ok_iff.1 valid) with ⟨entered, resolves⟩
  rcases Option.ne_none_iff_exists'.1 entered with ⟨entry, found⟩
  have listed : .node entry ∈ graph.references .entry := by simp [references, found]
  exact ⟨entry, found, of_decide_eq_true (resolves .entry (by decide) _ listed)⟩

/-- In a valid graph with nodes statements start at nodes. -/
theorem start_lt_size (valid : graph.validate tree arena = .ok ()) (nodes : 0 < graph.size)
    {statement : StatementId} {start : NodeId} (found : graph.statementStart? statement = some start) :
    start < graph.size := by
  have resolves := ((fault?_eq_none_iff nodes).1 (validate_eq_ok_iff.1 valid)).2 .statementStarts
    (by decide)
  have listed : .node start ∈ graph.references .statementStarts := by
    refine List.mem_flatMap.2 ⟨(statement, start), ?_, by simp [startReferences]⟩
    exact ExtTreeMap.mem_toList_iff_getElem?_eq_some.2 found
  exact of_decide_eq_true (resolves _ listed)

/-- The successors of every node of a valid graph are nodes of it. -/
theorem successor_lt_size (valid : graph.validate tree arena = .ok ()) {node : FlowNode}
    {name : NodeId} (found : graph.node? name = some node) :
    ∀ successor ∈ node.successors, successor < graph.size := by
  intro successor member
  have nodes := Nat.zero_lt_of_lt (Array.getElem?_eq_some_iff.1 found).1
  have resolves := ((fault?_eq_none_iff nodes).1 (validate_eq_ok_iff.1 valid)).2 .nodes (by decide)
  have listed : .node successor ∈ graph.references .nodes := by
    refine List.mem_flatMap.2 ⟨node, Array.mem_toList_iff.2 (Array.mem_of_getElem? found), ?_⟩
    simp [FlowNode.references, member]
  exact of_decide_eq_true (resolves _ listed)

/-! ## Why graphs are refused -/

/-- Every fault that may be found is a malformed reference. -/
def Malformed (found : Option Fault) : Prop := ∀ fault ∈ found, fault.kind = .malformed

private theorem Malformed.or {left right : Option Fault} (first : Malformed left)
    (second : Malformed right) : Malformed (left.or right) := by
  intro fault found
  rw [Option.mem_def, Option.or_eq_some_iff] at found
  rcases found with here | ⟨-, there⟩
  · exact first fault here
  · exact second fault there

private theorem malformed_findSome? {α : Type} {check : α → Option Fault}
    (each : ∀ entry, Malformed (check entry)) (list : List α) :
    Malformed (list.findSome? check) := by
  intro fault found
  rcases List.exists_of_findSome?_eq_some found with ⟨entry, -, here⟩
  exact each entry fault here

private theorem malformed_entryFault? (graph : FlowGraph) : Malformed graph.entryFault? := by
  unfold entryFault?
  intro fault found
  split at found
  · cases found
    rfl
  · split at found
    · exact nomatch found
    · cases found
      rfl

private theorem malformed_nodeFault? (graph : FlowGraph) (tree : StatementTree) (arena : Arena)
    (name : NodeId) (node : FlowNode) : Malformed (graph.nodeFault? tree arena name node) := by
  unfold nodeFault?
  intro fault found
  split at found
  · cases found
    rfl
  · split at found
    · cases found
      rfl
    · rcases Option.map_eq_some_iff.1 found with ⟨other, -, rfl⟩
      rfl

/-- A graph is refused because it is malformed. -/
theorem kind_of_validate {fault : Fault} (refused : graph.validate tree arena = .error fault) :
    fault.kind = .malformed := by
  have found : graph.fault? tree arena = some fault := by
    unfold validate at refused
    split at refused
    · cases refused
      assumption
    · exact nomatch refused
  have checked {condition : Prop} [Decidable condition] {refusal : Fault}
      (kind : refusal.kind = .malformed) : Malformed (if condition then none else some refusal) := by
    intro fault found
    split at found
    · exact nomatch found
    · cases found
      exact kind
  have branch (entry : NodeId × NodeId) : Malformed (graph.branchFault? entry) := checked rfl
  have paths (entry : NodeId × List FinallyPath) : Malformed (graph.pathsFault? entry) :=
    checked rfl
  have start (entry : StatementId × NodeId) :
      Malformed (graph.statementStartFault? tree entry) := checked rfl
  have whole : Malformed (graph.fault? tree arena) := by
    unfold fault?
    split
    · exact fun _ found => nomatch found
    have node := malformed_findSome? (fun entry : FlowNode × NodeId =>
      graph.malformed_nodeFault? tree arena entry.2 entry.1) graph.nodes.toList.zipIdx
    exact ((((((graph.malformed_entryFault?.or node).or (malformed_findSome? branch _)).or
      (malformed_findSome? branch _)).or (malformed_findSome? paths _)).or
      (malformed_findSome? paths _)).or (malformed_findSome? start _))
  exact whole fault found

end FlowGraph

end SlotVersioning
