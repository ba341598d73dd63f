import SlotVersioning.Flow.Validation
import SlotVersioning.Proofs.Flow.Built

/-!
# What validation accepts

`FlowGraph.references` lists what a flow graph refers to, table by table. A graph that was built is
accepted if all of it resolves, and refused if one reference does not, with two exceptions: extra
nodes are not looked at, and a graph without nodes is accepted with whatever it refers to
(`Built.validate_iff_resolve`).
-/

namespace SlotVersioning

open Std

/-! ## References -/

/-- The name of something that a flow graph refers to. -/
inductive Reference
  | node (name : NodeId)
  | statement (name : StatementId)
  | expression (name : ExprId)
deriving DecidableEq

def Reference.resolves (graph : FlowGraph) (tree : StatementTree) (arena : Arena) :
    Reference → Bool
  | node name => graph.contains name
  | statement name => tree.contains name
  | expression name => arena.contains name

def FlowNode.references (node : FlowNode) : List Reference :=
  .statement node.statement :: node.expressions.map .expression ++
    (node.predecessors ++ node.successors).map .node

def FinallyPath.references (path : FinallyPath) : List Reference :=
  [.node path.source, .node path.destination, .node path.entry]

namespace FlowGraph

/-- Where a flow graph keeps what it refers to. -/
inductive Table
  | entry
  | nodes
  | negativeBranches
  | monitorExits
  | shortPaths
  | longPaths
  | extraNodes
  | statementStarts
deriving DecidableEq

def branchReferences (branch : NodeId × NodeId) : List Reference := [.node branch.1, .node branch.2]

def pathReferences (exitPaths : NodeId × List FinallyPath) : List Reference :=
  .node exitPaths.1 :: exitPaths.2.flatMap FinallyPath.references

def startReferences (start : StatementId × NodeId) : List Reference :=
  [.statement start.1, .node start.2]

def references (graph : FlowGraph) : Table → List Reference
  | .entry => graph.entry.toList.map .node
  | .nodes => graph.nodes.toList.flatMap FlowNode.references
  | .negativeBranches => graph.negativeBranches.toList.flatMap branchReferences
  | .monitorExits => graph.monitorExits.toList.flatMap branchReferences
  | .shortPaths => graph.shortPaths.toList.flatMap pathReferences
  | .longPaths => graph.longPaths.toList.flatMap pathReferences
  | .extraNodes => graph.extraNodes.toList.map .node
  | .statementStarts => graph.statementStarts.toList.flatMap startReferences

def ResolvesIn (graph : FlowGraph) (tree : StatementTree) (arena : Arena) (table : Table) : Prop :=
  ∀ reference ∈ graph.references table, reference.resolves graph tree arena = true

instance (graph : FlowGraph) (tree : StatementTree) (arena : Arena) (table : Table) :
    Decidable (graph.ResolvesIn tree arena table) :=
  inferInstanceAs (Decidable (∀ reference ∈ graph.references table, _))

variable {graph : FlowGraph} {tree : StatementTree} {arena : Arena}

/-! ## One check for each table -/

private theorem entryFault?_eq_none_iff :
    graph.entryFault? = none ↔ graph.entry ≠ none ∧ graph.ResolvesIn tree arena .entry := by
  unfold entryFault? ResolvesIn references
  cases graph.entry <;> simp [Reference.resolves]

private theorem nodeFault?_eq_none_iff {name : NodeId} {node : FlowNode} :
    graph.nodeFault? tree arena name node = none ↔
      ∀ reference ∈ node.references, reference.resolves graph tree arena = true := by
  unfold nodeFault? FlowNode.references
  simp only [List.cons_append, List.forall_mem_cons, List.forall_mem_append, List.forall_mem_map,
    Reference.resolves]
  cases tree.contains node.statement with
  | false => simp
  | true =>
      cases found : node.expressions.find? fun expression => !arena.contains expression with
      | some expression =>
          have unknown := List.find?_some found
          have member := List.mem_of_find?_eq_some found
          refine iff_of_false (fun equal => nomatch equal) fun all => ?_
          rw [all.2.1 expression member] at unknown
          exact nomatch unknown
      | none =>
          rw [List.find?_eq_none] at found
          simp only [Bool.not_eq_true, Bool.not_eq_false'] at found
          simp [and_iff_right found]

private theorem branchFault?_eq_none_iff {branch : NodeId × NodeId} :
    graph.branchFault? branch = none ↔
      ∀ reference ∈ branchReferences branch, reference.resolves graph tree arena = true := by
  simp [branchFault?, branchReferences, Reference.resolves]

private theorem pathsFault?_eq_none_iff {exitPaths : NodeId × List FinallyPath} :
    graph.pathsFault? exitPaths = none ↔
      ∀ reference ∈ pathReferences exitPaths, reference.resolves graph tree arena = true := by
  unfold pathsFault? pathReferences FinallyPath.references
  rw [List.forall_mem_cons, List.forall_mem_flatMap]
  simp [pathResolves, Reference.resolves, and_assoc]

private theorem statementStartFault?_eq_none_iff {start : StatementId × NodeId} :
    graph.statementStartFault? tree start = none ↔
      ∀ reference ∈ startReferences start, reference.resolves graph tree arena = true := by
  simp [statementStartFault?, startReferences, Reference.resolves]

/-- Checks of single entries make up the check of a table. -/
theorem findSome?_eq_none_iff_resolve {α : Type} {check : α → Option Fault}
    {told : α → List Reference} (entries : List α)
    (each : ∀ entry, check entry = none ↔
      ∀ reference ∈ told entry, reference.resolves graph tree arena = true) :
    entries.findSome? check = none ↔
      ∀ reference ∈ entries.flatMap told, reference.resolves graph tree arena = true := by
  rw [List.findSome?_eq_none_iff, List.forall_mem_flatMap]
  exact forall₂_congr fun entry _ => each entry

private theorem nodeFaults_eq_none_iff :
    (graph.nodes.toList.zipIdx.findSome? fun (node, name) =>
      graph.nodeFault? tree arena name node) = none ↔ graph.ResolvesIn tree arena .nodes := by
  rw [findSome?_eq_none_iff_resolve _ fun entry => nodeFault?_eq_none_iff]
  have same : graph.nodes.toList.zipIdx.flatMap (fun entry => entry.1.references) =
      graph.nodes.toList.flatMap FlowNode.references := by
    rw [← List.flatMap_map, List.zipIdx_map_fst]
  rw [same]
  rfl

/-- A graph with nodes is accepted if it has an entry and all references resolve but those of the
extra nodes. -/
theorem fault?_eq_none_iff (nodes : 0 < graph.size) :
    graph.fault? tree arena = none ↔ graph.entry ≠ none ∧
      ∀ table, table ≠ .extraNodes → graph.ResolvesIn tree arena table := by
  have nonempty : graph.nodes.isEmpty = false :=
    Array.isEmpty_eq_false_iff.2 (Array.ne_empty_of_size_pos nodes)
  have entryChecked : graph.entryFault? = none ↔
      graph.entry ≠ none ∧ graph.ResolvesIn tree arena .entry := entryFault?_eq_none_iff
  have branchesChecked (entries : List (NodeId × NodeId)) :
      entries.findSome? graph.branchFault? = none ↔ ∀ reference ∈
        entries.flatMap branchReferences, reference.resolves graph tree arena = true :=
    findSome?_eq_none_iff_resolve entries fun _ => branchFault?_eq_none_iff
  have pathsChecked (entries : List (NodeId × List FinallyPath)) :
      entries.findSome? graph.pathsFault? = none ↔ ∀ reference ∈
        entries.flatMap pathReferences, reference.resolves graph tree arena = true :=
    findSome?_eq_none_iff_resolve entries fun _ => pathsFault?_eq_none_iff
  have startsChecked (entries : List (StatementId × NodeId)) :
      entries.findSome? (graph.statementStartFault? tree) = none ↔ ∀ reference ∈
        entries.flatMap startReferences, reference.resolves graph tree arena = true :=
    findSome?_eq_none_iff_resolve entries fun _ => statementStartFault?_eq_none_iff
  unfold fault?
  simp only [nonempty, Bool.false_eq_true, if_false, Option.or_eq_none_iff, entryChecked,
    nodeFaults_eq_none_iff, branchesChecked, pathsChecked, startsChecked]
  constructor
  · rintro ⟨⟨⟨⟨⟨⟨⟨entered, entry⟩, nodes⟩, branches⟩, exits⟩, short⟩, long⟩, starts⟩
    refine ⟨entered, fun table checked => ?_⟩
    cases table with
    | entry => exact entry
    | nodes => exact nodes
    | negativeBranches => exact branches
    | monitorExits => exact exits
    | shortPaths => exact short
    | longPaths => exact long
    | extraNodes => exact absurd rfl checked
    | statementStarts => exact starts
  · rintro ⟨entered, all⟩
    exact ⟨⟨⟨⟨⟨⟨⟨entered, all .entry (by decide)⟩, all .nodes (by decide)⟩,
      all .negativeBranches (by decide)⟩, all .monitorExits (by decide)⟩,
      all .shortPaths (by decide)⟩, all .longPaths (by decide)⟩, all .statementStarts (by decide)⟩

theorem validate_eq_ok_iff :
    graph.validate tree arena = .ok () ↔ graph.fault? tree arena = none := by
  unfold validate
  cases graph.fault? tree arena <;> simp

private theorem fault?_of_empty (empty : graph.size = 0) : graph.fault? tree arena = none := by
  unfold fault?
  rw [if_pos (by simpa [size] using empty)]

/-! ## Built graphs -/

@[simp] theorem size_editNode (graph : FlowGraph) (node : NodeId) (edit : FlowNode → FlowNode) :
    (graph.editNode node edit).size = graph.size := Array.size_modify

private theorem entered_appendExpression {next : FlowGraph} {node : NodeId} {expression : ExprId}
    (done : graph.appendExpression node expression = .ok next) :
    next.size = graph.size ∧ next.entry = graph.entry := by
  unfold appendExpression at done
  split at done
  · cases done
    exact ⟨size_editNode graph node _, rfl⟩
  · exact nomatch done

private theorem entered_connect {next : FlowGraph} {source target : NodeId}
    (done : graph.connect source target = .ok next) :
    next.size = graph.size ∧ next.entry = graph.entry := by
  unfold connect at done
  split at done
  · exact nomatch done
  split at done
  · exact nomatch done
  split at done
  · cases done
    exact ⟨rfl, rfl⟩
  · cases done
    exact ⟨(size_editNode _ _ _).trans (size_editNode _ _ _), rfl⟩

/-- A graph that was built is entered somewhere as soon as it has a node. -/
private theorem Built.entered (built : graph.Built) (nodes : 0 < graph.size) :
    graph.entry ≠ none := by
  induction built with
  | empty => exact absurd nodes (Nat.lt_irrefl 0)
  | addNode built kind statement induction =>
      intro unset
      exact nomatch (Option.or_eq_none_iff.1 unset).2
  | appendExpression built done induction =>
      rcases entered_appendExpression done with ⟨size, entry⟩
      rw [entry]
      exact induction (size ▸ nodes)
  | connect built done induction =>
      rcases entered_connect done with ⟨size, entry⟩
      rw [entry]
      exact induction (size ▸ nodes)
  | withEntry built node induction => exact Option.some_ne_none node
  | withNegativeBranch _ _ _ induction | withShortPath _ _ _ induction
  | withLongPath _ _ _ induction | withMonitorExit _ _ _ induction | withExtraNode _ _ induction
  | withStatementStart _ _ _ induction => exact induction nodes

/-- Validation accepts a graph that was built exactly if it has no nodes, or if every reference in
every table but that of the extra nodes resolves. So a graph with nodes whose extra nodes are among
them is accepted exactly if everything that it refers to resolves. -/
theorem Built.validate_iff_resolve (built : graph.Built) (tree : StatementTree) (arena : Arena) :
    (graph.validate tree arena = .ok () ↔ graph.size = 0 ∨
      ∀ table, table ≠ .extraNodes → graph.ResolvesIn tree arena table) ∧
    (0 < graph.size → graph.ResolvesIn tree arena .extraNodes →
      (graph.validate tree arena = .ok () ↔ ∀ table, graph.ResolvesIn tree arena table)) := by
  have accepted : graph.validate tree arena = .ok () ↔ graph.size = 0 ∨
      ∀ table, table ≠ .extraNodes → graph.ResolvesIn tree arena table := by
    rw [validate_eq_ok_iff]
    rcases Nat.eq_zero_or_pos graph.size with empty | nodes
    · exact iff_of_true (fault?_of_empty empty) (.inl empty)
    · rw [fault?_eq_none_iff nodes, and_iff_right (built.entered nodes),
        or_iff_right (Nat.ne_of_gt nodes)]
  refine ⟨accepted, fun nodes extra => ?_⟩
  rw [accepted, or_iff_right (Nat.ne_of_gt nodes)]
  constructor
  · intro checked table
    by_cases isExtra : table = .extraNodes
    · exact isExtra ▸ extra
    · exact checked table isExtra
  · exact fun all table _ => all table

/-- A condition that may leave a copied block early. -/
def leaving : FlowGraph :=
  let linked : FlowGraph :=
    { nodes := #[
        { kind := .condition, statement := 0, successors := [1, 2] },
        { kind := .direct, statement := 0, predecessors := [0], successors := [2] },
        { kind := .direct, statement := 0, predecessors := [0, 1] }]
      entry := some 0 }
  (((((linked.withNegativeBranch 0 2).withShortPath 1 ⟨0, 2, 1⟩).withLongPath 1
    ⟨0, 2, 1⟩).withMonitorExit 1 2).withExtraNode 1).withStatementStart 0 0

private theorem built_leaving : leaving.Built := by
  have nodes : Built _ := ((Built.empty.addNode .condition 0).addNode .direct 0).addNode .direct 0
  have first := @Built.connect _ _ nodes 0 1 rfl
  have second := @Built.connect _ _ first 0 2 rfl
  have third := @Built.connect _ _ second 1 2 rfl
  exact (((((third.withNegativeBranch 0 2).withShortPath 1 ⟨0, 2, 1⟩).withLongPath 1
    ⟨0, 2, 1⟩).withMonitorExit 1 2).withExtraNode 1).withStatementStart 0 0

/-- Everything that this graph refers to resolves. With a path to a missing node it is refused. -/
theorem validate_iff_resolve_leaving :
    (0 < leaving.size ∧ leaving.ResolvesIn {} {} .extraNodes) ∧
      (∀ table, leaving.ResolvesIn {} {} table) ∧
      (leaving.withShortPath 2 ⟨0, 3, 1⟩).validate {} {} ≠ .ok () := by
  have nodes : 0 < leaving.size := by decide
  have extra : leaving.ResolvesIn {} {} .extraNodes := by decide
  have refused : ¬ (leaving.withShortPath 2 ⟨0, 3, 1⟩).ResolvesIn {} {} .shortPaths := by
    decide
  refine ⟨⟨nodes, extra⟩, ?_, fun accepted => ?_⟩
  · rw [← (built_leaving.validate_iff_resolve {} {}).2 nodes extra, validate_eq_ok_iff]
    decide
  · have checked := ((built_leaving.withShortPath 2 ⟨0, 3, 1⟩).validate_iff_resolve {} {}).1.1
      accepted
    exact refused (checked.resolve_left (Nat.ne_of_gt nodes) .shortPaths (by decide))

/-- A missing extra node goes unnoticed, and so does a missing entry of a graph without nodes. -/
theorem missing_unnoticed :
    (¬ ∀ graph : FlowGraph, graph.Built → 0 < graph.size →
      ∀ (tree : StatementTree) (arena : Arena),
        graph.validate tree arena = .ok () ↔ ∀ table, graph.ResolvesIn tree arena table) ∧
    ¬ ∀ graph : FlowGraph, graph.Built → ∀ (tree : StatementTree) (arena : Arena),
        graph.ResolvesIn tree arena .extraNodes →
        (graph.validate tree arena = .ok () ↔ ∀ table, graph.ResolvesIn tree arena table) := by
  constructor
  · intro claim
    have built := (Built.empty.addNode .direct 0).withExtraNode 3
    have resolves := claim _ built (by decide) {} {}
    rw [validate_eq_ok_iff] at resolves
    have extra := resolves.1 (by decide) .extraNodes
    revert extra
    decide
  · intro claim
    have resolves := claim _ (Built.empty.withEntry 5) {} {} (by decide)
    rw [validate_eq_ok_iff] at resolves
    have entry := resolves.1 (by decide) .entry
    revert entry
    decide

end FlowGraph

end SlotVersioning
