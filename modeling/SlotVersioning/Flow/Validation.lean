import SlotVersioning.Expression.Arena
import SlotVersioning.Flow.Graph
import SlotVersioning.Statement.Tree

/-!
# Valid flow graphs

A flow graph is valid for a statement tree and an arena when the references that it records resolve.
`FlowGraph.fault?` finds the first one that does not.
-/

namespace SlotVersioning

namespace FlowGraph

def entryFault? (graph : FlowGraph) : Option Fault :=
  match graph.entry with
  | none => some .noEntry
  | some entry => if graph.contains entry then none else some (.unknownEntry entry)

def nodeFault? (graph : FlowGraph) (tree : StatementTree) (arena : Arena) (name : NodeId)
    (node : FlowNode) : Option Fault :=
  if !tree.contains node.statement then
    some (.nodeStatement name node.statement)
  else
    match node.expressions.find? fun expression => !arena.contains expression with
    | some expression => some (.nodeExpression name expression)
    | none =>
        ((node.predecessors ++ node.successors).find? fun other => !graph.contains other).map
          (Fault.nodeLink name)

def branchFault? (graph : FlowGraph) (branch : NodeId × NodeId) : Option Fault :=
  if graph.contains branch.1 && graph.contains branch.2 then none
  else some (.branchLeavesGraph branch.1 branch.2)

def pathResolves (graph : FlowGraph) (path : FinallyPath) : Bool :=
  graph.contains path.source && graph.contains path.destination && graph.contains path.entry

def pathsFault? (graph : FlowGraph) (exitPaths : NodeId × List FinallyPath) : Option Fault :=
  if graph.contains exitPaths.1 && exitPaths.2.all graph.pathResolves then none
  else some (.finallyPaths exitPaths.1)

def statementStartFault? (graph : FlowGraph) (tree : StatementTree)
    (entry : StatementId × NodeId) : Option Fault :=
  if tree.contains entry.1 && graph.contains entry.2 then none
  else some (.statementStart entry.1 entry.2)

/-- The first reference that does not resolve, in the order in which references are checked. A graph
without nodes is not checked, and neither are the extra nodes. -/
def fault? (graph : FlowGraph) (tree : StatementTree) (arena : Arena) : Option Fault :=
  if graph.nodes.isEmpty then
    none
  else
    graph.entryFault?
      |>.or (graph.nodes.toList.zipIdx.findSome? fun (node, name) =>
        graph.nodeFault? tree arena name node)
      |>.or (graph.negativeBranches.toList.findSome? graph.branchFault?)
      |>.or (graph.monitorExits.toList.findSome? graph.branchFault?)
      |>.or (graph.shortPaths.toList.findSome? graph.pathsFault?)
      |>.or (graph.longPaths.toList.findSome? graph.pathsFault?)
      |>.or (graph.statementStarts.toList.findSome? (graph.statementStartFault? tree))

def validate (graph : FlowGraph) (tree : StatementTree) (arena : Arena) : Except Fault Unit :=
  match graph.fault? tree arena with
  | some fault => .error fault
  | none => .ok ()

end FlowGraph

end SlotVersioning
