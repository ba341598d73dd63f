import Std.Data.ExtTreeMap
import Std.Data.ExtTreeSet
import SlotVersioning.Fault

/-!
# Flow graphs

The flattened control flow of a method body. A node lists the expressions that are evaluated at it,
and its edges are stored at both ends, once each. Nodes are visited in the order of the list.

Beside the edges a graph records where the false outcome of a node continues, how the copies of an
inlined `finally` block are entered and left, which nodes were only found through such copies, and
at which node a statement starts.
-/

namespace SlotVersioning

open Std

inductive FlowNodeKind
  | direct
  | tail
  | init
  | condition
  | increment
  | try
  /-- Binds the variable of a for-each loop; its first expression is a definition. -/
  | forEachBinding
deriving DecidableEq, Repr

def FlowNodeKind.name : FlowNodeKind → String
  | direct => "Direct"
  | tail => "Tail"
  | init => "Init"
  | condition => "Condition"
  | increment => "Increment"
  | «try» => "Try"
  | forEachBinding => "ForEachVarDef"

structure FlowNode where
  kind : FlowNodeKind
  statement : StatementId
  expressions : List ExprId := []
  predecessors : List NodeId := []
  successors : List NodeId := []
deriving DecidableEq, Repr

/-- A way through a copy of a `finally` block, seen from an exit of the copy. A short-range path
tells from which `source` the copy was entered, through which `entry`, and where the copy itself
leads. A long-range path tells to which `destination` its `source` continues in truth. -/
structure FinallyPath where
  source : NodeId
  destination : NodeId
  entry : NodeId
deriving DecidableEq, Repr

structure FlowGraph where
  nodes : Array FlowNode := #[]
  entry : Option NodeId := none
  /-- Nodes with the node at which their false outcome continues. -/
  negativeBranches : ExtTreeMap NodeId NodeId := ∅
  shortPaths : ExtTreeMap NodeId (List FinallyPath) := ∅
  longPaths : ExtTreeMap NodeId (List FinallyPath) := ∅
  /-- Exits of a copy for a monitor or an exception, with the node that each one continues to. -/
  monitorExits : ExtTreeMap NodeId NodeId := ∅
  extraNodes : ExtTreeSet NodeId := ∅
  statementStarts : ExtTreeMap StatementId NodeId := ∅

namespace FlowGraph

instance : Inhabited FlowGraph := ⟨{}⟩

/-! ## Reading -/

def size (graph : FlowGraph) : Nat := graph.nodes.size

def contains (graph : FlowGraph) (node : NodeId) : Bool := node < graph.size

def node? (graph : FlowGraph) (node : NodeId) : Option FlowNode := graph.nodes[node]?

def successors (graph : FlowGraph) (node : NodeId) : List NodeId :=
  ((graph.node? node).map FlowNode.successors).getD []

def predecessors (graph : FlowGraph) (node : NodeId) : List NodeId :=
  ((graph.node? node).map FlowNode.predecessors).getD []

def negativeBranch? (graph : FlowGraph) (node : NodeId) : Option NodeId :=
  graph.negativeBranches[node]?

def shortPaths? (graph : FlowGraph) (exit : NodeId) : Option (List FinallyPath) :=
  graph.shortPaths[exit]?

def longPathsOf (graph : FlowGraph) (exit : NodeId) : List FinallyPath :=
  (graph.longPaths[exit]?).getD []

def monitorExit? (graph : FlowGraph) (exit : NodeId) : Option NodeId := graph.monitorExits[exit]?

def isExtra (graph : FlowGraph) (node : NodeId) : Bool := graph.extraNodes.contains node

def statementStart? (graph : FlowGraph) (statement : StatementId) : Option NodeId :=
  graph.statementStarts[statement]?

/-! ## Building -/

/-- Adds a node and names it; the first node becomes the entry unless one was chosen. -/
def addNode (graph : FlowGraph) (kind : FlowNodeKind) (statement : StatementId) :
    FlowGraph × NodeId :=
  ({ graph with
      nodes := graph.nodes.push { kind, statement }
      entry := graph.entry.or (some graph.size) }, graph.size)

def editNode (graph : FlowGraph) (node : NodeId) (edit : FlowNode → FlowNode) : FlowGraph :=
  { graph with nodes := graph.nodes.modify node edit }

def appendExpression (graph : FlowGraph) (node : NodeId) (expression : ExprId) :
    Except Fault FlowGraph :=
  if graph.contains node then
    .ok (graph.editNode node fun stored =>
      { stored with expressions := stored.expressions ++ [expression] })
  else
    .error (.unknownNode node)

/-- Adds an edge; one that is already there is not added again. -/
def connect (graph : FlowGraph) (source target : NodeId) : Except Fault FlowGraph :=
  if !graph.contains target then
    .error (.unknownNode target)
  else if !graph.contains source then
    .error (.unknownNode source)
  else if graph.successors source |>.contains target then
    .ok graph
  else
    .ok ((graph.editNode source fun stored =>
        { stored with successors := stored.successors ++ [target] }).editNode target fun stored =>
        { stored with predecessors := stored.predecessors ++ [source] })

def withEntry (graph : FlowGraph) (node : NodeId) : FlowGraph := { graph with entry := some node }

def withNegativeBranch (graph : FlowGraph) (node target : NodeId) : FlowGraph :=
  { graph with negativeBranches := graph.negativeBranches.insert node target }

def withShortPath (graph : FlowGraph) (exit : NodeId) (path : FinallyPath) : FlowGraph :=
  let paths := (graph.shortPaths[exit]?).getD [] ++ [path]
  { graph with shortPaths := graph.shortPaths.insert exit paths }

def withLongPath (graph : FlowGraph) (exit : NodeId) (path : FinallyPath) : FlowGraph :=
  let paths := (graph.longPaths[exit]?).getD [] ++ [path]
  { graph with longPaths := graph.longPaths.insert exit paths }

def withMonitorExit (graph : FlowGraph) (exit destination : NodeId) : FlowGraph :=
  { graph with monitorExits := graph.monitorExits.insert exit destination }

def withExtraNode (graph : FlowGraph) (node : NodeId) : FlowGraph :=
  { graph with extraNodes := graph.extraNodes.insert node }

def withStatementStart (graph : FlowGraph) (statement : StatementId) (node : NodeId) : FlowGraph :=
  { graph with statementStarts := graph.statementStarts.insert statement node }

end FlowGraph

end SlotVersioning
