import SlotVersioning.Versioning.Evaluate
import SlotVersioning.Versioning.FinallyPaths

/-!
# Passes

A pass visits every node in order: it joins what arrives at the node, evaluates the node's
expressions, and stores what leaves it. A node is *dirty* when what arrives at it may have changed
since it was visited. Passes are repeated until no node is dirty; a last pass may record live facts.
-/

namespace SlotVersioning

open Std

/-- What a run reads and never writes. -/
structure Context where
  config : Config
  body : Body

namespace Context

def graph (context : Context) : FlowGraph := context.body.graph

def site (context : Context) (statement : StatementId) (live : Bool) : Site where
  config := context.config
  tree := context.body.statements
  statement := statement
  live := live

end Context

abbrev DirtyNodes := ExtTreeSet NodeId

namespace RunM

/-! ## One node -/

/-- Joins and stores what arrives at a node. -/
def arrive (context : Context) (node : NodeId) : RunM Facts := do
  let before ← tables
  let arrived ← ofExcept <| (context.graph.predecessors node).foldlM (fun facts predecessor =>
    return facts ∪ (← before.arriving context.graph context.config node predecessor)) ∅
  let facts := arrived ∪ (before.seeds[node]?).getD ∅
  editTables fun tables => { tables with inFacts := tables.inFacts.insert node facts }
  return facts

def evaluateExpression (context : Context) (site : Site) (entry : OutcomeFacts)
    (expression : ExprId) : RunM OutcomeFacts :=
  evaluate site (context.body.arena.term expression) entry.join

/-- Evaluates the first expression of a node, which may bind the variable of a loop. -/
def evaluateFirst (context : Context) (site : Site) (kind : FlowNodeKind) (entry : OutcomeFacts)
    (expression : ExprId) : RunM OutcomeFacts :=
  match kind, context.body.arena.site? expression with
  | .forEachBinding, some bound => do
      return .joined (← define site bound entry.merged)
  | _, _ => evaluateExpression context site entry expression

def evaluateNode (context : Context) (site : Site) (node : FlowNode) (entry : Facts) :
    RunM OutcomeFacts :=
  match node.expressions with
  | [] => return .joined entry
  | first :: rest => do
      let outcome ← evaluateFirst context site node.kind (.joined entry) first
      rest.foldlM (evaluateExpression context site) outcome

/-- Whether the next node is sure to belong to the same basic block. -/
def staysInBlock (graph : FlowGraph) (node : FlowNode) : Bool :=
  match node.successors with
  | [] => true
  | [successor] => (graph.predecessors successor).length == 1
  | _ => false

/-- What leaves a node, given the outcome of its last expression. -/
def leaving (context : Context) (node : FlowNode) (outcome : OutcomeFacts) : OutcomeFacts :=
  if context.config.has .blockLocalFields && !staysInBlock context.graph node then
    outcome.editEach Facts.withoutFields
  else
    outcome

def differs (tables : Tables) (node : NodeId) (outcome : OutcomeFacts) : Bool :=
  tables.outFacts[node]? != some outcome.ifTrue ||
    (tables.negativeFacts[node]?).any (· != outcome.ifFalse)

/-- Stores what leaves a node and tells whether that is new. -/
def leave (context : Context) (node : NodeId) (outcome : OutcomeFacts) : RunM Bool := do
  if differs (← tables) node outcome then
    report (.outFactsChanged node outcome.ifTrue)
    editTables fun tables =>
      { tables with
        outFacts := tables.outFacts.insert node outcome.ifTrue
        negativeFacts :=
          if (context.graph.negativeBranch? node).isSome then
            tables.negativeFacts.insert node outcome.ifFalse
          else
            tables.negativeFacts }
    return true
  else
    return false

/-- Visits a node and returns the dirty nodes afterwards. Nodes that were only found through copies
of `finally` blocks make no other node dirty. -/
def visit (context : Context) (live : Bool) (dirty : DirtyNodes) (entry : FlowNode × NodeId) :
    RunM DirtyNodes := do
  let (node, name) := entry
  let facts ← arrive context name
  let outcome ← evaluateNode context (context.site node.statement live) node facts
  let changed ← leave context name (leaving context node outcome)
  if changed && !context.graph.isExtra name then
    return (dirty.erase name).insertMany node.successors
  else
    return dirty.erase name

/-! ## All nodes -/

/-- One pass over all nodes, returning the nodes that are dirty after it. -/
def pass (context : Context) (live : Bool) (dirty : DirtyNodes) : RunM DirtyNodes :=
  context.graph.nodes.toList.zipIdx.foldlM (visit context live) dirty

def countPass : RunM Unit :=
  editTables fun tables => { tables with passes := tables.passes + 1 }

/-- Repeats passes until no node is dirty, at most as often as the fuel allows. -/
def settle (context : Context) : (fuel : Nat) → DirtyNodes → RunM Unit
  | 0, _ => do throw (.notConverged (← tables).passes)
  | fuel + 1, dirty => do
      countPass
      let dirty ← pass context false dirty
      report (.passFinished (← tables).passes context.graph.size dirty.size)
      if dirty.isEmpty then pure () else settle context fuel dirty

/-- The pass that records live facts, after which the dominators are computed. -/
def liveRound (context : Context) : RunM Unit := do
  countPass
  discard <| pass context true ∅
  editGraph VersionGraph.computeDominators
  match (← tables).graph with
  | some graph => report (.liveRoundFinished graph.size)
  | none => pure ()

/-! ## Seeds -/

/-- Mints a version that enters from outside, in the range of the given statement. -/
def seedVersion (context : Context) (statement : StatementId) (facts : Facts) (slot : Slot) :
    RunM Facts := do
  let version ← mint context.body.statements slot (some statement)
  editGraph fun graph => (graph.ensure ⟨slot, version⟩ .definition).1
  return facts.pin slot version

def storeSeeds (node : NodeId) (facts : Facts) : RunM Unit :=
  editTables fun tables => { tables with seeds := tables.seeds.insert node facts }

/-- Every parameter enters at the entry of the graph with a version of its own. -/
def seedParameters (context : Context) (entry : NodeId) : RunM Unit := do
  let facts ← context.body.signature.arrivalSlots.foldlM
    (seedVersion context StatementTree.root) ∅
  storeSeeds entry facts

/-- The variable of an exception handler enters at the handler's first node. -/
def seedHandler (context : Context) (statement : StatementId) (slots : List Slot)
    (handler : StatementId × Nat) : RunM Unit := do
  let (child, position) := handler
  match slots[position]?, context.graph.statementStart? child with
  | none, _ => throw (.handlerVariable child statement)
  | some _, none => throw (.handlerStart child statement)
  | some slot, some entry => storeSeeds entry (← seedVersion context statement ∅ slot)

def seedHandlers (context : Context) (statement : StatementId) : RunM Unit :=
  let tree := context.body.statements
  match (tree.get? statement).bind fun stored => stored.kind.handlerSlots? with
  | none => pure ()
  | some slots =>
      ((tree.children statement).drop 1).zipIdx.forM (seedHandler context statement slots)

/-! ## A whole body -/

/-- Versions a body. A graph without an entry has nothing to version. -/
def versionAll (context : Context) : RunM Unit :=
  match context.graph.entry with
  | none => report .nothingToDo
  | some entry => do
      seedParameters context entry
      context.body.statements.preorder.forM (seedHandlers context)
      settle context context.config.maxPasses ∅
      if context.config.has .liveRound then liveRound context else pure ()

end RunM

end SlotVersioning
