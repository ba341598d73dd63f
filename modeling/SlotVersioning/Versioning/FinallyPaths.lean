import SlotVersioning.Flow.Graph
import SlotVersioning.Versioning.Tables

/-!
# Facts along finally exits

A `finally` block is copied once for every way of leaving its region, but the copies share their
exits. What leaves a shared exit towards a node is therefore restricted to what came in over a path
that leads there, and to what the node knew already.

Exits nest: what came in over a path may itself have left a shared exit. The nesting is followed to
a limited depth.
-/

namespace SlotVersioning

namespace Tables

def edgeFacts? (tables : Tables) (graph : FlowGraph) (source target : NodeId) : Option Facts :=
  if graph.negativeBranch? source = some target then tables.negativeFacts[source]?
  else tables.outFacts[source]?

/-- What the paths through an exit bring: facts over paths that lead to the destination, and facts
over paths that lead elsewhere, path by path. -/
structure PathFacts where
  leading : Facts := ∅
  elsewhere : List Facts := []

/-- Whether a path through `exit` leads elsewhere than to `node`, when the facts are wanted at
`destination`. -/
def leadsElsewhere (graph : FlowGraph) (exit node destination : NodeId) (path : FinallyPath) :
    Bool :=
  if (graph.shortPaths? path.source).isSome then
    path.destination != node
  else
    !(graph.longPathsOf exit).any fun long =>
      long.destination == destination && long.source == path.source

def passing (tables : Tables) (node : NodeId) (facts : Facts) (paths : PathFacts) : Facts :=
  let kept := paths.elsewhere.foldl (· \ ·) facts
  facts ∩ (kept ∪ paths.leading ∪ (tables.inFacts[node]?).getD ∅)

/-- The facts that reach `node` over its edge from `exit`, when they are wanted at `destination`,
with at most `depth` exits still to be resolved. -/
def exitFacts (tables : Tables) (graph : FlowGraph) (config : Config) (destination : NodeId) :
    (depth : Nat) → (node exit : NodeId) → Except Fault Facts
  | 0, _, _ => .error (.recursionLimit config.maxFinallyDepth)
  | depth + 1, node, exit => do
      let facts := (tables.edgeFacts? graph exit node).getD ∅
      match graph.shortPaths? exit with
      | none => return facts
      | some paths =>
          if facts.isEmpty then
            return facts
          else
            let collected ← paths.foldlM (fun (collected : PathFacts) path => do
              let sourceFacts ←
                if (graph.shortPaths? path.source).isSome then
                  some <$> tables.exitFacts graph config destination depth path.entry path.source
                else
                  pure (tables.edgeFacts? graph path.source path.entry)
              return match sourceFacts with
                | none => collected
                | some sourceFacts =>
                    if leadsElsewhere graph exit node destination path then
                      { collected with elsewhere := collected.elsewhere ++ [sourceFacts] }
                    else
                      { collected with leading := collected.leading ∪ sourceFacts }) {}
            if (graph.monitorExit? exit).any (· != node) then
              return collected.leading
            else
              return tables.passing node facts collected

def arriving (tables : Tables) (graph : FlowGraph) (config : Config) (node predecessor : NodeId) :
    Except Fault Facts :=
  tables.exitFacts graph config node (config.maxFinallyDepth + 1) node predecessor

end Tables

end SlotVersioning
