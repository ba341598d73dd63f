import SlotVersioning.VersionGraph.Basic

/-!
# Dominance between versions

Paths start at the versions without predecessors. Dominance by one version is read off the
dominator tree; dominance by any other number of versions is decided by walking backwards from the
version in question and looking for a root that is reached without crossing one of them.
-/

namespace SlotVersioning

open Std

namespace VersionGraph

def adjacency (graph : VersionGraph) : Adjacency := ⟨graph.nodes.map VersionNode.successors⟩

def rootPositions (graph : VersionGraph) : List Nat :=
  (List.range graph.size).filter fun position => (graph.predecessorsAt position).isEmpty

def computeDominators (graph : VersionGraph) : VersionGraph :=
  { graph with dominators := some (.compute graph.adjacency graph.rootPositions) }

/-- Whether `dominator` dominates `key`; a version without a node is dominated by nothing. -/
def dominates (graph : VersionGraph) (key dominator : VersionKey) : Except Fault Bool :=
  match graph.dominators with
  | none => .error .noDominators
  | some tree =>
      match graph.position? key, graph.position? dominator with
      | some node, some above => .ok (tree.dominates above node)
      | _, _ => .ok false

/-- Whether walking backwards from the queued positions, never onto a key of `barrier`, ends at a
root. Every edge queues its source once at most. -/
def escapes (graph : VersionGraph) (barrier : ExtTreeSet VersionKey) :
    (fuel : Nat) → (queue : List Nat) → (marked : ExtTreeSet Nat) → Bool
  | 0, _, _ => false
  | _ + 1, [], _ => false
  | fuel + 1, position :: queue, marked =>
      if marked.contains position then
        graph.escapes barrier fuel queue marked
      else
        let marked := marked.insert position
        let predecessors := graph.predecessorsAt position
        let onward := predecessors.filter fun predecessor =>
          !marked.contains predecessor && !(graph.keysAt [predecessor]).any barrier.contains
        predecessors.isEmpty || graph.escapes barrier fuel (queue ++ onward) marked

def edgeCount (graph : VersionGraph) : Nat :=
  graph.nodes.foldl (fun count node => count + node.predecessors.length) 0

/-- Whether every path from a root to `key` runs through `dominators`. -/
def dominatesJointly (graph : VersionGraph) (key : VersionKey)
    (dominators : ExtTreeSet VersionKey) : Except Fault Bool :=
  match dominators.toList with
  | [dominator] => graph.dominates key dominator
  | _ =>
      if dominators.contains key then
        .ok true
      else
        match graph.position? key with
        | none => .ok false
        | some start => .ok !(graph.escapes dominators (graph.edgeCount + 2) [start] ∅)

end VersionGraph

end SlotVersioning
