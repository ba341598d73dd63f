/-!
# Adjacency lists

A directed graph as the list of successors of every node. Nodes are positions, and an edge that
occurs twice in a list is two edges. `withVirtualRoot` hangs chosen nodes off a new last node, so
that a search from that node reaches what any of them reaches.
-/

namespace SlotVersioning

structure Adjacency where
  lists : Array (List Nat)
deriving DecidableEq, Repr

namespace Adjacency

def size (graph : Adjacency) : Nat := graph.lists.size

def successors (graph : Adjacency) (node : Nat) : List Nat := graph.lists.getD node []

def edgeCount (graph : Adjacency) : Nat :=
  graph.lists.foldl (fun count targets => count + targets.length) 0

def edges (graph : Adjacency) : List (Nat × Nat) :=
  graph.lists.toList.zipIdx.flatMap fun (targets, source) => targets.map (source, ·)

def predecessorLists (graph : Adjacency) : Array (List Nat) :=
  graph.edges.reverse.foldl
    (fun lists (source, target) => lists.modify target (source :: ·))
    (Array.replicate graph.size [])

def withVirtualRoot (graph : Adjacency) (roots : List Nat) : Adjacency :=
  ⟨graph.lists.push roots⟩

end Adjacency

end SlotVersioning
