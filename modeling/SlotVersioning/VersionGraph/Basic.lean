import SlotVersioning.Facts.Basic
import SlotVersioning.Expression.Basic
import SlotVersioning.Dominance.Tree

/-!
# The version graph

One node per version that was created, and an edge from a version to every version in which its
value may become visible. A version that merges others has one *phi input* per contributing version
as predecessor, so each contribution has an edge of its own.

Nodes are named by keys from outside and by their position inside. Edges are stored at both ends,
once each, in the order in which they were added.
-/

namespace SlotVersioning

open Std

/-- How a node came into being. -/
inductive VersionOrigin
  /-- An assignment, a parameter, a handler variable or an implicit first definition. -/
  | definition
  /-- A version split off at a read. -/
  | use
  /-- The way of one contributor into a merged version. -/
  | phiInput
  /-- The value of an incremented variable after the increment. -/
  | phantom
  /-- The slot of a field access. -/
  | field
deriving DecidableEq, Repr

def VersionOrigin.name : VersionOrigin → String
  | definition => "Definition"
  | use => "Use"
  | phiInput => "PhiInput"
  | phantom => "Phantom"
  | field => "Field"

structure VersionNode where
  key : VersionKey
  origin : VersionOrigin
  debugName : Option DebugName := none
  predecessors : List Nat := []
  successors : List Nat := []
  /-- The facts recorded at this version by the live round. -/
  live : Option Facts := none

structure VersionGraph where
  nodes : Array VersionNode := #[]
  index : ExtTreeMap VersionKey Nat := ∅
  /-- A snapshot; later edits do not change it. -/
  dominators : Option DominatorTree := none

namespace VersionGraph

instance : Inhabited VersionGraph := ⟨{}⟩

/-! ## By position -/

def size (graph : VersionGraph) : Nat := graph.nodes.size

def predecessorsAt (graph : VersionGraph) (position : Nat) : List Nat :=
  ((graph.nodes[position]?).map VersionNode.predecessors).getD []

def successorsAt (graph : VersionGraph) (position : Nat) : List Nat :=
  ((graph.nodes[position]?).map VersionNode.successors).getD []

def keysAt (graph : VersionGraph) (positions : List Nat) : List VersionKey :=
  positions.filterMap fun position => (graph.nodes[position]?).map VersionNode.key

def isPhiInputAt (graph : VersionGraph) (position : Nat) : Bool :=
  (graph.nodes[position]?).any fun node => node.origin == .phiInput

/-- The first predecessor; a phi input has no other, and it carries that version. -/
def carriedAt (graph : VersionGraph) (position : Nat) : Option VersionKey := do
  let first ← (graph.predecessorsAt position).head?
  let node ← graph.nodes[first]?
  return node.key

/-! ## By key -/

def position? (graph : VersionGraph) (key : VersionKey) : Option Nat := graph.index[key]?

def contains (graph : VersionGraph) (key : VersionKey) : Bool := graph.index.contains key

def node? (graph : VersionGraph) (key : VersionKey) : Option VersionNode := do
  let position ← graph.position? key
  graph.nodes[position]?

def predecessors (graph : VersionGraph) (key : VersionKey) : List VersionKey :=
  graph.keysAt (((graph.node? key).map VersionNode.predecessors).getD [])

def successors (graph : VersionGraph) (key : VersionKey) : List VersionKey :=
  graph.keysAt (((graph.node? key).map VersionNode.successors).getD [])

/-- The versions merged into `key` through phi inputs, in the order of the edges. -/
def contributors (graph : VersionGraph) (key : VersionKey) : List VersionKey :=
  ((((graph.node? key).map VersionNode.predecessors).getD []).filter graph.isPhiInputAt).filterMap
    graph.carriedAt

def keys (graph : VersionGraph) : List VersionKey := graph.nodes.toList.map VersionNode.key

def roots (graph : VersionGraph) : List VersionKey :=
  (graph.nodes.toList.filter fun node => node.predecessors.isEmpty).map VersionNode.key

/-- The facts recorded at a known version, empty when there are none. -/
def liveAt? (graph : VersionGraph) (key : VersionKey) : Option Facts :=
  (graph.node? key).map fun node => node.live.getD ∅

/-! ## Editing -/

def editAt (graph : VersionGraph) (position : Nat) (edit : VersionNode → VersionNode) :
    VersionGraph :=
  { graph with nodes := graph.nodes.modify position edit }

/-- Makes sure that `key` has a node and tells its position. A node that is already there keeps its
origin, and its debug name unless it has none. -/
def ensure (graph : VersionGraph) (key : VersionKey) (origin : VersionOrigin)
    (debugName : Option DebugName := none) : VersionGraph × Nat :=
  match graph.position? key with
  | some position =>
      (graph.editAt position fun node => { node with debugName := node.debugName.or debugName },
        position)
  | none =>
      ({ graph with
          nodes := graph.nodes.push { key, origin, debugName }
          index := graph.index.insert key graph.size }, graph.size)

/-- Adds an edge between positions; one that is already there is not added again. -/
def link (graph : VersionGraph) (source target : Nat) : VersionGraph :=
  if (graph.successorsAt source).contains target then
    graph
  else
    (graph.editAt source fun node =>
      { node with successors := node.successors ++ [target] }).editAt target fun node =>
      { node with predecessors := node.predecessors ++ [source] }

def unlink (graph : VersionGraph) (source target : Nat) : VersionGraph :=
  (graph.editAt source fun node =>
    { node with successors := node.successors.filter (· != target) }).editAt target fun node =>
    { node with predecessors := node.predecessors.filter (· != source) }

def withLive (graph : VersionGraph) (key : VersionKey) (facts : Facts) : VersionGraph :=
  match graph.position? key with
  | some position => graph.editAt position fun node => { node with live := some facts }
  | none => graph

end VersionGraph

end SlotVersioning
