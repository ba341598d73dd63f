import SlotVersioning.Dominance.Adjacency

/-!
# Depth-first numbering

A depth-first search numbers the nodes that it reaches from one, in the order in which it reaches
them; a node that it does not reach has number zero. The parent of a reached node is the node from
whose list of successors it was taken.
-/

namespace SlotVersioning

structure Numbering where
  numbers : Array Nat
  /-- The reached nodes in the order of their numbers. -/
  order : Array Nat
  parents : Array (Option Nat)
deriving DecidableEq, Repr

namespace Numbering

def initial (size : Nat) : Numbering where
  numbers := Array.replicate size 0
  order := #[]
  parents := Array.replicate size none

def count (numbering : Numbering) : Nat := numbering.order.size

def number (numbering : Numbering) (node : Nat) : Nat := numbering.numbers.getD node 0

def isReached (numbering : Numbering) (node : Nat) : Bool := numbering.number node != 0

def parent? (numbering : Numbering) (node : Nat) : Option Nat := numbering.parents.getD node none

/-- Gives `node` the next number. -/
def visit (numbering : Numbering) (node : Nat) (parent : Option Nat) : Numbering where
  numbers := numbering.numbers.setIfInBounds node (numbering.count + 1)
  order := numbering.order.push node
  parents := numbering.parents.setIfInBounds node parent

/-- Searches from the pending nodes, each paired with its parent. A node is pending once for every
edge over which it was seen, so a search makes at most one step more than there are edges. -/
def explore (graph : Adjacency) :
    (fuel : Nat) → List (Nat × Option Nat) → Numbering → Numbering
  | 0, _, numbering => numbering
  | _ + 1, [], numbering => numbering
  | fuel + 1, (node, parent) :: pending, numbering =>
      if numbering.isReached node then
        explore graph fuel pending numbering
      else
        let visited := numbering.visit node parent
        let unseen := (graph.successors node).filter fun successor => !visited.isReached successor
        explore graph fuel (unseen.map (·, some node) ++ pending) visited

def ofSearch (graph : Adjacency) (entry : Nat) : Numbering :=
  explore graph (graph.edgeCount + 1) [(entry, none)] (initial graph.size)

example :
    let numbering := ofSearch ⟨#[[2, 1], [0, 3], [3], []]⟩ 0
    numbering.order = #[0, 2, 3, 1] ∧ numbering.parents = #[none, some 0, some 0, some 2] := by
  decide

end Numbering

end SlotVersioning
