import SlotVersioning.Dominance.Semidominance

/-!
# Dominator trees

A node dominates another when every path from a root to the other runs through it.
`DominatorTree.compute` finds the closest strict dominator of every node of a graph with any number
of roots. They are put below a virtual root, which is never reported.
-/

namespace SlotVersioning

structure DominatorTree where
  /-- The virtual root, equal to the number of real nodes. -/
  root : Nat
  /-- The immediate dominator of every reached node; the root's own is the root. -/
  immediate : Array (Option Nat)
deriving DecidableEq, Repr

namespace DominatorTree

/-- The dominators of a graph in which paths start at any of the `roots`. -/
def compute (graph : Adjacency) (roots : List Nat) : DominatorTree :=
  let root := graph.size
  let rooted := graph.withVirtualRoot roots
  let numbering := Numbering.ofSearch rooted root
  let state := Semidominance.sweep numbering rooted.predecessorLists rooted.size
  let settled := (numbering.order.toList.drop 1).foldl state.settle state.immediate
  { root, immediate := settled.setIfInBounds root (some root) }

def isReachable (tree : DominatorTree) (node : Nat) : Bool :=
  (tree.immediate.getD node none).isSome

/-- The closest strict dominator of a node, the virtual root excepted. -/
def immediate? (tree : DominatorTree) (node : Nat) : Option Nat :=
  (tree.immediate.getD node none).filter fun dominator =>
    dominator != tree.root && dominator != node

def isAbove (tree : DominatorTree) (dominator : Nat) : (fuel : Nat) → (node : Nat) → Bool
  | 0, _ => false
  | fuel + 1, node =>
      match tree.immediate? node with
      | none => false
      | some above => above == dominator || tree.isAbove dominator fuel above

/-- A reachable node dominates itself, and an unreachable one is dominated by nothing. -/
def dominates (tree : DominatorTree) (dominator node : Nat) : Bool :=
  tree.isReachable node &&
    (dominator == node || tree.isAbove dominator tree.immediate.size node)

example :
    let tree := compute ⟨#[[1, 2], [3], [3], []]⟩ [0]
    tree.immediate? 3 = some 0 ∧ tree.dominates 0 3 = true ∧ tree.dominates 1 3 = false := by
  decide +kernel

end DominatorTree

end SlotVersioning
