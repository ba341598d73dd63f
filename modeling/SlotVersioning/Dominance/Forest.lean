/-!
# Link-eval forests

A forest that grows by linking roots below other nodes. `Forest.eval` asks for a node of least rank
on the path from a node up to, but not including, the root of its tree. While it answers it
shortens the path, keeping at every node the best node of the part that it no longer walks.
-/

namespace SlotVersioning

structure Forest where
  /-- A node further up, none at a root. -/
  ancestors : Array (Option Nat)
  /-- A node of least rank between a node and its recorded ancestor. -/
  best : Array Nat
deriving DecidableEq, Repr

namespace Forest

def discrete (size : Nat) : Forest where
  ancestors := Array.replicate size none
  best := Array.range size

def ancestor? (forest : Forest) (node : Nat) : Option Nat := forest.ancestors.getD node none

def bestOf (forest : Forest) (node : Nat) : Nat := forest.best.getD node node

/-- Puts the root `node` below `parent`. -/
def link (forest : Forest) (node : Nat) (parent : Option Nat) : Forest :=
  { forest with ancestors := forest.ancestors.setIfInBounds node parent }

/-- Records at `node` what its ancestor, whose own path is short, knows. -/
def shorten (forest : Forest) (rank : Nat → Nat) (node ancestor : Nat) : Forest where
  best :=
    let candidate := forest.bestOf ancestor
    if rank candidate < rank (forest.bestOf node) then forest.best.setIfInBounds node candidate
    else forest.best
  ancestors := forest.ancestors.setIfInBounds node (forest.ancestor? ancestor)

/-- Makes `node` a child of its root, top of the path first. -/
def compress (rank : Nat → Nat) : (fuel : Nat) → Forest → Nat → Forest
  | 0, forest, _ => forest
  | fuel + 1, forest, node =>
      match forest.ancestor? node with
      | none => forest
      | some ancestor =>
          if (forest.ancestor? ancestor).isNone then
            forest
          else
            (compress rank fuel forest ancestor).shorten rank node ancestor

/-- A node of least rank on the path from `node` to below its root, or a root itself, and the forest
with that path shortened. -/
def eval (rank : Nat → Nat) (forest : Forest) (node : Nat) : Nat × Forest :=
  if (forest.ancestor? node).isNone then
    (node, forest)
  else
    let compressed := compress rank forest.ancestors.size forest node
    (compressed.bestOf node, compressed)

end Forest

end SlotVersioning
