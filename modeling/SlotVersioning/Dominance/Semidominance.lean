import SlotVersioning.Dominance.Forest
import SlotVersioning.Dominance.Numbering

/-!
# Semidominators

The semidominator of a node is the node of least depth-first number from which a path reaches it
through higher numbers only. `Semidominance.sweep` takes the nodes in descending order: each gets
its semidominator, then waits there until its immediate dominator, or a node with the same one, is
known. `Semidominance.settle` turns the latter into the former, in ascending order.
-/

namespace SlotVersioning

structure Semidominance where
  semidominators : Array Nat
  forest : Forest
  /-- For every node, the nodes that it semidominates and whose dominator is still open. -/
  waiting : Array (List Nat)
  immediate : Array (Option Nat)
deriving DecidableEq, Repr

namespace Semidominance

def initial (size : Nat) : Semidominance where
  semidominators := Array.range size
  forest := .discrete size
  waiting := Array.replicate size []
  immediate := Array.replicate size none

def semidominator (state : Semidominance) (node : Nat) : Nat :=
  state.semidominators.getD node node

def immediate? (state : Semidominance) (node : Nat) : Option Nat :=
  state.immediate.getD node none

def rank (numbering : Numbering) (state : Semidominance) (node : Nat) : Nat :=
  numbering.number (state.semidominator node)

/-- The best node on the path above `node` in the forest built so far. -/
def eval (numbering : Numbering) (state : Semidominance) (node : Nat) : Nat × Semidominance :=
  let (best, forest) := state.forest.eval (rank numbering state) node
  (best, { state with forest })

/-- Lets `node` take a smaller semidominator over an edge from `predecessor`. -/
def improve (numbering : Numbering) (node : Nat) (state : Semidominance) (predecessor : Nat) :
    Semidominance :=
  if numbering.isReached predecessor then
    let (best, state) := state.eval numbering predecessor
    if rank numbering state best < rank numbering state node then
      { state with
        semidominators := state.semidominators.setIfInBounds node (state.semidominator best) }
    else
      state
  else
    state

/-- Finds the immediate dominator, or one with the same, of a node that waited at `parent`. -/
def resolve (numbering : Numbering) (parent : Nat) (state : Semidominance) (node : Nat) :
    Semidominance :=
  let (best, state) := state.eval numbering node
  let dominator := if state.semidominator best = state.semidominator node then parent else best
  { state with immediate := state.immediate.setIfInBounds node (some dominator) }

def step (numbering : Numbering) (predecessors : Array (List Nat)) (state : Semidominance)
    (node : Nat) : Semidominance :=
  let parent := (numbering.parent? node).getD node
  let improved := (predecessors.getD node []).foldl (improve numbering node) state
  let linked : Semidominance :=
    { improved with
      waiting := improved.waiting.modify (improved.semidominator node) (· ++ [node])
      forest := improved.forest.link node (some parent) }
  let resolvable := linked.waiting.getD parent []
  resolvable.foldl (resolve numbering parent)
    { linked with waiting := linked.waiting.setIfInBounds parent [] }

def sweep (numbering : Numbering) (predecessors : Array (List Nat)) (size : Nat) : Semidominance :=
  (numbering.order.toList.drop 1).reverse.foldl (step numbering predecessors) (initial size)

/-- Handles one node of the ascending sweep: a node that waits for another one takes
over its immediate dominator. -/
def settle (state : Semidominance) (immediate : Array (Option Nat)) (node : Nat) :
    Array (Option Nat) :=
  let current := immediate.getD node none
  if current = some (state.semidominator node) then
    immediate
  else
    immediate.setIfInBounds node (current.bind fun other => immediate.getD other none)

end Semidominance

end SlotVersioning
