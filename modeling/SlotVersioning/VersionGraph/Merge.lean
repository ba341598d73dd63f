import SlotVersioning.VersionGraph.Basic

/-!
# Merging versions

A merged version has one phi input for every version that contributes to it. These are the edits by
which its inputs are kept in step with a set of wanted contributors.
-/

namespace SlotVersioning

namespace VersionGraph

/-- The version that a phi input carries; any other node carries none. -/
def inputSource? (graph : VersionGraph) (position : Nat) : Option Version :=
  if graph.isPhiInputAt position then (graph.carriedAt position).map VersionKey.version else none

/-- Removes every edge into `target` but those of phi inputs that carry a wanted version, and tells
which wanted versions still flow in. -/
def pruneInputs (graph : VersionGraph) (target : Nat) (wanted : Version → Bool) :
    VersionGraph × VersionSet :=
  (graph.predecessorsAt target).foldl (fun (graph, wired) predecessor =>
    match (graph.inputSource? predecessor).filter wanted with
    | some source => (graph, insert source wired)
    | none => (graph.unlink predecessor target, wired)) (graph, ∅)

/-- Lets `source` flow into the node at `target` through a new phi input. -/
def addInput (graph : VersionGraph) (source input : VersionKey) (target : Nat) : VersionGraph :=
  let (graph, origin) := graph.ensure source .definition
  let (graph, way) := graph.ensure input .phiInput
  (graph.link origin way).link way target

/-- The versions that flow into the node at `position`, those of phi inputs being the ones that they
carry. -/
def sourcesAt (graph : VersionGraph) (position : Nat) : VersionSet :=
  (graph.predecessorsAt position).foldl (fun sources predecessor =>
    let source := if graph.isPhiInputAt predecessor then graph.carriedAt predecessor
      else (graph.keysAt [predecessor]).head?
    match source with
    | some key => insert key.version sources
    | none => sources) ∅

end VersionGraph

end SlotVersioning
