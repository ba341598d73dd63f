import Mathlib.Logic.Relation
import SlotVersioning.Proofs.Dominance.Correct
import SlotVersioning.Proofs.Graph.Outline

/-!
# Ways through the version graph

The edges of the version graph lead from a version to the versions in which its value may become
visible, directly or over others (`Leads`). By the dominators of the graph a version dominates
itself when a root leads to it (`Sound.dominates_self_iff`).
-/

namespace SlotVersioning

namespace VersionGraph

variable {graph : VersionGraph}

/-- There is a way over edges, perhaps over none. -/
def Leads (graph : VersionGraph) : VersionKey → VersionKey → Prop :=
  Relation.ReflTransGen fun source target => target ∈ graph.successors source

/-- The dominators are those of the graph as it is. -/
def Dominated (graph : VersionGraph) : Prop :=
  graph.dominators = some (.compute graph.adjacency graph.rootPositions)

theorem dominated_computeDominators (graph : VersionGraph) : graph.computeDominators.Dominated :=
  rfl

/-! ## Positions -/

theorem successors_adjacency (graph : VersionGraph) (position : Nat) :
    graph.adjacency.successors position = graph.successorsAt position := by
  unfold adjacency Adjacency.successors successorsAt
  rw [Array.getD_eq_getD_getElem?, Array.getElem?_map]

theorem size_adjacency (graph : VersionGraph) : graph.adjacency.size = graph.size :=
  Array.size_map

theorem lt_size_of_identity {position : Nat} {identity : VersionKey × VersionOrigin}
    (found : graph.identity? position = some identity) : position < graph.size := by
  rcases exists_node found with ⟨node, stored⟩
  exact (Array.getElem?_eq_some_iff.1 stored).1

theorem mem_rootPositions {position : Nat} :
    position ∈ graph.rootPositions ↔
      position < graph.size ∧ graph.predecessorsAt position = [] := by
  unfold rootPositions
  rw [List.mem_filter, List.mem_range, List.isEmpty_iff]

/-- The roots are the versions at positions without predecessors. -/
theorem mem_roots {key : VersionKey} :
    key ∈ graph.roots ↔ ∃ position origin, graph.identity? position = some (key, origin) ∧
      graph.predecessorsAt position = [] := by
  unfold roots identity? predecessorsAt
  constructor
  · intro member
    rcases List.mem_map.1 member with ⟨node, inside, rfl⟩
    rcases List.mem_filter.1 inside with ⟨inside, alone⟩
    rcases List.getElem?_of_mem inside with ⟨position, stored⟩
    rw [Array.getElem?_toList] at stored
    exact ⟨position, node.origin, by rw [stored]; rfl,
      by rw [stored]; exact List.isEmpty_iff.1 alone⟩
  · rintro ⟨position, origin, found, alone⟩
    rcases Option.map_eq_some_iff.1 found with ⟨node, stored, same⟩
    rw [stored] at alone
    cases same
    refine List.mem_map.2 ⟨node, List.mem_filter.2 ⟨?_, List.isEmpty_iff.2 alone⟩, rfl⟩
    rw [← Array.getElem?_toList] at stored
    exact List.mem_of_getElem? stored

theorem Consistent.inRange_adjacency (consistent : graph.Consistent) :
    graph.adjacency.InRange := by
  intro node target edge
  rw [successors_adjacency] at edge
  rcases consistent.known_successor edge with ⟨identity, found⟩
  rw [size_adjacency]
  exact lt_size_of_identity found

theorem rootPositions_inRange (graph : VersionGraph) :
    ∀ root ∈ graph.rootPositions, root < graph.adjacency.size := by
  intro root member
  rw [size_adjacency]
  exact (mem_rootPositions.1 member).1

namespace Sound

variable (sound : graph.Sound)

include sound

/-- An edge between positions is an edge between their keys. -/
theorem leads_of_edge {place way : Nat} {source target : VersionKey}
    {created origin : VersionOrigin} (edge : place ∈ graph.predecessorsAt way)
    (atPlace : graph.identity? place = some (source, created))
    (atWay : graph.identity? way = some (target, origin)) : graph.Leads source target := by
  apply Relation.ReflTransGen.single
  rw [(sound.listed_at atPlace).2.1, mem_keysAt]
  exact ⟨way, (sound.linked place way).2 edge, by rw [atWay]; rfl⟩

/-- A way between keys runs over the positions of their nodes. -/
private theorem path_iff_leads {start finish : Nat} {source target : VersionKey}
    {created origin : VersionOrigin} (atStart : graph.identity? start = some (source, created))
    (atFinish : graph.identity? finish = some (target, origin)) :
    (∃ nodes, graph.adjacency.Path start nodes finish) ↔ graph.Leads source target := by
  constructor
  · rintro ⟨nodes, path⟩
    induction path generalizing source created with
    | single node =>
        cases atStart.symm.trans atFinish
        exact .refl
    | @step node next finish nodes edge rest induction =>
        rw [successors_adjacency, sound.linked] at edge
        rcases sound.level node next edge with ⟨-, ⟨middle, kind⟩, -, atNext, -⟩
        exact (sound.leads_of_edge edge atStart atNext).trans (induction atNext atFinish)
  · intro leads
    induction leads using Relation.ReflTransGen.head_induction_on generalizing start created with
    | refl =>
        have same := sound.indexed finish target origin atFinish
        cases (sound.indexed start target created atStart).symm.trans same
        exact ⟨_, .single _⟩
    | @head source middle edge rest induction =>
        rw [(sound.listed_at atStart).2.1, mem_keysAt] at edge
        rcases edge with ⟨next, edge, named⟩
        rcases Option.map_eq_some_iff.1 named with ⟨⟨_, kind⟩, atNext, rfl⟩
        rcases induction atNext with ⟨nodes, path⟩
        rw [← successors_adjacency] at edge
        exact ⟨start :: nodes, .step edge path⟩

private theorem reachable_iff {position : Nat} {key : VersionKey} {origin : VersionOrigin}
    (found : graph.identity? position = some (key, origin)) :
    graph.adjacency.Reachable graph.rootPositions position ↔
      ∃ root ∈ graph.roots, graph.Leads root key := by
  constructor
  · rintro ⟨start, isRoot, path⟩
    rcases mem_rootPositions.1 isRoot with ⟨known, alone⟩
    have atStart : graph.identity? start =
        some (graph.nodes[start].key, graph.nodes[start].origin) :=
      congrArg (Option.map _) (Array.getElem?_eq_getElem known)
    exact ⟨_, mem_roots.2 ⟨start, _, atStart, alone⟩, (sound.path_iff_leads atStart found).1 path⟩
  · rintro ⟨root, isRoot, leads⟩
    rcases mem_roots.1 isRoot with ⟨start, created, atStart, alone⟩
    exact ⟨start, mem_rootPositions.2 ⟨lt_size_of_identity atStart, alone⟩,
      (sound.path_iff_leads atStart found).2 leads⟩

/-- A version dominates itself when a root leads to it. -/
theorem dominates_self_iff (dominated : graph.Dominated) {key : VersionKey}
    (known : key ∈ graph.keys) :
    graph.dominates key key = .ok true ↔ ∃ root ∈ graph.roots, graph.Leads root key := by
  rcases mem_keys.1 known with ⟨origin, position, found⟩
  have inside : position < graph.adjacency.size := by
    rw [size_adjacency]
    exact lt_size_of_identity found
  rw [← sound.reachable_iff found,
    ← DominatorTree.isReachable_compute sound.consistent.inRange_adjacency
      graph.rootPositions_inRange inside]
  unfold dominates DominatorTree.dominates
  rw [dominated, sound.indexed position key origin found]
  simp

end Sound

end VersionGraph

end SlotVersioning
