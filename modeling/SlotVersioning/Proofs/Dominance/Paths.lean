import Mathlib.Data.List.Basic
import SlotVersioning.Dominance.Adjacency

/-!
# Paths and what they cannot avoid

`Adjacency.Path` lists the nodes of a path, both ends included, and `Adjacency.Dominates` says of a
node that every path from a root runs through it. `Adjacency.Leads` is a path over allowed nodes
only, so that dominance is a path that does not exist once a node is forbidden.
-/

namespace SlotVersioning

namespace Adjacency

/-- The list of nodes that a path visits, its start first and its end last. -/
inductive Path (graph : Adjacency) : (start : Nat) → List Nat → (finish : Nat) → Prop
  | single (node : Nat) : Path graph node [node] node
  | step {node next finish : Nat} {nodes : List Nat} (edge : next ∈ graph.successors node)
      (rest : Path graph next nodes finish) : Path graph node (node :: nodes) finish

def InRange (graph : Adjacency) : Prop :=
  ∀ node, ∀ target ∈ graph.successors node, target < graph.size

private theorem inRange_iff {graph : Adjacency} :
    graph.InRange ↔ ∀ targets ∈ graph.lists.toList, ∀ target ∈ targets, target < graph.size := by
  constructor
  · intro inRange targets member target isTarget
    obtain ⟨node, found⟩ := List.mem_iff_getElem?.mp member
    rw [Array.getElem?_toList] at found
    exact inRange node target (by simpa [successors, found] using isTarget)
  · intro inRange node target edge
    cases found : graph.lists[node]? with
    | none => simp [successors, found] at edge
    | some targets =>
        have member := List.mem_of_getElem? (Array.getElem?_toList ▸ found)
        exact inRange targets member target (by simpa [successors, found] using edge)

instance (graph : Adjacency) : Decidable graph.InRange := decidable_of_iff' _ inRange_iff

def Reachable (graph : Adjacency) (roots : List Nat) (node : Nat) : Prop :=
  ∃ root ∈ roots, ∃ nodes, graph.Path root nodes node

/-- Every path from a root to `node`, and there is one, runs through `dominator`. -/
structure Dominates (graph : Adjacency) (roots : List Nat) (dominator node : Nat) : Prop where
  reachable : graph.Reachable roots node
  crossed : ∀ root ∈ roots, ∀ nodes, graph.Path root nodes node → dominator ∈ nodes

/-- The strict dominator of `node` that all others dominate. -/
structure DominatesClosest (graph : Adjacency) (roots : List Nat) (dominator node : Nat) :
    Prop where
  different : dominator ≠ node
  dominates : graph.Dominates roots dominator node
  closest : ∀ other, other ≠ node → graph.Dominates roots other node →
    graph.Dominates roots other dominator

/-! ## Ends of a path -/

variable {graph : Adjacency} {roots : List Nat} {start middle finish node : Nat} {nodes : List Nat}

theorem lt_size_of_edge {source target : Nat} (edge : target ∈ graph.successors source) :
    source < graph.size := by
  by_contra outside
  rw [successors, Array.getD_eq_getD_getElem?, Array.getElem?_eq_none (Nat.le_of_not_lt outside)]
    at edge
  exact List.not_mem_nil edge

theorem Path.start_mem (path : graph.Path start nodes finish) : start ∈ nodes := by
  cases path with
  | single => exact List.mem_singleton_self start
  | step edge rest => exact List.mem_cons_self

theorem Path.finish_mem (path : graph.Path start nodes finish) : finish ∈ nodes := by
  induction path with
  | single last => exact List.mem_singleton_self last
  | step edge rest induction => exact List.mem_cons_of_mem _ induction

/-- A path can be cut off at any of its nodes. -/
theorem Path.exists_prefix (path : graph.Path start nodes finish) (member : middle ∈ nodes) :
    ∃ front, graph.Path start front middle ∧ front ⊆ nodes := by
  induction path with
  | single last =>
      obtain rfl := List.mem_singleton.mp member
      exact ⟨[middle], .single middle, List.Subset.refl _⟩
  | @step first next finish rest edge path induction =>
      rcases List.mem_cons.mp member with rfl | member
      · exact ⟨[middle], .single middle, List.cons_subset_cons _ (List.nil_subset _)⟩
      · obtain ⟨front, cut, inside⟩ := induction member
        exact ⟨first :: front, .step edge cut, List.cons_subset_cons _ inside⟩

theorem Dominates.trans {above : Nat} (first : graph.Dominates roots above middle)
    (second : graph.Dominates roots middle node) : graph.Dominates roots above node := by
  refine ⟨second.reachable, fun root member nodes path => ?_⟩
  obtain ⟨front, cut, inside⟩ := path.exists_prefix (second.crossed root member nodes path)
  exact inside (first.crossed root member front cut)

theorem Dominates.reachable_dominator {above : Nat}
    (dominates : graph.Dominates roots above node) : graph.Reachable roots above := by
  obtain ⟨root, member, nodes, path⟩ := dominates.reachable
  obtain ⟨front, cut, -⟩ := path.exists_prefix (dominates.crossed root member nodes path)
  exact ⟨root, member, front, cut⟩

theorem dominates_start (reachable : graph.Reachable [start] node) :
    graph.Dominates [start] start node := by
  refine ⟨reachable, fun root member nodes path => ?_⟩
  obtain rfl := List.mem_singleton.mp member
  exact path.start_mem

/-- Two nodes with the same strict dominators have the same closest one. -/
theorem DominatesClosest.congr {dominator : Nat}
    (closest : graph.DominatesClosest roots dominator middle)
    (same : ∀ above, (above ≠ node ∧ graph.Dominates roots above node) ↔
      (above ≠ middle ∧ graph.Dominates roots above middle)) :
    graph.DominatesClosest roots dominator node := by
  obtain ⟨different, dominates⟩ := (same dominator).mpr ⟨closest.different, closest.dominates⟩
  refine ⟨different, dominates, fun other otherDifferent otherDominates => ?_⟩
  obtain ⟨differs, isAbove⟩ := (same other).mp ⟨otherDifferent, otherDominates⟩
  exact closest.closest other differs isAbove

/-! ## The virtual root -/

theorem successors_withVirtualRoot (graph : Adjacency) (roots : List Nat) (node : Nat) :
    (graph.withVirtualRoot roots).successors node =
      if node = graph.size then roots else graph.successors node := by
  simp only [withVirtualRoot, successors, size, Array.getD_eq_getD_getElem?, Array.getElem?_push]
  split <;> rfl

theorem size_withVirtualRoot (graph : Adjacency) (roots : List Nat) :
    (graph.withVirtualRoot roots).size = graph.size + 1 := by
  simp [withVirtualRoot, size]

theorem inRange_withVirtualRoot (inRange : graph.InRange)
    (rootsInRange : ∀ root ∈ roots, root < graph.size) :
    (graph.withVirtualRoot roots).InRange := by
  intro node target edge
  rw [successors_withVirtualRoot] at edge
  rw [size_withVirtualRoot]
  split at edge
  · exact Nat.lt_succ_of_lt (rootsInRange target edge)
  · exact Nat.lt_succ_of_lt (inRange node target edge)

theorem Path.withVirtualRoot (path : graph.Path start nodes finish) (roots : List Nat) :
    (graph.withVirtualRoot roots).Path start nodes finish := by
  induction path with
  | single last => exact .single last
  | @step first next finish rest edge path induction =>
      refine .step ?_ induction
      have inside : first ≠ graph.size := by
        rintro rfl
        simp [successors, size] at edge
      rw [successors_withVirtualRoot, if_neg inside]
      exact edge

private theorem Path.of_withVirtualRoot (inRange : graph.InRange)
    (path : (graph.withVirtualRoot roots).Path start nodes finish) (inside : start ≠ graph.size) :
    graph.Path start nodes finish := by
  induction path with
  | single last => exact .single last
  | @step first next finish rest edge path induction =>
      rw [successors_withVirtualRoot, if_neg inside] at edge
      exact .step edge (induction (Nat.ne_of_lt (inRange first next edge)))

theorem path_from_virtualRoot (inRange : graph.InRange)
    (rootsInRange : ∀ root ∈ roots, root < graph.size) (inside : node ≠ graph.size) :
    (graph.withVirtualRoot roots).Path graph.size nodes node ↔
      ∃ root ∈ roots, ∃ rest, nodes = graph.size :: rest ∧ graph.Path root rest node := by
  constructor
  · intro path
    cases path with
    | single => exact absurd rfl inside
    | @step _ next _ rest edge path =>
        rw [successors_withVirtualRoot, if_pos rfl] at edge
        have further := Nat.ne_of_lt (rootsInRange next edge)
        exact ⟨next, edge, rest, rfl, path.of_withVirtualRoot inRange further⟩
  · rintro ⟨root, member, rest, rfl, path⟩
    refine .step ?_ (path.withVirtualRoot roots)
    rw [successors_withVirtualRoot, if_pos rfl]
    exact member

theorem Path.lt_size (inRange : graph.InRange) (path : graph.Path start nodes finish)
    (inside : start < graph.size) (member : node ∈ nodes) : node < graph.size := by
  induction path with
  | single last => exact List.mem_singleton.mp member ▸ inside
  | step edge path induction =>
      rcases List.mem_cons.mp member with rfl | member
      · exact inside
      · exact induction (inRange _ _ edge) member

/-! ## Paths over allowed nodes -/

/-- A path from `start` to `finish` with allowed nodes only, both ends included. -/
def Leads (graph : Adjacency) (allowed : Nat → Prop) (start finish : Nat) : Prop :=
  ∃ nodes, graph.Path start nodes finish ∧ ∀ node ∈ nodes, allowed node

namespace Leads

variable {allowed : Nat → Prop}

theorem refl (isAllowed : allowed node) : graph.Leads allowed node node :=
  ⟨[node], .single node, fun _ member => List.mem_singleton.mp member ▸ isAllowed⟩

theorem head (edge : middle ∈ graph.successors start) (isAllowed : allowed start)
    (rest : graph.Leads allowed middle finish) : graph.Leads allowed start finish := by
  rcases rest with ⟨nodes, path, all⟩
  refine ⟨start :: nodes, .step edge path, fun node member => ?_⟩
  rcases List.mem_cons.mp member with rfl | member
  · exact isAllowed
  · exact all node member

/-- From the end of a path back to its start. -/
theorem reverseInduction {motive : Nat → Prop} (leads : graph.Leads allowed start finish)
    (last : allowed finish → motive finish)
    (before : ∀ node next, next ∈ graph.successors node → allowed node →
      graph.Leads allowed next finish → motive next → motive node) : motive start := by
  rcases leads with ⟨nodes, path, all⟩
  induction path with
  | single node => exact last (all node List.mem_cons_self)
  | step edge rest induction =>
      have further := fun node member => all node (List.mem_cons_of_mem _ member)
      exact before _ _ edge (all _ List.mem_cons_self) ⟨_, rest, further⟩
        (induction last before further)

theorem start_allowed (leads : graph.Leads allowed start finish) : allowed start := by
  rcases leads with ⟨nodes, path, all⟩
  exact all start path.start_mem

theorem finish_allowed (leads : graph.Leads allowed start finish) : allowed finish := by
  rcases leads with ⟨nodes, path, all⟩
  exact all finish path.finish_mem

theorem mono {wider : Nat → Prop} (leads : graph.Leads allowed start finish)
    (wide : ∀ node, allowed node → wider node) : graph.Leads wider start finish := by
  rcases leads with ⟨nodes, path, all⟩
  exact ⟨nodes, path, fun node member => wide node (all node member)⟩

theorem trans (first : graph.Leads allowed start middle)
    (second : graph.Leads allowed middle finish) : graph.Leads allowed start finish :=
  reverseInduction (motive := fun node => graph.Leads allowed node finish) first
    (fun _ => second) fun _ _ edge isAllowed _ rest => head edge isAllowed rest

/-- An edge out of an allowed node to a node that leads on. -/
theorem snoc (first : graph.Leads allowed start middle) (edge : finish ∈ graph.successors middle)
    (isAllowed : allowed finish) : graph.Leads allowed start finish :=
  first.trans (head edge first.finish_allowed (refl isAllowed))

end Leads

/-! ## Dominance as a path that does not exist -/

theorem reachable_singleton :
    graph.Reachable [start] node ↔ graph.Leads (fun _ => True) start node := by
  constructor
  · rintro ⟨root, member, nodes, path⟩
    obtain rfl := List.mem_singleton.mp member
    exact ⟨nodes, path, fun _ _ => trivial⟩
  · rintro ⟨nodes, path, _⟩
    exact ⟨start, List.mem_cons_self, nodes, path⟩

theorem dominates_singleton {dominator : Nat} :
    graph.Dominates [start] dominator node ↔
      graph.Reachable [start] node ∧ ¬ graph.Leads (· ≠ dominator) start node := by
  constructor
  · rintro ⟨reachable, crossed⟩
    refine ⟨reachable, ?_⟩
    rintro ⟨nodes, path, avoiding⟩
    exact avoiding dominator (crossed start List.mem_cons_self nodes path) rfl
  · rintro ⟨reachable, blocked⟩
    refine ⟨reachable, fun root member nodes path => ?_⟩
    obtain rfl := List.mem_singleton.mp member
    by_contra missing
    exact blocked ⟨nodes, path, fun other member equal => missing (equal ▸ member)⟩

theorem dominates_self (reachable : graph.Reachable roots node) :
    graph.Dominates roots node node :=
  ⟨reachable, fun _ _ _ path => path.finish_mem⟩

section

variable (inRange : graph.InRange) (rootsInRange : ∀ root ∈ roots, root < graph.size)

include inRange rootsInRange

theorem Dominates.lt_size {dominator : Nat} (dominates : graph.Dominates roots dominator node) :
    dominator < graph.size := by
  obtain ⟨root, member, nodes, path⟩ := dominates.reachable
  exact path.lt_size inRange (rootsInRange root member)
    (dominates.crossed root member nodes path)

theorem reachable_withVirtualRoot (inside : node ≠ graph.size) :
    (graph.withVirtualRoot roots).Reachable [graph.size] node ↔ graph.Reachable roots node := by
  simp only [Reachable, List.mem_singleton, exists_eq_left,
    path_from_virtualRoot inRange rootsInRange inside]
  constructor
  · rintro ⟨nodes, root, member, rest, -, path⟩
    exact ⟨root, member, rest, path⟩
  · rintro ⟨root, member, rest, path⟩
    exact ⟨_, root, member, rest, rfl, path⟩

theorem dominates_withVirtualRoot {dominator : Nat} (inside : node ≠ graph.size)
    (different : dominator ≠ graph.size) :
    (graph.withVirtualRoot roots).Dominates [graph.size] dominator node ↔
      graph.Dominates roots dominator node := by
  constructor
  · rintro ⟨reachable, crossed⟩
    refine ⟨(reachable_withVirtualRoot inRange rootsInRange inside).mp reachable,
      fun root member nodes path => ?_⟩
    have rooted := (path_from_virtualRoot inRange rootsInRange inside).mpr
      ⟨root, member, nodes, rfl, path⟩
    exact (List.mem_cons.mp (crossed _ List.mem_cons_self _ rooted)).resolve_left different
  · rintro ⟨reachable, crossed⟩
    refine ⟨(reachable_withVirtualRoot inRange rootsInRange inside).mpr reachable,
      fun top isTop nodes path => ?_⟩
    obtain rfl := List.mem_singleton.mp isTop
    obtain ⟨root, member, rest, rfl, below⟩ :=
      (path_from_virtualRoot inRange rootsInRange inside).mp path
    exact List.mem_cons_of_mem _ (crossed root member rest below)

/-- Under the virtual root the same node is the closest dominator, as long as it is a real one. -/
theorem closest_withVirtualRoot {dominator : Nat} (inside : node ≠ graph.size)
    (different : dominator ≠ graph.size) :
    (graph.withVirtualRoot roots).DominatesClosest [graph.size] dominator node ↔
      graph.DominatesClosest roots dominator node := by
  have translate : ∀ {dominator node}, node ≠ graph.size → dominator ≠ graph.size →
      ((graph.withVirtualRoot roots).Dominates [graph.size] dominator node ↔
        graph.Dominates roots dominator node) :=
    dominates_withVirtualRoot inRange rootsInRange
  constructor
  · rintro ⟨differs, dominates, closest⟩
    refine ⟨differs, (translate inside different).mp dominates, fun other apart above => ?_⟩
    have real := Nat.ne_of_lt (above.lt_size inRange rootsInRange)
    exact (translate different real).mp (closest other apart ((translate inside real).mpr above))
  · rintro ⟨differs, dominates, closest⟩
    have rooted := (translate inside different).mpr dominates
    refine ⟨differs, rooted, fun other apart above => ?_⟩
    by_cases real : other = graph.size
    · rw [real]
      exact dominates_start rooted.reachable_dominator
    · exact (translate different real).mpr (closest other apart ((translate inside real).mp above))

end

end Adjacency

end SlotVersioning
