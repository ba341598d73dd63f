import SlotVersioning.Proofs.Dominance.Backward
import SlotVersioning.Proofs.Graph.Built

/-!
# Joint dominance

Versions dominate another one jointly when every way from a root to it runs through one of them.
Whether a single version does so is read off the dominators, which know the nodes that were there
when they were computed, and the first one after these, which stands where they have their virtual
root. Whether any other number of versions does so is found out by walking backwards. Both answer
the question for versions that a root leads to; for others they follow different conventions
(`Surveyed.jointly_iff`).
-/

namespace SlotVersioning

open Std

/-! ## Any node of a dominator tree -/

namespace DominatorTree

variable {graph : Adjacency} {roots : List Nat} {node dominator : Nat}

section

variable (inRange : graph.InRange) (rootsInRange : ∀ root ∈ roots, root < graph.size)

include inRange rootsInRange

theorem size_compute : (compute graph roots).immediate.size = graph.size + 1 := by
  have search := depthFirst_rooted inRange rootsInRange
  have sized := (Semidominance.settled_foldl search (Semidominance.swept_sweep search)).sized
  rw [compute, Array.size_setIfInBounds, sized, search.sized, Adjacency.size_withVirtualRoot]

/-- A node of the graph is dominated by the nodes that all paths from a root run through. -/
private theorem dominates_inside (inside : node < graph.size) :
    (compute graph roots).dominates dominator node = true ↔
      graph.Dominates roots dominator node := by
  have enough : (Numbering.ofSearch (graph.withVirtualRoot roots) graph.size).number node ≤
      (compute graph roots).immediate.size := by
    have search := depthFirst_rooted inRange rootsInRange
    rw [size_compute inRange rootsInRange, ← Adjacency.size_withVirtualRoot graph roots,
      ← search.sized]
    exact search.number_le_size node
  unfold dominates
  rw [Bool.and_eq_true, Bool.or_eq_true, beq_iff_eq,
    isReachable_compute inRange rootsInRange inside,
    isAbove_compute inRange rootsInRange _ node inside enough]
  constructor
  · rintro ⟨reachable, rfl | ⟨-, dominates⟩⟩
    · exact Adjacency.dominates_self reachable
    · exact dominates
  · exact fun dominates => ⟨dominates.reachable, or_iff_not_imp_left.2 fun different =>
      ⟨different, dominates⟩⟩

/-- Outside of the graph only the virtual root is dominated, and only by itself. -/
private theorem dominates_outside (outside : graph.size ≤ node) :
    (compute graph roots).dominates dominator node = true ↔
      node = graph.size ∧ dominator = node := by
  have sized := size_compute inRange rootsInRange
  unfold dominates isReachable
  rw [Array.getD_eq_getD_getElem?]
  rcases Nat.eq_or_lt_of_le outside with rfl | further
  · have stored : (compute graph roots).immediate[graph.size]? = some (some graph.size) := by
      rw [compute, Array.getElem?_setIfInBounds_self_of_lt]
      rw [compute, Array.size_setIfInBounds] at sized
      omega
    have top : (compute graph roots).immediate? graph.size = none := by
      unfold immediate?
      rw [Array.getD_eq_getD_getElem?, stored]
      exact Option.filter_some_neg (by simp [compute])
    have alone (fuel : Nat) : (compute graph roots).isAbove dominator fuel graph.size = false := by
      cases fuel with
      | zero => rfl
      | succ fuel => rw [isAbove, top]
    rw [stored, alone]
    simp
  · rw [Array.getElem?_eq_none (by omega)]
    simp [Nat.ne_of_gt further]

end

end DominatorTree

namespace VersionGraph

variable {graph base : VersionGraph}

/-! ## Nodes without predecessors -/

private theorem Consistent.path_alone (consistent : graph.Consistent) {start finish : Nat}
    {nodes : List Nat} (path : graph.adjacency.Path start nodes finish)
    (alone : graph.predecessorsAt finish = []) : start = finish ∧ nodes = [finish] := by
  induction path with
  | single node => exact ⟨rfl, rfl⟩
  | @step node next finish nodes edge rest induction =>
      rw [(induction alone).1, successors_adjacency, consistent.linked, alone] at edge
      exact nomatch edge

/-- A node without predecessors is dominated by itself only. -/
private theorem Consistent.dominates_alone (consistent : graph.Consistent) {node above : Nat}
    (inside : node < graph.size) (alone : graph.predecessorsAt node = []) :
    graph.adjacency.Dominates graph.rootPositions above node ↔ above = node := by
  have isRoot := mem_rootPositions.2 ⟨inside, alone⟩
  constructor
  · intro dominates
    exact List.mem_singleton.1 (dominates.crossed node isRoot [node] (.single node))
  · rintro rfl
    refine ⟨⟨above, isRoot, [above], .single above⟩, fun root _ nodes path => ?_⟩
    rw [(consistent.path_alone path alone).2]
    exact List.mem_singleton_self above

/-! ## Nodes that were added -/

namespace Widens

variable (wider : Widens base graph)

include wider

private theorem path_iff {start finish : Nat} {nodes : List Nat} :
    base.adjacency.Path start nodes finish ↔ graph.adjacency.Path start nodes finish := by
  have same (node : Nat) : graph.adjacency.successors node = base.adjacency.successors node := by
    rw [successors_adjacency, successors_adjacency, wider.successors]
  constructor
  · intro path
    induction path with
    | single node => exact .single node
    | step edge rest induction => exact .step (same _ ▸ edge) induction
  · intro path
    induction path with
    | single node => exact .single node
    | step edge rest induction => exact .step (same _ ▸ edge) induction

/-- A path to a node that was there starts at a root that was there. -/
private theorem root_iff {start finish : Nat} {nodes : List Nat}
    (path : base.adjacency.Path start nodes finish) (inside : finish < base.size) :
    start ∈ base.rootPositions ↔ start ∈ graph.rootPositions := by
  have known : start < base.size := by
    cases path with
    | single => exact inside
    | step edge rest => exact size_adjacency base ▸ Adjacency.lt_size_of_edge edge
  rw [mem_rootPositions, mem_rootPositions, wider.predecessors]
  exact and_congr_left fun _ =>
    iff_of_true known (Nat.lt_of_lt_of_le known wider.size)

/-- Nodes that were there are dominated as they were. -/
private theorem dominates_iff {node above : Nat} (inside : node < base.size) :
    base.adjacency.Dominates base.rootPositions above node ↔
      graph.adjacency.Dominates graph.rootPositions above node := by
  constructor
  · rintro ⟨⟨root, isRoot, nodes, path⟩, crossed⟩
    refine ⟨⟨root, (wider.root_iff path inside).1 isRoot, nodes, wider.path_iff.1 path⟩,
      fun other isOther nodes path => ?_⟩
    have before := wider.path_iff.2 path
    exact crossed other ((wider.root_iff before inside).2 isOther) nodes before
  · rintro ⟨⟨root, isRoot, nodes, path⟩, crossed⟩
    have before := wider.path_iff.2 path
    refine ⟨⟨root, (wider.root_iff before inside).2 isRoot, nodes, before⟩,
      fun other isOther nodes path => ?_⟩
    exact crossed other ((wider.root_iff path inside).1 isOther) nodes (wider.path_iff.1 path)

end Widens

/-- What the dominators of a surveyed graph tell about any node. -/
private theorem Surveyed.tree_iff {count : Nat} (surveyed : Surveyed count graph) :
    ∃ tree, graph.dominators = some tree ∧ ∀ node < graph.size, ∀ above,
      tree.dominates above node = true ↔
        node ≤ count ∧ graph.adjacency.Dominates graph.rootPositions above node := by
  rcases surveyed.widens with ⟨base, consistent, rfl, dominated, wider⟩
  refine ⟨_, wider.dominators.trans dominated, fun node inside above => ?_⟩
  have inRange := consistent.inRange_adjacency
  have sized := size_adjacency base
  rcases Nat.lt_or_ge node base.size with before | later
  · rw [DominatorTree.dominates_inside inRange base.rootPositions_inRange (sized.symm ▸ before),
      wider.dominates_iff before]
    exact (and_iff_right (Nat.le_of_lt before)).symm
  · have alone : graph.predecessorsAt node = [] := by
      rw [wider.predecessors]
      unfold predecessorsAt
      rw [Array.getElem?_eq_none later]
      rfl
    rw [DominatorTree.dominates_outside inRange base.rootPositions_inRange (sized.symm ▸ later),
      surveyed.consistent.dominates_alone inside alone, sized]
    exact and_congr_left fun _ => ⟨Nat.le_of_eq, fun least => Nat.le_antisymm least later⟩

/-! ## Ways -/

/-- The versions along the edges from one to another, both included. -/
inductive Way (graph : VersionGraph) : VersionKey → List VersionKey → VersionKey → Prop
  | single (key : VersionKey) : Way graph key [key] key
  | step {key next finish : VersionKey} {keys : List VersionKey}
      (edge : next ∈ graph.successors key) (rest : Way graph next keys finish) :
      Way graph key (key :: keys) finish

/-- A root leads to the version. -/
def Rooted (graph : VersionGraph) (key : VersionKey) : Prop :=
  ∃ root ∈ graph.roots, ∃ keys, graph.Way root keys key

/-- Every way from a root to the version runs through one of the others. -/
def JointlyDominated (graph : VersionGraph) (key : VersionKey)
    (dominators : ExtTreeSet VersionKey) : Prop :=
  ∀ root ∈ graph.roots, ∀ keys, graph.Way root keys key → ∃ crossed ∈ keys, crossed ∈ dominators

private theorem Way.finish_mem {start finish : VersionKey} {keys : List VersionKey}
    (way : graph.Way start keys finish) : finish ∈ keys := by
  induction way with
  | single key => exact List.mem_singleton_self key
  | step edge rest induction => exact List.mem_cons_of_mem _ induction

namespace JointlyDominated

variable {key : VersionKey} {dominators more : ExtTreeSet VersionKey}

theorem of_mem (member : key ∈ dominators) : graph.JointlyDominated key dominators :=
  fun _ _ _ way => ⟨key, way.finish_mem, member⟩

theorem mono (dominated : graph.JointlyDominated key dominators)
    (subset : ∀ other ∈ dominators, other ∈ more) : graph.JointlyDominated key more := by
  intro root isRoot keys way
  rcases dominated root isRoot keys way with ⟨crossed, member, inside⟩
  exact ⟨crossed, member, subset crossed inside⟩

end JointlyDominated

namespace Consistent

variable {key source target : VersionKey} {created origin : VersionOrigin}
  {position start finish : Nat} {dominators : ExtTreeSet VersionKey}
  (consistent : graph.Consistent)

include consistent

/-- Ways are the paths over the positions of their nodes. -/
theorem way_iff_path {keys : List VersionKey}
    (atStart : graph.identity? start = some (source, created))
    (atFinish : graph.identity? finish = some (target, origin)) :
    graph.Way source keys target ↔
      ∃ nodes, graph.adjacency.Path start nodes finish ∧ graph.keysAt nodes = keys := by
  constructor
  · intro way
    induction way generalizing start created with
    | single key =>
        have same := (consistent.key_eq_iff atStart atFinish).1 rfl
        subst same
        exact ⟨[start], .single start, keysAt_cons atStart []⟩
    | @step key next _ keys edge rest induction =>
        rw [(consistent.listed_at atStart).2.1, mem_keysAt] at edge
        rcases edge with ⟨place, edge, named⟩
        rcases Option.map_eq_some_iff.1 named with ⟨⟨_, kind⟩, atNext, rfl⟩
        rcases induction atNext atFinish with ⟨nodes, path, listed⟩
        refine ⟨start :: nodes, .step ?_ path, ?_⟩
        · rw [successors_adjacency]
          exact edge
        · rw [keysAt_cons atStart, listed]
  · rintro ⟨nodes, path, rfl⟩
    induction path generalizing source created with
    | single node =>
        have same := (consistent.key_eq_iff atStart atFinish).2 rfl
        subst same
        rw [keysAt_cons atStart]
        exact .single source
    | @step node next finish nodes edge rest induction =>
        rw [successors_adjacency] at edge
        rcases consistent.known_successor edge with ⟨⟨middle, kind⟩, atNext⟩
        rw [keysAt_cons atStart]
        refine .step ?_ (induction atNext atFinish)
        rw [(consistent.listed_at atStart).2.1, mem_keysAt]
        exact ⟨next, edge, by rw [atNext]; rfl⟩

variable (found : graph.identity? position = some (key, origin))

include found

private theorem rooted_iff :
    graph.Rooted key ↔ graph.adjacency.Reachable graph.rootPositions position := by
  constructor
  · rintro ⟨root, isRoot, keys, way⟩
    rcases mem_roots.1 isRoot with ⟨start, created, atStart, alone⟩
    rcases (consistent.way_iff_path atStart found).1 way with ⟨nodes, path, -⟩
    exact ⟨start, mem_rootPositions.2 ⟨lt_size_of_identity atStart, alone⟩, nodes, path⟩
  · rintro ⟨start, isRoot, nodes, path⟩
    rcases mem_rootPositions.1 isRoot with ⟨inside, alone⟩
    rcases exists_identity inside with ⟨⟨root, created⟩, atStart⟩
    exact ⟨root, mem_roots.2 ⟨start, created, atStart, alone⟩, _,
      (consistent.way_iff_path atStart found).2 ⟨nodes, path, rfl⟩⟩

theorem jointlyDominated_iff :
    graph.JointlyDominated key dominators ↔ ∀ start ∈ graph.rootPositions, ∀ nodes,
      graph.adjacency.Path start nodes position →
        ∃ node ∈ nodes, graph.barredAt dominators node = true := by
  have barred (nodes : List Nat) : (∃ crossed ∈ graph.keysAt nodes, crossed ∈ dominators) ↔
      ∃ node ∈ nodes, graph.barredAt dominators node = true := by
    unfold barredAt keysAt
    simp only [List.any_eq_true, List.mem_filterMap, List.mem_singleton, exists_eq_left,
      ExtTreeSet.contains_iff_mem]
    constructor
    · rintro ⟨crossed, ⟨node, member, named⟩, inside⟩
      exact ⟨node, member, crossed, named, inside⟩
    · rintro ⟨node, member, crossed, named, inside⟩
      exact ⟨crossed, ⟨node, member, named⟩, inside⟩
  constructor
  · intro dominated start isRoot nodes path
    rcases mem_rootPositions.1 isRoot with ⟨inside, alone⟩
    rcases exists_identity inside with ⟨⟨root, created⟩, atStart⟩
    exact (barred nodes).1 (dominated root (mem_roots.2 ⟨start, created, atStart, alone⟩) _
      ((consistent.way_iff_path atStart found).2 ⟨nodes, path, rfl⟩))
  · intro crossed root isRoot keys way
    rcases mem_roots.1 isRoot with ⟨start, created, atStart, alone⟩
    rcases (consistent.way_iff_path atStart found).1 way with ⟨nodes, path, rfl⟩
    exact (barred nodes).2 (crossed start
      (mem_rootPositions.2 ⟨lt_size_of_identity atStart, alone⟩) nodes path)

/-- The walk from a free version fails when the others dominate it jointly. -/
private theorem escapes_eq_false_iff (free : key ∉ dominators) :
    graph.escapes dominators (graph.edgeCount + 2) [position] ∅ = false ↔
      graph.JointlyDominated key dominators := by
  have freeAt : graph.barredAt dominators position = false := by
    rw [barredAt_eq found]
    exact Bool.eq_false_iff.2 fun inside => free (ExtTreeSet.contains_iff_mem.1 inside)
  rw [← Bool.not_eq_true, escapes_start,
    consistent.escape_iff_leads (lt_size_of_identity found) freeAt,
    consistent.jointlyDominated_iff found]
  constructor
  · intro blocked start isRoot nodes path
    by_contra avoiding
    exact blocked ⟨start, isRoot, nodes, path, fun node member =>
      Bool.eq_false_iff.2 fun isBarred => avoiding ⟨node, member, isBarred⟩⟩
  · rintro crossed ⟨start, isRoot, nodes, path, all⟩
    rcases crossed start isRoot nodes path with ⟨node, member, isBarred⟩
    exact nomatch (all node member).symm.trans isBarred

/-- One version dominates another in the sense of paths when it does so jointly with no others. -/
private theorem dominates_iff_jointly {above : Nat} {dominator : VersionKey}
    (atAbove : graph.identity? above = some (dominator, created))
    (only : ∀ other, other ∈ dominators ↔ other = dominator) :
    graph.adjacency.Dominates graph.rootPositions above position ↔
      graph.JointlyDominated key dominators ∧ graph.Rooted key := by
  have barred {start node : Nat} {nodes : List Nat} (isRoot : start ∈ graph.rootPositions)
      (path : graph.adjacency.Path start nodes position) (member : node ∈ nodes) :
      graph.barredAt dominators node = true ↔ node = above := by
    have inside := path.lt_size consistent.inRange_adjacency
      (graph.rootPositions_inRange start isRoot) member
    rw [size_adjacency] at inside
    rcases exists_identity inside with ⟨⟨other, kind⟩, atNode⟩
    rw [barredAt_eq atNode, ExtTreeSet.contains_iff_mem, only, consistent.key_eq_iff atNode atAbove]
  rw [consistent.jointlyDominated_iff found, consistent.rooted_iff found]
  constructor
  · rintro ⟨reachable, crossed⟩
    refine ⟨fun start isRoot nodes path => ?_, reachable⟩
    have member := crossed start isRoot nodes path
    exact ⟨above, member, (barred isRoot path member).2 rfl⟩
  · rintro ⟨crossed, reachable⟩
    refine ⟨reachable, fun start isRoot nodes path => ?_⟩
    rcases crossed start isRoot nodes path with ⟨node, member, isBarred⟩
    exact (barred isRoot path member).1 isBarred ▸ member

end Consistent

/-! ## Answers -/

section

variable {count position : Nat} {key : VersionKey}

theorem mem_of_toList_eq {dominators : ExtTreeSet VersionKey} {dominator : VersionKey}
    (listed : dominators.toList = [dominator]) (other : VersionKey) :
    other ∈ dominators ↔ other = dominator := by
  rw [← ExtTreeSet.mem_toList, listed, List.mem_singleton]

private theorem Consistent.not_jointlyDominated (consistent : graph.Consistent)
    (known : graph.position? key = some position) (rooted : graph.Rooted key)
    {dominators : ExtTreeSet VersionKey}
    (unknown : ∀ other ∈ dominators, graph.position? other = none) :
    ¬ graph.JointlyDominated key dominators := by
  intro dominated
  rcases rooted with ⟨root, isRoot, keys, way⟩
  rcases dominated root isRoot keys way with ⟨crossed, member, inside⟩
  rcases mem_roots.1 isRoot with ⟨start, created, atStart, -⟩
  rcases consistent.placed key position known with ⟨origin, found⟩
  rcases (consistent.way_iff_path atStart found).1 way with ⟨nodes, -, rfl⟩
  rcases mem_keysAt.1 member with ⟨node, -, named⟩
  rcases Option.map_eq_some_iff.1 named with ⟨⟨_, kind⟩, atNode, rfl⟩
  exact nomatch (unknown _ inside).symm.trans (consistent.indexed node _ kind atNode)

namespace Surveyed

variable (surveyed : Surveyed count graph) (known : graph.position? key = some position)

include surveyed known

/-- By the dominators one version dominates another when it does so jointly with no others, and the
dominators know the other one and a root that leads to it. -/
theorem dominates_ok {dominators : ExtTreeSet VersionKey} {dominator : VersionKey}
    (only : ∀ other, other ∈ dominators ↔ other = dominator) :
    ∃ answer, graph.dominates key dominator = .ok answer ∧ (answer = true ↔
      graph.JointlyDominated key dominators ∧ position ≤ count ∧ graph.Rooted key) := by
  have consistent := surveyed.consistent
  rcases consistent.placed key position known with ⟨origin, found⟩
  rcases surveyed.tree_iff with ⟨tree, computed, dominates⟩
  unfold VersionGraph.dominates
  rw [computed, known]
  cases there : graph.position? dominator with
  | none =>
      refine ⟨false, rfl, iff_of_false Bool.false_ne_true ?_⟩
      rintro ⟨dominated, -, rooted⟩
      refine consistent.not_jointlyDominated known rooted (fun other member => ?_) dominated
      rw [(only other).1 member]
      exact there
  | some above =>
      rcases consistent.placed dominator above there with ⟨created, atAbove⟩
      refine ⟨tree.dominates above position, rfl, ?_⟩
      rw [dominates position (lt_size_of_identity found),
        consistent.dominates_iff_jointly found atAbove only]
      exact and_left_comm

/-- Walking backwards, or being one of them, decides whether versions dominate another jointly. -/
theorem walk_iff (dominators : ExtTreeSet VersionKey) :
    (dominators.contains key ||
        !graph.escapes dominators (graph.edgeCount + 2) [position] ∅) = true ↔
      graph.JointlyDominated key dominators := by
  rcases surveyed.consistent.placed key position known with ⟨origin, found⟩
  rw [Bool.or_eq_true, ExtTreeSet.contains_iff_mem, Bool.not_eq_true']
  by_cases member : key ∈ dominators
  · exact iff_of_true (.inl member) (.of_mem member)
  · rw [surveyed.consistent.escapes_eq_false_iff found member]
    exact or_iff_right member

/-- The answers of a surveyed graph. -/
theorem jointly_iff (dominators : ExtTreeSet VersionKey) :
    ∃ answer, graph.dominatesJointly key dominators = .ok answer ∧ (answer = true ↔
      graph.JointlyDominated key dominators ∧
        (dominators.size = 1 → position ≤ count ∧ graph.Rooted key)) := by
  have sized := dominators.length_toList
  unfold dominatesJointly
  split
  · next dominator listed =>
      rw [listed, List.length_singleton] at sized
      rcases surveyed.dominates_ok known (mem_of_toList_eq listed) with ⟨answer, done, means⟩
      rw [forall_prop_of_true sized.symm]
      exact ⟨answer, done, means⟩
  · next several =>
      have notSingle : dominators.size ≠ 1 := by
        rw [← sized]
        intro single
        rcases List.length_eq_one_iff.1 single with ⟨dominator, listed⟩
        exact several dominator listed
      have walked := surveyed.walk_iff known dominators
      rw [known]
      simp only [notSingle, false_implies, and_true, ← walked]
      split
      · next member => exact ⟨true, rfl, by rw [member]; rfl⟩
      · next free => exact ⟨_, rfl, by rw [Bool.eq_false_iff.2 free, Bool.false_or]⟩

/-- A version that a root leads to is dominated jointly just when every way to it runs through one
of the others. The exception are nodes that were added after the survey, but for the first of
these: no single version dominates them. Otherwise walking backwards answers for a single version
as well. -/
theorem dominatesJointly_of_rooted (rooted : graph.Rooted key)
    (dominators : ExtTreeSet VersionKey) :
    (∃ answer, graph.dominatesJointly key dominators = .ok answer ∧ (answer = true ↔
      graph.JointlyDominated key dominators ∧ (dominators.size = 1 → position ≤ count))) ∧
    (∀ dominator, (∀ other, other ∈ dominators ↔ other = dominator) → position ≤ count →
      graph.dominates key dominator = .ok (dominators.contains key ||
        !graph.escapes dominators (graph.edgeCount + 2) [position] ∅)) := by
  constructor
  · rcases surveyed.jointly_iff known dominators with ⟨answer, done, means⟩
    refine ⟨answer, done, means.trans (and_congr_right fun _ => ?_)⟩
    exact imp_congr_right fun _ => and_iff_left rooted
  · intro dominator only early
    rcases surveyed.dominates_ok known only with ⟨answer, done, means⟩
    rw [done]
    congr 1
    rw [Bool.eq_iff_iff, means, surveyed.walk_iff known]
    exact and_iff_left ⟨early, rooted⟩

end Surveyed

/-- Two branches that join in a version, which leads back to one of them. -/
def looping : VersionGraph :=
  let branches := (({} : VersionGraph).ensure ⟨0, 1⟩ .definition).1.ensure ⟨0, 2⟩ .definition
  let nodes := (branches.1.ensure ⟨0, 3⟩ .definition).1.ensure ⟨0, 4⟩ .use
  ((((nodes.1.link 0 1).link 0 2).link 1 3).link 2 3).link 3 1

theorem surveyed_looping : Surveyed looping.size looping.computeDominators := by
  have nodes := (((Built.empty.ensure ⟨0, 1⟩ .definition none).ensure ⟨0, 2⟩ .definition
    none).ensure ⟨0, 3⟩ .definition none).ensure ⟨0, 4⟩ .use none
  refine .computeDominators (.link (.link (.link (.link (.link nodes ?_ ?_) ?_ ?_) ?_ ?_) ?_ ?_)
    ?_ ?_) <;> decide

theorem dominatesJointly_of_rooted_looping :
    looping.computeDominators.JointlyDominated ⟨0, 4⟩ {⟨0, 2⟩, ⟨0, 3⟩} ∧
      ¬ looping.computeDominators.JointlyDominated ⟨0, 4⟩ {⟨0, 2⟩} := by
  have known : looping.computeDominators.position? ⟨0, 4⟩ = some 3 := by decide
  have rooted : looping.computeDominators.Rooted ⟨0, 4⟩ := by
    refine ⟨⟨0, 1⟩, by decide, _, .step (?_ : ⟨0, 2⟩ ∈ _) (.step ?_ (.single _))⟩ <;>
      decide
  have both : looping.computeDominators.dominatesJointly ⟨0, 4⟩ {⟨0, 2⟩, ⟨0, 3⟩} = .ok true := by
    decide
  have one : looping.computeDominators.dominatesJointly ⟨0, 4⟩ {⟨0, 2⟩} = .ok false := by
    decide +kernel
  rcases (surveyed_looping.dominatesJointly_of_rooted known rooted {⟨0, 2⟩, ⟨0, 3⟩}).1 with
    ⟨answer, answers, means⟩
  rcases (surveyed_looping.dominatesJointly_of_rooted known rooted {⟨0, 2⟩}).1 with
    ⟨other, otherAnswers, otherMeans⟩
  cases both.symm.trans answers
  cases one.symm.trans otherAnswers
  exact ⟨(means.1 rfl).1, fun dominated => nomatch otherMeans.2 ⟨dominated, fun _ => by decide⟩⟩

/-- Two nodes that were added after the survey of another one. -/
def addedLate : VersionGraph :=
  (((({} : VersionGraph).ensure ⟨0, 1⟩ .definition).1.computeDominators.ensure
    ⟨0, 2⟩ .definition).1.ensure ⟨0, 3⟩ .definition).1

/-- The second one is not even dominated by itself. -/
theorem not_dominatesJointly_addedLate :
    Surveyed 1 addedLate ∧ addedLate.Rooted ⟨0, 3⟩ ∧
      addedLate.JointlyDominated ⟨0, 3⟩ {⟨0, 3⟩} ∧
      addedLate.dominatesJointly ⟨0, 3⟩ {⟨0, 3⟩} = .ok false := by
  refine ⟨?_, ⟨⟨0, 3⟩, by decide, _, .single _⟩, .of_mem (by decide),
    by decide +kernel⟩
  exact ((Surveyed.computeDominators (Built.empty.ensure ⟨0, 1⟩ .definition none)).ensure
    ⟨0, 2⟩ .definition none).ensure ⟨0, 3⟩ .definition none

/-! ## More dominators -/

/-- More versions dominate what fewer do. The exception is a version that no root leads to, which
no versions at all dominate jointly, though no single one does. -/
theorem Surveyed.dominatesJointly_mono (surveyed : Surveyed count graph)
    (known : graph.position? key = some position) {fewer more : ExtTreeSet VersionKey}
    (subset : ∀ other ∈ fewer, other ∈ more)
    (dominated : graph.dominatesJointly key fewer = .ok true) :
    graph.dominatesJointly key more = .ok true ∨
      (fewer = ∅ ∧ more.size = 1 ∧ ¬ graph.Rooted key ∧
        graph.dominatesJointly key more = .ok false) := by
  rcases surveyed.jointly_iff known fewer with ⟨_, answered, before⟩
  rcases surveyed.jointly_iff known more with ⟨answer, answers, after⟩
  cases dominated.symm.trans answered
  have jointly := (before.1 rfl).1
  rw [answers]
  cases answer with
  | true => exact .inl rfl
  | false =>
      -- Only the convention for single versions can be what fails.
      have fails : ¬ (more.size = 1 → position ≤ count ∧ graph.Rooted key) :=
        fun convention => nomatch after.2 ⟨jointly.mono subset, convention⟩
      rcases Classical.not_imp.1 fails with ⟨single, -⟩
      rw [← more.length_toList] at single
      rcases List.length_eq_one_iff.1 single with ⟨dominator, listed⟩
      have only := mem_of_toList_eq listed
      have empty : fewer = ∅ := by
        refine ExtTreeSet.ext_mem fun other => iff_of_false (fun member => ?_)
          ExtTreeSet.not_mem_empty
        have same : fewer = more := by
          refine ExtTreeSet.ext_mem fun another => ⟨subset another, fun inside => ?_⟩
          rw [(only another).1 inside, ← (only other).1 (subset other member)]
          exact member
        rw [same, answers] at dominated
        exact nomatch dominated
      refine .inr ⟨empty, more.length_toList ▸ single, ?_, rfl⟩
      rintro ⟨root, isRoot, keys, way⟩
      rcases jointly root isRoot keys way with ⟨crossed, -, inside⟩
      rw [empty] at inside
      exact ExtTreeSet.not_mem_empty inside

theorem dominatesJointly_mono_looping :
    looping.computeDominators.dominatesJointly ⟨0, 4⟩ {⟨0, 1⟩} = .ok true ∧
      looping.computeDominators.dominatesJointly ⟨0, 4⟩ {⟨0, 1⟩, ⟨0, 2⟩} = .ok true := by
  have known : looping.computeDominators.position? ⟨0, 4⟩ = some 3 := by decide
  have one : looping.computeDominators.dominatesJointly ⟨0, 4⟩ {⟨0, 1⟩} = .ok true := by
    decide +kernel
  refine ⟨one, (surveyed_looping.dominatesJointly_mono known (fun other member => ?_)
    one).resolve_right fun exception => ?_⟩
  · rw [(mem_of_toList_eq rfl other).1 member]
    decide
  · exact absurd exception.2.1 (by decide)

/-- A version that leads to itself only. -/
def unrooted : VersionGraph :=
  (({} : VersionGraph).ensure ⟨0, 1⟩ .definition).1.link 0 0

theorem not_dominatesJointly_mono_unrooted :
    Surveyed unrooted.size unrooted.computeDominators ∧
      unrooted.computeDominators.dominatesJointly ⟨0, 1⟩ ∅ = .ok true ∧
      unrooted.computeDominators.dominatesJointly ⟨0, 1⟩ {⟨0, 1⟩} = .ok false := by
  refine ⟨.computeDominators (.link (Built.empty.ensure ⟨0, 1⟩ .definition none) ?_ ?_), ?_, ?_⟩ <;>
    decide +kernel

end

end VersionGraph

end SlotVersioning
