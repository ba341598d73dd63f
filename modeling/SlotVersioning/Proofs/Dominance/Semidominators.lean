import Mathlib.Data.Nat.Find
import SlotVersioning.Proofs.Dominance.Search

/-!
# Semidominators and dominators

A node is a candidate for the semidominator of another one when a path leads from the first to the
second whose other nodes have numbers no smaller than the second's. The semidominator is the
candidate of least number. When no node between it and the node has a smaller semidominator, it is
the closest dominator; otherwise the node shares its closest dominator with the one among them
whose semidominator is least.
-/

namespace SlotVersioning

namespace Numbering

/-- A path from `start` to `node` on which no number is smaller than that of `node`. -/
def Sinks (graph : Adjacency) (numbering : Numbering) (start node : Nat) : Prop :=
  graph.Leads (fun other => numbering.number node ≤ numbering.number other) start node

/-- After an edge out of `source`, a path sinks to `node`. -/
def Candidate (graph : Adjacency) (numbering : Numbering) (source node : Nat) : Prop :=
  0 < numbering.number source ∧ ∃ next ∈ graph.successors source, Sinks graph numbering next node

structure IsSemidominator (graph : Adjacency) (numbering : Numbering) (semidominator node : Nat) :
    Prop where
  candidate : Candidate graph numbering semidominator node
  least : ∀ other, Candidate graph numbering other node →
    numbering.number semidominator ≤ numbering.number other

/-- `middle` is on the tree path from `above`, which is left out, to `node`. -/
structure Between (numbering : Numbering) (above node middle : Nat) : Prop where
  after : numbering.number above < numbering.number middle
  onPath : numbering.Ancestor middle node

theorem Sinks.refl {graph : Adjacency} {numbering : Numbering} (node : Nat) :
    Sinks graph numbering node node :=
  Adjacency.Leads.refl (Nat.le_refl _)

theorem Candidate.of_edge {graph : Adjacency} {numbering : Numbering} {source node : Nat}
    (positive : 0 < numbering.number source) (edge : node ∈ graph.successors source) :
    Candidate graph numbering source node :=
  ⟨positive, node, edge, .refl node⟩

namespace DepthFirst

variable {graph : Adjacency} {entry : Nat} {numbering : Numbering}
variable (search : DepthFirst graph entry numbering)
variable {above below source middle node other parent : Nat}

/-! ## Numbers along the tree -/

include search

theorem number_injective (positive : 0 < numbering.number node)
    (equal : numbering.number node = numbering.number other) : node = other := by
  obtain ⟨index, found⟩ := Nat.exists_eq_add_of_lt positive
  rw [Nat.zero_add] at found
  have first := (search.order index node).mpr found
  have second := (search.order index other).mpr (equal ▸ found)
  exact Option.some.inj (first.symm.trans second)

theorem number_le_count (node : Nat) : numbering.number node ≤ numbering.count := by
  cases equal : numbering.number node with
  | zero => exact Nat.zero_le _
  | succ index => exact (Array.getElem?_eq_some_iff.mp ((search.order index node).mpr equal)).1

theorem number_le_size (node : Nat) : numbering.number node ≤ numbering.numbers.size :=
  Nat.le_trans (search.number_le_count node) (count_le_size search.order)

theorem number_le_of_ancestor (ancestor : numbering.Ancestor above node) :
    numbering.number above ≤ numbering.number node := by
  induction ancestor with
  | refl => exact Nat.le_refl _
  | up isParent rest induction =>
      have lower := (search.parent _ _ isParent).2.1
      omega

private theorem reached_of_ancestor (ancestor : numbering.Ancestor above node)
    (reached : 0 < numbering.number node) : 0 < numbering.number above := by
  induction ancestor with
  | refl => exact reached
  | up isParent rest induction => exact induction (search.parent _ _ isParent).1

theorem number_lt_of_ancestor (ancestor : numbering.Ancestor above node)
    (different : above ≠ node) : numbering.number above < numbering.number node := by
  rcases ancestor.cases_parent with same | ⟨parent, isParent, rest⟩
  · exact absurd same different
  · have lower := (search.parent _ _ isParent).2.1
    have le := search.number_le_of_ancestor rest
    omega

/-- The ancestors of one node are ordered like their numbers. -/
theorem ancestor_of_le (first : numbering.Ancestor above node)
    (second : numbering.Ancestor middle node) (positive : 0 < numbering.number above)
    (ordered : numbering.number above ≤ numbering.number middle) :
    numbering.Ancestor above middle :=
  search.interval above middle node first positive ordered (search.number_le_of_ancestor second)

/-- The path over parents. -/
theorem leads_of_ancestor (ancestor : numbering.Ancestor above node) :
    graph.Leads (fun other => numbering.Ancestor above other ∧ numbering.Ancestor other node)
      above node := by
  induction ancestor with
  | refl => exact .refl ⟨.refl, .refl⟩
  | up isParent rest induction =>
      have edge := (search.parent _ _ isParent).2.2
      refine (induction.mono fun other between => ?_).snoc edge ⟨.up isParent rest, .refl⟩
      exact ⟨between.1, between.2.trans (.up isParent .refl)⟩

theorem entry_ancestor (reached : 0 < numbering.number node) : numbering.Ancestor entry node := by
  induction size : numbering.number node using Nat.strongRecOn generalizing node with
  | ind count induction =>
      rcases Nat.lt_or_ge 1 (numbering.number node) with later | first
      · obtain ⟨parent, isParent⟩ := search.hasParent node later
        obtain ⟨positive, lower, -⟩ := search.parent node parent isParent
        exact .up isParent (induction _ (size ▸ lower) positive rfl)
      · have equal : numbering.number node = numbering.number entry := by
          rw [search.entered]
          omega
        rw [search.number_injective reached equal]
        exact .refl

private theorem reached_of_leads {allowed : Nat → Prop} (leads : graph.Leads allowed source node)
    (positive : 0 < numbering.number source) : 0 < numbering.number node :=
  leads.reverseInduction
    (motive := fun source => 0 < numbering.number source → 0 < numbering.number node)
    (fun _ => id) (fun _ _ edge _ _ further positive => further (search.closed _ _ positive edge))
    positive

theorem reachable_iff : graph.Reachable [entry] node ↔ 0 < numbering.number node := by
  rw [Adjacency.reachable_singleton]
  constructor
  · intro leads
    exact search.reached_of_leads leads (by rw [search.entered]; exact Nat.one_pos)
  · intro reached
    exact (search.leads_of_ancestor (search.entry_ancestor reached)).mono fun _ _ => trivial

private theorem ancestor_of_edge (ancestor : numbering.Ancestor above node)
    (positive : 0 < numbering.number above) (edge : other ∈ graph.successors node)
    (ordered : numbering.number above ≤ numbering.number other) :
    numbering.Ancestor above other := by
  rcases Nat.lt_or_ge (numbering.number node) (numbering.number other) with forward | backward
  · have nodePositive := Nat.lt_of_lt_of_le positive (search.number_le_of_ancestor ancestor)
    exact ancestor.trans (search.forward node other edge nodePositive forward)
  · exact search.interval above other node ancestor positive ordered backward

/-- A path that stays at or above the number of its start ends below it in the tree. -/
private theorem ancestor_of_leads (positive : 0 < numbering.number source)
    (leads : graph.Leads (fun other => numbering.number source ≤ numbering.number other) source
      node) : numbering.Ancestor source node :=
  Adjacency.Leads.reverseInduction
    (motive := fun start => numbering.Ancestor source start → numbering.Ancestor source node) leads
    (fun _ => id)
    (fun _ _ edge _ rest further ancestor =>
      further (search.ancestor_of_edge ancestor positive edge rest.start_allowed))
    .refl

/-! ## Candidates -/

theorem ancestor_of_candidate (candidate : Candidate graph numbering source node)
    (ordered : numbering.number source ≤ numbering.number node) :
    numbering.Ancestor source node := by
  obtain ⟨positive, next, edge, leads⟩ := candidate
  have higher := leads.mono fun other le => Nat.le_trans ordered le
  exact search.ancestor_of_leads positive (higher.head edge (Nat.le_refl _))

/-- A candidate of a node of higher number from whose subtree an edge leads to `node`. -/
theorem candidate_of_descendant (candidate : Candidate graph numbering source above)
    (ancestor : numbering.Ancestor above middle) (edge : node ∈ graph.successors middle)
    (ordered : numbering.number node ≤ numbering.number above) :
    Candidate graph numbering source node := by
  obtain ⟨positive, next, first, leads⟩ := candidate
  refine ⟨positive, next, first, ?_⟩
  have upward := leads.mono fun other le => Nat.le_trans ordered le
  have downward := (search.leads_of_ancestor ancestor).mono fun other between =>
    Nat.le_trans ordered (search.number_le_of_ancestor between.1)
  exact (upward.trans downward).snoc edge (Nat.le_refl _)

/-- The last edge of a candidate's path comes from below a node of which it is a candidate, too. -/
theorem edge_of_candidate (candidate : Candidate graph numbering source node) :
    node ∈ graph.successors source ∨ ∃ above middle, node ∈ graph.successors middle ∧
      0 < numbering.number middle ∧ Between numbering node middle above ∧
      Candidate graph numbering source above := by
  obtain ⟨positive, next, edge, sinks⟩ := candidate
  by_cases last : next = node
  · exact .inl (last ▸ edge)
  right
  -- backwards along the path: the lowest node so far, and the last one before `node`
  have found : next ≠ node → 0 < numbering.number next → ∃ above middle,
      node ∈ graph.successors middle ∧ 0 < numbering.number middle ∧
        Between numbering node middle above ∧ Sinks graph numbering next above := by
    refine sinks.reverseInduction (motive := fun start => start ≠ node →
      0 < numbering.number start → ∃ above middle, node ∈ graph.successors middle ∧
        0 < numbering.number middle ∧ Between numbering node middle above ∧
        Sinks graph numbering start above) (fun _ different => absurd rfl different) ?_
    intro start following edge notLower rest further different reached
    have higher : numbering.number node < numbering.number start :=
      Nat.lt_of_le_of_ne notLower fun equal =>
        different (search.number_injective reached equal.symm)
    by_cases last : following = node
    · exact ⟨start, start, last ▸ edge, reached, ⟨higher, .refl⟩, .refl start⟩
    · obtain ⟨lowest, middle, final, middleReached, between, sinks⟩ :=
        further last (search.closed start following reached edge)
      rcases Nat.lt_or_ge (numbering.number start) (numbering.number lowest) with lower | upper
      · have ancestor :=
          search.ancestor_of_candidate ⟨reached, following, edge, sinks⟩ (Nat.le_of_lt lower)
        exact ⟨start, middle, final, middleReached, ⟨higher, ancestor.trans between.onPath⟩,
          .refl start⟩
      · exact ⟨lowest, middle, final, middleReached, between, sinks.head edge upper⟩
  obtain ⟨above, middle, final, middleReached, between, sinks⟩ :=
    found last (search.closed source next positive edge)
  exact ⟨above, middle, final, middleReached, between, positive, next, edge, sinks⟩

/-! ## Semidominators -/

theorem exists_semidominator (later : 1 < numbering.number node) :
    ∃ semidominator, IsSemidominator graph numbering semidominator node := by
  obtain ⟨parent, isParent⟩ := search.hasParent node later
  obtain ⟨positive, -, edge⟩ := search.parent node parent isParent
  have some : ∃ count source, Candidate graph numbering source node ∧
      numbering.number source = count := ⟨_, parent, .of_edge positive edge, rfl⟩
  classical
  obtain ⟨source, candidate, equal⟩ := Nat.find_spec some
  refine ⟨source, candidate, fun other otherCandidate => ?_⟩
  rw [equal]
  exact Nat.find_min' some ⟨other, otherCandidate, rfl⟩

theorem semidominator_unique (first : IsSemidominator graph numbering source node)
    (second : IsSemidominator graph numbering other node) : source = other :=
  search.number_injective first.candidate.1
    (Nat.le_antisymm (first.least _ second.candidate) (second.least _ first.candidate))

theorem semidominator_lt (semidominator : IsSemidominator graph numbering source node)
    (later : 1 < numbering.number node) : numbering.number source < numbering.number node := by
  obtain ⟨parent, isParent⟩ := search.hasParent node later
  obtain ⟨positive, lower, edge⟩ := search.parent node parent isParent
  exact Nat.lt_of_le_of_lt
    (semidominator.least parent (.of_edge positive edge)) lower

theorem ancestor_of_semidominator (semidominator : IsSemidominator graph numbering source node)
    (later : 1 < numbering.number node) : numbering.Ancestor source node :=
  search.ancestor_of_candidate semidominator.candidate
    (Nat.le_of_lt (search.semidominator_lt semidominator later))

/-! ## Dominators -/

theorem ancestor_of_dominates (dominates : graph.Dominates [entry] above node) :
    numbering.Ancestor above node := by
  have reached := search.reachable_iff.mp dominates.reachable
  obtain ⟨nodes, path, onTree⟩ := search.leads_of_ancestor (search.entry_ancestor reached)
  exact (onTree above (dominates.crossed entry List.mem_cons_self nodes path)).2

theorem dominates_antisymm (first : graph.Dominates [entry] above node)
    (second : graph.Dominates [entry] node above) : above = node := by
  have lower := search.number_le_of_ancestor (search.ancestor_of_dominates first)
  have higher := search.number_le_of_ancestor (search.ancestor_of_dominates second)
  exact search.number_injective (search.reachable_iff.mp second.reachable)
    (Nat.le_antisymm lower higher)

/-- Different strict dominators are not both the closest. -/
theorem closest_unique (first : graph.DominatesClosest [entry] above node)
    (second : graph.DominatesClosest [entry] other node) : above = other :=
  search.dominates_antisymm (second.closest above first.different first.dominates)
    (first.closest other second.different second.dominates)

/-- A strict dominator of a node dominates its candidates of lower number. -/
theorem dominates_candidate (dominates : graph.Dominates [entry] above node)
    (different : above ≠ node) (candidate : Candidate graph numbering source node)  :
    graph.Dominates [entry] above source := by
  have lower := search.number_lt_of_ancestor (search.ancestor_of_dominates dominates) different
  obtain ⟨positive, next, edge, leads⟩ := candidate
  rw [Adjacency.dominates_singleton] at dominates ⊢
  refine ⟨search.reachable_iff.mpr positive, fun avoiding => dominates.2 ?_⟩
  refine avoiding.trans (Adjacency.Leads.head edge avoiding.finish_allowed ?_)
  refine leads.mono fun other le equal => ?_
  subst equal
  omega

/-- A path around an ancestor of its end meets the tree path again at a node with a candidate
before that ancestor. -/
theorem exists_crossing (ancestor : numbering.Ancestor above node)
    (positive : 0 < numbering.number above)
    (around : graph.Leads (· ≠ above) entry node) :
    ∃ source middle, numbering.number source < numbering.number above ∧
      Between numbering above node middle ∧ Candidate graph numbering source middle := by
  have entered := search.entered
  -- backwards from `node`: either the crossing is found, or the path sinks to a node of the tree
  -- path
  have found : 0 < numbering.number entry →
      (∃ source middle, numbering.number source < numbering.number above ∧
        Between numbering above node middle ∧ Candidate graph numbering source middle) ∨
      ∃ middle, Between numbering above node middle ∧ Sinks graph numbering entry middle := by
    refine around.reverseInduction (motive := fun start => 0 < numbering.number start →
      (∃ source middle, numbering.number source < numbering.number above ∧
        Between numbering above node middle ∧ Candidate graph numbering source middle) ∨
      ∃ middle, Between numbering above node middle ∧ Sinks graph numbering start middle) ?_ ?_
    · intro different reached
      have after := search.number_lt_of_ancestor ancestor different.symm
      exact .inr ⟨node, ⟨after, .refl⟩, .refl node⟩
    · intro start following edge different rest further reached
      rcases further (search.closed start following reached edge) with done |
        ⟨middle, between, sinks⟩
      · exact .inl done
      have candidate : Candidate graph numbering start middle := ⟨reached, following, edge, sinks⟩
      rcases Nat.lt_trichotomy (numbering.number start) (numbering.number above) with
        before | equal | after
      · exact .inl ⟨start, middle, before, between, candidate⟩
      · exact absurd (search.number_injective reached equal) different
      · right
        rcases Nat.lt_or_ge (numbering.number start) (numbering.number middle) with lower | upper
        · have startAbove := search.ancestor_of_candidate candidate (Nat.le_of_lt lower)
          exact ⟨start, ⟨after, startAbove.trans between.onPath⟩, .refl start⟩
        · exact ⟨middle, between, sinks.head edge upper⟩
  rcases found (by omega) with done | ⟨middle, between, sinks⟩
  · exact done
  · have lowest := sinks.start_allowed
    have after := between.after
    omega

/-! ## Closest dominators -/

/-- A semidominator dominates its node when no node between them has a lower semidominator. -/
theorem closest_of_least (later : 1 < numbering.number node)
    (semidominator : IsSemidominator graph numbering source node)
    (least : ∀ middle lower, Between numbering source node middle →
      IsSemidominator graph numbering lower middle →
      numbering.number source ≤ numbering.number lower) :
    graph.DominatesClosest [entry] source node := by
  have lower := search.semidominator_lt semidominator later
  have reached : graph.Reachable [entry] node := search.reachable_iff.mpr (by omega)
  refine ⟨fun equal => by subst equal; omega, ?_, ?_⟩
  · refine Adjacency.dominates_singleton.mpr ⟨reached, fun around => ?_⟩
    obtain ⟨other, middle, before, between, candidate⟩ := search.exists_crossing
      (search.ancestor_of_semidominator semidominator later) semidominator.candidate.1 around
    have positive := semidominator.candidate.1
    have after := between.after
    obtain ⟨lowest, isLowest⟩ := search.exists_semidominator (Nat.lt_of_le_of_lt positive after)
    have notBefore := least middle lowest between isLowest
    have notAfter := isLowest.least other candidate
    omega
  · intro other different dominates
    exact search.dominates_candidate dominates different semidominator.candidate

/-- A node has the strict dominators of the node of least semidominator above it, if that is lower
than its own. -/
theorem dominates_iff_of_least {lowest : Nat} (later : 1 < numbering.number node)
    (semidominator : IsSemidominator graph numbering source node)
    (between : Between numbering source node middle)
    (lower : IsSemidominator graph numbering lowest middle)
    (before : numbering.number lowest < numbering.number source)
    (least : ∀ other lower, Between numbering source node other →
      IsSemidominator graph numbering lower other →
      numbering.number lowest ≤ numbering.number lower) :
    (above ≠ node ∧ graph.Dominates [entry] above node) ↔
      (above ≠ middle ∧ graph.Dominates [entry] above middle) := by
  have positive := semidominator.candidate.1
  have onPath := search.ancestor_of_semidominator semidominator later
  have after := between.after
  have sourceAbove := search.ancestor_of_le onPath between.onPath positive (Nat.le_of_lt after)
  have middleBelow := search.number_le_of_ancestor between.onPath
  have reached : 0 < numbering.number node := by omega
  constructor
  · rintro ⟨different, dominates⟩
    have early := search.number_le_of_ancestor (search.ancestor_of_dominates
      (search.dominates_candidate dominates different semidominator.candidate))
    refine ⟨fun equal => by subst equal; omega, ?_⟩
    rw [Adjacency.dominates_singleton] at dominates ⊢
    refine ⟨search.reachable_iff.mpr (by omega), fun around => dominates.2 ?_⟩
    refine around.trans ((search.leads_of_ancestor between.onPath).mono fun other bounds equal => ?_)
    have := search.number_le_of_ancestor bounds.1
    subst equal
    omega
  · rintro ⟨different, dominates⟩
    have early := search.number_le_of_ancestor (search.ancestor_of_dominates
      (search.dominates_candidate dominates different lower.candidate))
    have onTree := (search.ancestor_of_dominates dominates).trans between.onPath
    refine ⟨fun equal => by subst equal; omega, ?_⟩
    rw [Adjacency.dominates_singleton] at dominates ⊢
    refine ⟨search.reachable_iff.mpr reached, fun around => ?_⟩
    obtain ⟨other, crossing, otherBefore, crossed, candidate⟩ :=
      search.exists_crossing onTree (search.reached_of_ancestor onTree reached) around
    have crossingAfter := crossed.after
    rcases Nat.lt_or_ge (numbering.number source) (numbering.number crossing) with inside | outside
    · obtain ⟨lower, isLeast⟩ := search.exists_semidominator (Nat.lt_of_le_of_lt positive inside)
      have notBefore := least crossing lower ⟨inside, crossed.onPath⟩ isLeast
      have notAfter := isLeast.least other candidate
      omega
    · -- around `above` to `crossing`, and from there over the tree to `middle`
      obtain ⟨otherReached, next, edge, sinks⟩ := candidate
      have crossingAbove := (search.ancestor_of_le crossed.onPath onPath (by omega)
        outside).trans sourceAbove
      have start : graph.Leads (· ≠ above) entry other :=
        (search.leads_of_ancestor (search.entry_ancestor otherReached)).mono fun step bounds equal => by
          have := search.number_le_of_ancestor bounds.2
          subst equal
          omega
      have further : graph.Leads (· ≠ above) next crossing := sinks.mono fun step le equal => by
        subst equal
        omega
      have finish : graph.Leads (· ≠ above) crossing middle :=
        (search.leads_of_ancestor crossingAbove).mono fun step bounds equal => by
          have := search.number_le_of_ancestor bounds.1
          subst equal
          omega
      exact dominates.2 (start.trans ((further.head edge start.finish_allowed).trans finish))

end DepthFirst

end Numbering

end SlotVersioning
