import SlotVersioning.Dominance.Semidominance
import SlotVersioning.Proofs.Dominance.Forest

/-!
# The descending sweep

`Semidominance.Swept` says what the sweep has found for the nodes above a bound in number: their
semidominators, and either an immediate dominator, or a node that has the same one, or a place in
the list that waits for the first child of the semidominator to be linked.
-/

namespace SlotVersioning

/-! ## Predecessor lists -/

namespace Adjacency

theorem mem_edges {graph : Adjacency} {source target : Nat} :
    (source, target) ∈ graph.edges ↔ target ∈ graph.successors source := by
  simp only [edges, List.mem_flatMap, Prod.exists, List.mem_map, Prod.mk.injEq,
    List.mem_zipIdx_iff_getElem?, Array.getElem?_toList]
  constructor
  · rintro ⟨targets, position, found, other, member, rfl, rfl⟩
    simpa [successors, found] using member
  · intro member
    cases found : graph.lists[source]? with
    | none => simp [successors, found] at member
    | some targets =>
        refine ⟨targets, source, found, target, ?_, rfl, rfl⟩
        simpa [successors, found] using member

theorem predecessorLists_eq (graph : Adjacency) : graph.predecessorLists =
    graph.edges.reverse.foldl (fun lists edge => lists.modify edge.2 (edge.1 :: ·))
      (Array.replicate graph.size []) := rfl

theorem mem_predecessorLists {graph : Adjacency} {source target : Nat}
    (inGraph : target < graph.size) :
    source ∈ graph.predecessorLists.getD target [] ↔ target ∈ graph.successors source := by
  have folded : ∀ (edges : List (Nat × Nat)) (lists : Array (List Nat)), target < lists.size →
      (source ∈ (edges.foldl (fun lists edge => lists.modify edge.2 (edge.1 :: ·)) lists).getD
        target [] ↔ (source, target) ∈ edges ∨ source ∈ lists.getD target []) := by
    intro edges
    induction edges with
    | nil => intro lists _; simp
    | cons edge edges induction =>
        intro lists inBounds
        obtain ⟨first, second⟩ := edge
        rw [List.foldl_cons, induction _ (by simpa using inBounds), List.mem_cons]
        by_cases same : second = target
        · subst same
          simp [inBounds, Array.getElem_modify]
          tauto
        · simp [Array.getElem?_modify, same, Ne.symm same]
  rw [predecessorLists_eq, folded _ _ (by simpa using inGraph)]
  simp [inGraph, mem_edges]

end Adjacency

namespace Semidominance

open SlotVersioning.Numbering

variable {graph : Adjacency} {entry : Nat} {numbering : Numbering} {bound node : Nat}
variable {state start : Semidominance}

/-- What the sweep leaves at a node: its semidominator, when that is its closest dominator, or else
the node of least semidominator below it, which has the same closest dominator. -/
def Resolved (graph : Adjacency) (numbering : Numbering) (node dominator : Nat) : Prop :=
  ∃ semidominator, IsSemidominator graph numbering semidominator node ∧
    ((dominator = semidominator ∧ ∀ middle lower, Between numbering semidominator node middle →
        IsSemidominator graph numbering lower middle →
        numbering.number semidominator ≤ numbering.number lower) ∨
      ∃ lowest, Between numbering semidominator node dominator ∧
        IsSemidominator graph numbering lowest dominator ∧
        numbering.number lowest < numbering.number semidominator ∧
        ∀ middle lower, Between numbering semidominator node middle →
          IsSemidominator graph numbering lower middle →
          numbering.number lowest ≤ numbering.number lower)

/-- The nodes above `bound` in number are linked. Those that wait at `exempt`, if any, can be
resolved now. -/
structure Swept (graph : Adjacency) (numbering : Numbering) (bound : Nat) (exempt : Option Nat)
    (state : Semidominance) : Prop where
  sized : state.semidominators.size = numbering.numbers.size
  waitingSized : state.waiting.size = numbering.numbers.size
  immediateSized : state.immediate.size = numbering.numbers.size
  forest : state.forest.Covers numbering (rank numbering state) bound
  untouched : ∀ node, numbering.number node ≤ bound →
    state.semidominator node = node ∧ state.immediate? node = none
  found : ∀ node, bound < numbering.number node →
    IsSemidominator graph numbering (state.semidominator node) node
  /-- Nothing has been linked between a waiting node and the semidominator at which it waits. -/
  waits : ∀ semidominator node, node ∈ state.waiting.getD semidominator [] →
    bound < numbering.number node ∧ state.semidominator node = semidominator ∧
      (exempt ≠ some semidominator → ∀ child, numbering.Ancestor child node →
        numbering.parent? child = some semidominator → numbering.number child ≤ bound)
  settled : ∀ node, bound < numbering.number node →
    node ∈ state.waiting.getD (state.semidominator node) [] ∨
      ∃ dominator, state.immediate? node = some dominator ∧ Resolved graph numbering node dominator

/-! ## The semidominator of one node -/

/-- While the predecessors of `node` are taken one by one: `done` are those taken. -/
structure Improving (graph : Adjacency) (numbering : Numbering) (node : Nat)
    (start : Semidominance) (done : List Nat) (state : Semidominance) : Prop where
  waiting : state.waiting = start.waiting
  immediate : state.immediate = start.immediate
  sized : state.semidominators.size = start.semidominators.size
  kept : ∀ other, other ≠ node → state.semidominator other = start.semidominator other
  forest : state.forest.Covers numbering (rank numbering state) (numbering.number node)
  candidate : state.semidominator node = node ∨
    Candidate graph numbering (state.semidominator node) node
  low : rank numbering state node ≤ numbering.number node
  least : ∀ predecessor ∈ done, 0 < numbering.number predecessor →
    (numbering.number predecessor ≤ numbering.number node →
      rank numbering state node ≤ numbering.number predecessor) ∧
    ∀ middle source, Between numbering node predecessor middle →
      Candidate graph numbering source middle →
      rank numbering state node ≤ numbering.number source

/-- The node that a predecessor proposes, and the forest after the question. -/
def proposal (numbering : Numbering) (state : Semidominance) (predecessor : Nat) : Nat × Forest :=
  state.forest.eval (rank numbering state) predecessor

theorem improve_reached {predecessor : Nat} (reached : 0 < numbering.number predecessor) :
    state.improve numbering node predecessor =
      { state with
        forest := (state.proposal numbering predecessor).2
        semidominators :=
          if rank numbering state (state.proposal numbering predecessor).1 <
              rank numbering state node then
            state.semidominators.setIfInBounds node
              (state.semidominator (state.proposal numbering predecessor).1)
          else state.semidominators } := by
  have isReached : numbering.isReached predecessor = true := by
    simpa [Numbering.isReached, Nat.pos_iff_ne_zero] using reached
  rw [improve, if_pos isReached]
  change (if rank numbering state (state.proposal numbering predecessor).1 <
    rank numbering state node then _ else _) = _
  split <;> rfl

section

variable (search : DepthFirst graph entry numbering) {exempt : Option Nat}
variable (swept : Swept graph numbering (numbering.number node) exempt start)
variable {done : List Nat} {predecessor : Nat}

include search swept

/-- What a predecessor proposes is a candidate, if it is better, and as good as all that the
predecessor contributes. -/
private theorem Improving.proposal (improving : Improving graph numbering node start done state)
    (reached : 0 < numbering.number predecessor) (edge : node ∈ graph.successors predecessor) :
    (rank numbering state (state.proposal numbering predecessor).1 < rank numbering state node →
      Candidate graph numbering
        (state.semidominator (state.proposal numbering predecessor).1) node) ∧
    (numbering.number predecessor ≤ numbering.number node →
      rank numbering state (state.proposal numbering predecessor).1 ≤
        numbering.number predecessor) ∧
    ∀ middle source, Between numbering node predecessor middle →
      Candidate graph numbering source middle →
      rank numbering state (state.proposal numbering predecessor).1 ≤ numbering.number source := by
  rcases Nat.lt_or_ge (numbering.number node) (numbering.number predecessor) with linked | low
  · obtain ⟨ancestor, high, least⟩ := improving.forest.eval_linked search linked
    have isSemidominator : ∀ other, numbering.number node < numbering.number other →
        IsSemidominator graph numbering (state.semidominator other) other := by
      intro other above
      rw [improving.kept other (fun same => by subst same; omega)]
      exact swept.found other above
    refine ⟨fun _ => ?_, fun low => absurd low (Nat.not_le_of_lt linked), ?_⟩
    · exact search.candidate_of_descendant (isSemidominator _ high).candidate ancestor edge
        (Nat.le_of_lt high)
    · intro middle source between candidate
      exact Nat.le_trans (least middle between.onPath between.after)
        ((isSemidominator middle between.after).least source candidate)
  · have answer : (state.proposal numbering predecessor).1 = predecessor := by
      rw [Semidominance.proposal, improving.forest.eval_root low]
    have own : rank numbering state predecessor ≤ numbering.number predecessor := by
      by_cases same : predecessor = node
      · exact same ▸ improving.low
      · rw [rank, improving.kept _ same, (swept.untouched _ low).1]
    rw [answer]
    refine ⟨fun better => ?_, fun _ => own, fun middle source between _ => ?_⟩
    · have different : predecessor ≠ node := fun same => by
        rw [same] at better
        exact absurd better (Nat.lt_irrefl _)
      rw [improving.kept _ different, (swept.untouched _ low).1]
      exact .of_edge reached edge
    · have after := between.after
      have before := search.number_le_of_ancestor between.onPath
      omega

omit search in
private theorem Improving.semidominator_improve
    (improving : Improving graph numbering node start done state)
    (reachedNode : 0 < numbering.number node) (reached : 0 < numbering.number predecessor)
    (other : Nat) :
    (state.improve numbering node predecessor).semidominator other =
      if other = node ∧ rank numbering state (state.proposal numbering predecessor).1 <
        rank numbering state node then
        state.semidominator (state.proposal numbering predecessor).1
      else state.semidominator other := by
  have inBounds : node < state.semidominators.size := by
    rw [improving.sized, swept.sized]
    exact lt_size_of_reached reachedNode
  rw [improve_reached reached]
  by_cases better : rank numbering state (state.proposal numbering predecessor).1 <
    rank numbering state node
  · by_cases same : other = node
    · subst same
      simp [semidominator, better, inBounds]
    · simp [semidominator, better, same, Ne.symm same]
  · simp [semidominator, better]

theorem Improving.improve (improving : Improving graph numbering node start done state)
    (reachedNode : 0 < numbering.number node) (edge : node ∈ graph.successors predecessor) :
    Improving graph numbering node start (predecessor :: done)
      (state.improve numbering node predecessor) := by
  rcases Nat.eq_zero_or_pos (numbering.number predecessor) with unreached | reached
  · have ignored : state.improve numbering node predecessor = state := by
      rw [Semidominance.improve, if_neg (by simp [Numbering.isReached, unreached])]
    rw [ignored]
    refine { improving with least := fun other member reached => ?_ }
    rcases List.mem_cons.mp member with rfl | member
    · omega
    · exact improving.least other member reached
  have updated := improving.semidominator_improve swept reachedNode reached
  obtain ⟨isCandidate, asLow, asLeast⟩ := improving.proposal search swept reached edge
  have ranks : rank numbering (state.improve numbering node predecessor) node ≤
        rank numbering state (state.proposal numbering predecessor).1 ∧
      rank numbering (state.improve numbering node predecessor) node ≤
        rank numbering state node := by
    rw [rank, updated]
    by_cases better : rank numbering state (state.proposal numbering predecessor).1 <
      rank numbering state node
    · rw [if_pos ⟨rfl, better⟩]
      exact ⟨Nat.le_refl _, Nat.le_of_lt better⟩
    · rw [if_neg fun both => better both.2]
      exact ⟨Nat.le_of_not_lt better, Nat.le_refl _⟩
  constructor
  case waiting => rw [improve_reached reached, improving.waiting]
  case immediate => rw [improve_reached reached, improving.immediate]
  case sized =>
    rw [← improving.sized, improve_reached reached]
    dsimp only
    split
    · exact Array.size_setIfInBounds
    · rfl
  case kept =>
    intro other different
    rw [updated, if_neg fun both => different both.1, improving.kept other different]
  case forest =>
    rw [improve_reached reached]
    refine (improving.forest.eval search predecessor).congr_rank fun other above => ?_
    have different : other ≠ node := fun same => by
      rw [same] at above
      exact Nat.lt_irrefl _ above
    rw [← improve_reached reached, rank, updated, if_neg fun both => different both.1, rank]
  case candidate =>
    rw [updated]
    by_cases better : rank numbering state (state.proposal numbering predecessor).1 <
      rank numbering state node
    · rw [if_pos ⟨rfl, better⟩]
      exact .inr (isCandidate better)
    · rw [if_neg fun both => better both.2]
      exact improving.candidate
  case low => exact Nat.le_trans ranks.2 improving.low
  case least =>
    intro other member otherReached
    rcases List.mem_cons.mp member with rfl | member
    · exact ⟨fun low => Nat.le_trans ranks.1 (asLow low), fun middle source between candidate =>
        Nat.le_trans ranks.1 (asLeast middle source between candidate)⟩
    · obtain ⟨lowest, least⟩ := improving.least other member otherReached
      exact ⟨fun low => Nat.le_trans ranks.2 (lowest low), fun middle source between candidate =>
        Nat.le_trans ranks.2 (least middle source between candidate)⟩

theorem Improving.foldl (reachedNode : 0 < numbering.number node) (predecessors : List Nat) :
    ∀ {done state}, Improving graph numbering node start done state →
      (∀ predecessor ∈ predecessors, node ∈ graph.successors predecessor) →
      Improving graph numbering node start (predecessors.reverse ++ done)
        (predecessors.foldl (Semidominance.improve numbering node) state) := by
  induction predecessors with
  | nil => exact fun improving _ => improving
  | cons predecessor predecessors induction =>
      intro done state improving edges
      rw [List.foldl_cons, List.reverse_cons, List.append_assoc]
      exact induction (improving.improve search swept reachedNode (edges _ List.mem_cons_self))
        fun other member => edges other (List.mem_cons_of_mem _ member)

omit search in
theorem improving_start : Improving graph numbering node start [] start where
  waiting := rfl
  immediate := rfl
  sized := rfl
  kept := fun _ _ => rfl
  forest := swept.forest
  candidate := .inl (swept.untouched node (Nat.le_refl _)).1
  low := by rw [rank, (swept.untouched node (Nat.le_refl _)).1]
  least := fun _ member => absurd member List.not_mem_nil

omit swept in
/-- After all predecessors the semidominator of the node is known. -/
private theorem Improving.isSemidominator
    (improving : Improving graph numbering node start done state)
    (later : 1 < numbering.number node)
    (complete : ∀ predecessor, node ∈ graph.successors predecessor → predecessor ∈ done) :
    IsSemidominator graph numbering (state.semidominator node) node := by
  obtain ⟨parent, isParent⟩ := search.hasParent node later
  obtain ⟨positive, lower, edge⟩ := search.parent node parent isParent
  have below := (improving.least parent (complete parent edge) positive).1 (Nat.le_of_lt lower)
  constructor
  · refine improving.candidate.resolve_left fun same => ?_
    rw [rank, same] at below
    omega
  · intro other candidate
    change rank numbering state node ≤ numbering.number other
    rcases search.edge_of_candidate candidate with edge | ⟨above, middle, edge, reached, between,
      candidate⟩
    · rcases Nat.le_total (numbering.number other) (numbering.number node) with low | high
      · exact (improving.least other (complete other edge) candidate.1).1 low
      · exact Nat.le_trans improving.low high
    · exact (improving.least middle (complete middle edge) reached).2 above other between candidate

end

/-! ## The nodes that wait at a parent -/

/-- While the nodes that waited at the parent of a newly linked node are resolved: `done` are those
resolved, `start` is the state with their list emptied. -/
structure Resolving (graph : Adjacency) (numbering : Numbering) (bound : Nat)
    (start : Semidominance) (done : List Nat) (state : Semidominance) : Prop where
  semidominators : state.semidominators = start.semidominators
  waiting : state.waiting = start.waiting
  sized : state.immediate.size = start.immediate.size
  forest : state.forest.Covers numbering (rank numbering state) bound
  kept : ∀ node, numbering.number node ≤ bound → state.immediate? node = start.immediate? node
  immediate : ∀ node, state.immediate? node = start.immediate? node ∨
    ∃ dominator, state.immediate? node = some dominator ∧ Resolved graph numbering node dominator
  resolved : ∀ node ∈ done, ∃ dominator, state.immediate? node = some dominator ∧
    Resolved graph numbering node dominator

section

variable (search : DepthFirst graph entry numbering) {child parent : Nat}
variable (last : numbering.number child = bound + 1)
variable (isParent : numbering.parent? child = some parent)
variable (found : ∀ node, bound < numbering.number node →
  IsSemidominator graph numbering (start.semidominator node) node)
variable {done : List Nat}

include search last isParent

/-- Between the parent of the node linked last and a linked node are its linked ancestors. -/
private theorem between_parent (high : bound < numbering.number node) {middle : Nat} :
    Between numbering parent node middle ↔
      numbering.Ancestor middle node ∧ bound < numbering.number middle := by
  obtain ⟨reached, lower, -⟩ := search.parent child parent isParent
  constructor
  · rintro ⟨after, onPath⟩
    refine ⟨onPath, ?_⟩
    by_contra unlinked
    have aboveChild := search.interval middle child node onPath (by omega) (by omega) (by omega)
    have aboveParent := aboveChild.of_isParent isParent fun same => by subst same; omega
    have notAfter := search.number_le_of_ancestor aboveParent
    omega
  · rintro ⟨onPath, linked⟩
    exact ⟨by omega, onPath⟩

include found

/-- The answer of the forest decides where the dominator of a waiting node is. -/
private theorem resolved_of_eval (resolving : Resolving graph numbering bound start done state)
    (high : bound < numbering.number node) (waited : start.semidominator node = parent) :
    let best := (state.forest.eval (rank numbering state) node).1
    Resolved graph numbering node
      (if state.semidominator best = state.semidominator node then parent else best) := by
  intro best
  obtain ⟨ancestor, linked, least⟩ := resolving.forest.eval_linked search high
  have between : ∀ {middle}, Between numbering parent node middle ↔
      numbering.Ancestor middle node ∧ bound < numbering.number middle :=
    between_parent search last isParent high
  have isSemidominator : ∀ other, bound < numbering.number other →
      IsSemidominator graph numbering (state.semidominator other) other := by
    intro other above
    rw [semidominator, resolving.semidominators]
    exact found other above
  have own : state.semidominator node = parent := by
    rw [semidominator, resolving.semidominators]
    exact waited
  have lowest : ∀ middle lower, Between numbering parent node middle →
      IsSemidominator graph numbering lower middle →
      numbering.number (state.semidominator best) ≤ numbering.number lower := by
    intro middle lower inside isLower
    obtain ⟨onPath, above⟩ := between.mp inside
    rw [search.semidominator_unique isLower (isSemidominator middle above)]
    exact least middle onPath above
  refine ⟨parent, own ▸ isSemidominator node high, ?_⟩
  by_cases same : state.semidominator best = state.semidominator node
  · left
    rw [if_pos same]
    rw [same, own] at lowest
    exact ⟨rfl, lowest⟩
  · right
    rw [if_neg same]
    refine ⟨state.semidominator best, between.mpr ⟨ancestor, linked⟩, isSemidominator best linked,
      Nat.lt_of_le_of_ne ?_ fun equal => same ?_, lowest⟩
    · rw [← own]
      exact least node .refl high
    · rw [own]
      exact search.number_injective (isSemidominator best linked).candidate.1 equal

theorem Resolving.resolve (resolving : Resolving graph numbering bound start done state)
    (sized : start.immediate.size = numbering.numbers.size)
    (high : bound < numbering.number node) (waited : start.semidominator node = parent) :
    Resolving graph numbering bound start (node :: done)
      (state.resolve numbering parent node) := by
  have resolved := resolved_of_eval search last isParent found resolving high waited
  have inBounds : node < state.immediate.size := by
    rw [resolving.sized, sized]
    exact lt_size_of_reached (Nat.zero_lt_of_lt high)
  have updated : ∀ other, (state.resolve numbering parent node).immediate? other =
      if other = node then
        some (if state.semidominator (state.forest.eval (rank numbering state) node).1 =
          state.semidominator node then parent
        else (state.forest.eval (rank numbering state) node).1)
      else state.immediate? other := by
    intro other
    by_cases same : other = node
    · subst same
      rw [if_pos rfl, immediate?, Semidominance.resolve]
      simp [inBounds, Semidominance.eval, semidominator]
    · rw [if_neg same, immediate?, Semidominance.resolve]
      simp [Ne.symm same, immediate?, Semidominance.eval]
  constructor
  case semidominators => exact resolving.semidominators
  case waiting => exact resolving.waiting
  case sized =>
    rw [← resolving.sized]
    exact Array.size_setIfInBounds
  case forest => exact resolving.forest.eval search node
  case kept =>
    intro other low
    rw [updated, if_neg fun same => by subst same; omega]
    exact resolving.kept other low
  case immediate =>
    intro other
    rw [updated]
    by_cases same : other = node
    · subst same
      exact .inr ⟨_, if_pos rfl, resolved⟩
    · rw [if_neg same]
      exact resolving.immediate other
  case resolved =>
    intro other member
    rw [updated]
    by_cases same : other = node
    · subst same
      exact ⟨_, if_pos rfl, resolved⟩
    · rw [if_neg same]
      exact resolving.resolved other ((List.mem_cons.mp member).resolve_left same)

theorem Resolving.foldl (sized : start.immediate.size = numbering.numbers.size)
    (nodes : List Nat) :
    ∀ {done state}, Resolving graph numbering bound start done state →
      (∀ node ∈ nodes, bound < numbering.number node ∧ start.semidominator node = parent) →
      Resolving graph numbering bound start (nodes.reverse ++ done)
        (nodes.foldl (Semidominance.resolve numbering parent) state) := by
  induction nodes with
  | nil => exact fun resolving _ => resolving
  | cons node nodes induction =>
      intro done state resolving waited
      obtain ⟨high, atParent⟩ := waited node List.mem_cons_self
      rw [List.foldl_cons, List.reverse_cons, List.append_assoc]
      exact induction (resolving.resolve search last isParent found sized high atParent)
        fun other member => waited other (List.mem_cons_of_mem _ member)

end

/-! ## One step, and all of them -/

/-- The state once `node` is linked and waits at its semidominator. -/
def linkBelow (state : Semidominance) (node parent : Nat) : Semidominance :=
  { state with
    waiting := state.waiting.modify (state.semidominator node) (· ++ [node])
    forest := state.forest.link node (some parent) }

def withoutWaiting (state : Semidominance) (parent : Nat) : Semidominance :=
  { state with waiting := state.waiting.setIfInBounds parent [] }

theorem mem_waiting_linkBelow {other semidominator parent : Nat}
    (inBounds : state.semidominator node < state.waiting.size) :
    other ∈ (state.linkBelow node parent).waiting.getD semidominator [] ↔
      other ∈ state.waiting.getD semidominator [] ∨
        other = node ∧ semidominator = state.semidominator node := by
  by_cases same : semidominator = state.semidominator node
  · subst same
    simp [linkBelow, inBounds, Array.getElem_modify]
  · simp [linkBelow, same, Ne.symm same, Array.getElem?_modify]

theorem mem_waiting_withoutWaiting {other semidominator parent : Nat}
    (inBounds : parent < state.waiting.size) :
    other ∈ (state.withoutWaiting parent).waiting.getD semidominator [] ↔
      semidominator ≠ parent ∧ other ∈ state.waiting.getD semidominator [] := by
  by_cases same : semidominator = parent
  · subst same
    simp [withoutWaiting, inBounds]
  · simp [withoutWaiting, same, Ne.symm same]

theorem Swept.improving_foldl (search : DepthFirst graph entry numbering) {exempt : Option Nat}
    (swept : Swept graph numbering (numbering.number node) exempt state)
    (reached : 0 < numbering.number node) :
    Improving graph numbering node state ((graph.predecessorLists.getD node []).reverse ++ [])
      ((graph.predecessorLists.getD node []).foldl (improve numbering node) state) :=
  (improving_start swept).foldl search swept reached _ fun _ member =>
    (Adjacency.mem_predecessorLists (search.sized ▸ lt_size_of_reached reached)).mp member

/-- The first half of a step finds the semidominator of a node and links it. -/
theorem Swept.link (search : DepthFirst graph entry numbering) {parent : Nat}
    (swept : Swept graph numbering (bound + 1) none state)
    (last : numbering.number node = bound + 1)
    (isParent : numbering.parent? node = some parent) :
    Swept graph numbering bound (some parent)
      (((graph.predecessorLists.getD node []).foldl (improve numbering node) state).linkBelow node
        parent) := by
  have inBounds : node < numbering.numbers.size := lt_size_of_reached (by omega)
  obtain ⟨parentReached, parentLower, -⟩ := search.parent node parent isParent
  have improving : Improving graph numbering node state _ _ :=
    (last ▸ swept).improving_foldl search (by omega)
  generalize (graph.predecessorLists.getD node []).foldl (improve numbering node) state = improved
    at improving ⊢
  have own := improving.isSemidominator search (by omega) fun predecessor edge => by
    simpa using (Adjacency.mem_predecessorLists (search.sized ▸ inBounds)).mpr edge
  have higher : ∀ {other}, bound < numbering.number other → other ≠ node →
      bound + 1 < numbering.number other := fun high different =>
    Nat.lt_of_le_of_ne high fun same =>
      different (search.number_injective (Nat.zero_lt_of_lt high) (same.symm.trans last.symm))
  have waitingSized : improved.waiting.size = numbering.numbers.size := by
    rw [improving.waiting, swept.waitingSized]
  have waiting : ∀ {other semidominator},
      other ∈ (improved.linkBelow node parent).waiting.getD semidominator [] ↔
        other ∈ improved.waiting.getD semidominator [] ∨
          other = node ∧ semidominator = improved.semidominator node :=
    mem_waiting_linkBelow (waitingSized ▸ lt_size_of_reached own.candidate.1)
  constructor
  case sized => rw [linkBelow, improving.sized, swept.sized]
  case waitingSized => simpa [linkBelow] using waitingSized
  case immediateSized => rw [linkBelow, improving.immediate, swept.immediateSized]
  case forest => exact (last ▸ improving.forest).link search last isParent
  case untouched =>
    intro other low
    obtain ⟨same, unset⟩ := swept.untouched other (Nat.le_succ_of_le low)
    refine ⟨(improving.kept other fun same => by subst same; omega).trans same, ?_⟩
    rw [immediate?, linkBelow, improving.immediate]
    exact unset
  case found =>
    intro other high
    by_cases same : other = node
    · exact same ▸ own
    · change IsSemidominator graph numbering (improved.semidominator other) other
      rw [improving.kept other same]
      exact swept.found other (higher high same)
  case waits =>
    intro semidominator other member
    rcases waiting.mp member with before | ⟨rfl, rfl⟩
    · rw [improving.waiting] at before
      obtain ⟨high, atSemidominator, unlinked⟩ := swept.waits semidominator other before
      refine ⟨Nat.lt_of_succ_lt high, ?_, fun different child ancestor childParent => ?_⟩
      · rw [← atSemidominator]
        exact improving.kept other fun same => by subst same; omega
      · have low := unlinked (Option.some_ne_none _).symm child ancestor childParent
        have notLast : numbering.number child ≠ bound + 1 := fun equal => by
          have same := search.number_injective (by omega) (equal.trans last.symm)
          rw [same, isParent] at childParent
          exact different childParent
        omega
    · refine ⟨by omega, rfl, fun different child ancestor childParent => ?_⟩
      have low := search.number_lt_of_ancestor ancestor fun same => by
        rw [same, isParent] at childParent
        exact different childParent
      omega
  case settled =>
    intro other high
    by_cases same : other = node
    · subst same
      exact .inl (waiting.mpr (.inr ⟨rfl, rfl⟩))
    · rcases swept.settled other (higher high same) with waits | resolved
      · left
        rw [← improving.kept other same, ← improving.waiting] at waits
        exact waiting.mpr (.inl waits)
      · right
        rw [immediate?, linkBelow, improving.immediate]
        exact resolved

theorem Swept.resolving_start {parent : Nat}
    (swept : Swept graph numbering bound (some parent) state) :
    Resolving graph numbering bound (state.withoutWaiting parent) []
      (state.withoutWaiting parent) where
  semidominators := rfl
  waiting := rfl
  sized := rfl
  forest := swept.forest
  kept := fun _ _ => rfl
  immediate := fun _ => .inl rfl
  resolved := fun _ member => absurd member List.not_mem_nil

/-- The second half of a step resolves the nodes that wait at the parent. -/
private theorem Swept.resolve (search : DepthFirst graph entry numbering) {parent : Nat}
    (swept : Swept graph numbering bound (some parent) state)
    (last : numbering.number node = bound + 1)
    (isParent : numbering.parent? node = some parent) :
    Swept graph numbering bound none
      ((state.waiting.getD parent []).foldl (Semidominance.resolve numbering parent)
        (state.withoutWaiting parent)) := by
  have parentReached := (search.parent node parent isParent).1
  have waiting : ∀ {other semidominator},
      other ∈ (state.withoutWaiting parent).waiting.getD semidominator [] ↔
        semidominator ≠ parent ∧ other ∈ state.waiting.getD semidominator [] :=
    mem_waiting_withoutWaiting (swept.waitingSized ▸ lt_size_of_reached parentReached)
  have found : ∀ other, bound < numbering.number other →
      IsSemidominator graph numbering ((state.withoutWaiting parent).semidominator other) other :=
    swept.found
  have resolving := swept.resolving_start.foldl search last isParent found swept.immediateSized
    (state.waiting.getD parent []) fun other member =>
      ⟨(swept.waits parent other member).1, (swept.waits parent other member).2.1⟩
  generalize (state.waiting.getD parent []).foldl (Semidominance.resolve numbering parent)
    (state.withoutWaiting parent) = resolved at resolving
  have sameSemidominator : ∀ other, resolved.semidominator other = state.semidominator other := by
    intro other
    rw [semidominator, resolving.semidominators]
    rfl
  constructor
  case sized => rw [resolving.semidominators]; exact swept.sized
  case waitingSized =>
    rw [resolving.waiting]
    simpa [withoutWaiting] using swept.waitingSized
  case immediateSized => rw [resolving.sized]; exact swept.immediateSized
  case forest => exact resolving.forest
  case untouched =>
    intro other low
    rw [sameSemidominator, resolving.kept other low]
    exact swept.untouched other low
  case found =>
    intro other high
    rw [sameSemidominator]
    exact swept.found other high
  case waits =>
    intro semidominator other member
    rw [resolving.waiting] at member
    obtain ⟨different, member⟩ := waiting.mp member
    obtain ⟨high, atSemidominator, unlinked⟩ := swept.waits semidominator other member
    rw [sameSemidominator]
    exact ⟨high, atSemidominator, fun _ =>
      unlinked fun equal => different (Option.some.inj equal).symm⟩
  case settled =>
    intro other high
    rw [sameSemidominator, resolving.waiting]
    rcases swept.settled other high with waits | known
    · by_cases atParent : state.semidominator other = parent
      · right
        rw [atParent] at waits
        exact resolving.resolved other (by simpa using waits)
      · exact .inl (waiting.mpr ⟨atParent, waits⟩)
    · right
      rcases resolving.immediate other with kept | anew
      · rw [kept]
        exact known
      · exact anew

theorem Swept.step (search : DepthFirst graph entry numbering)
    (swept : Swept graph numbering (bound + 1) none state)
    (last : numbering.number node = bound + 1) (later : 0 < bound) :
    Swept graph numbering bound none (state.step numbering graph.predecessorLists node) := by
  obtain ⟨parent, isParent⟩ := search.hasParent node (by omega)
  have resolved := (swept.link search last isParent).resolve search last isParent
  rw [Semidominance.step, isParent]
  exact resolved

private theorem swept_initial (bounded : ∀ node, numbering.number node ≤ bound) :
    Swept graph numbering bound none (initial numbering.numbers.size) where
  sized := by simp [initial]
  waitingSized := by simp [initial]
  immediateSized := by simp [initial]
  forest := Forest.covers_discrete bounded
  untouched := by
    intro node _
    constructor
    · simp only [semidominator, initial, Array.getD_eq_getD_getElem?, Array.getElem?_range]
      split <;> rfl
    · simp only [immediate?, initial, Array.getD_eq_getD_getElem?, Array.getElem?_replicate]
      split <;> rfl
  found := fun node linked => absurd (bounded node) (Nat.not_le_of_lt linked)
  waits := by
    intro semidominator node member
    simp only [initial, Array.getD_eq_getD_getElem?, Array.getElem?_replicate] at member
    split at member <;> exact absurd member List.not_mem_nil
  settled := fun node linked => absurd (bounded node) (Nat.not_le_of_lt linked)

/-- The sweep over the nodes from some number on, the last of them first. -/
theorem swept_foldr (search : DepthFirst graph entry numbering) (nodes : List Nat) :
    ∀ bound, 0 < bound → bound + nodes.length = numbering.count →
      (∀ index node, nodes[index]? = some node → numbering.number node = bound + index + 1) →
      Swept graph numbering bound none
        (nodes.foldr (fun node state => state.step numbering graph.predecessorLists node)
          (initial graph.size)) := by
  induction nodes with
  | nil =>
      intro bound _ all _
      rw [← search.sized]
      have reached : numbering.count = bound := all.symm
      exact swept_initial fun node => reached ▸ search.number_le_count node
  | cons node nodes induction =>
      intro bound positive all numbered
      rw [List.length_cons] at all
      have rest := induction (bound + 1) (Nat.succ_pos _) (by omega) fun index other found => by
        rw [numbered (index + 1) other found]
        omega
      have last : numbering.number node = bound + 1 := numbered 0 node rfl
      rw [List.foldr_cons]
      exact rest.step search last positive

/-- The nodes after the entry have the numbers from two on. -/
theorem number_drop (search : DepthFirst graph entry numbering) (index node : Nat)
    (found : (numbering.order.toList.drop 1)[index]? = some node) :
    numbering.number node = 1 + index + 1 := by
  rw [List.getElem?_drop, Array.getElem?_toList, search.order] at found
  omega

theorem length_drop (search : DepthFirst graph entry numbering) :
    1 + (numbering.order.toList.drop 1).length = numbering.count := by
  have entered := search.number_le_count entry
  rw [search.entered, Numbering.count] at entered
  rw [List.length_drop, Array.length_toList, Numbering.count]
  omega

/-- After the sweep every node but the entry has its semidominator and a resolved dominator. -/
theorem swept_sweep (search : DepthFirst graph entry numbering) :
    Swept graph numbering 1 none (sweep numbering graph.predecessorLists graph.size) := by
  rw [sweep, List.foldl_reverse]
  exact swept_foldr search _ 1 Nat.one_pos (length_drop search) (number_drop search)

end Semidominance

end SlotVersioning
