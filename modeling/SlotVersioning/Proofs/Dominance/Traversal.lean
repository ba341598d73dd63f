import Mathlib.Algebra.BigOperators.Group.Finset.Basic
import Mathlib.Data.Set.Function
import Mathlib.Order.Interval.Set.Defs
import SlotVersioning.Proofs.Dominance.Semidominators

/-!
# A whole depth-first search

`Explores` runs the search with nothing to bound its steps. It ends, in one way only, and
`Numbering.ofSearch` has fuel enough to come to the same end. What it has numbered then are the nodes
that the entry reaches, and `Enumerates` says how.
-/

namespace SlotVersioning

namespace Numbering

variable {graph : Adjacency} {entry node : Nat} {numbering final other : Numbering}
variable {pending : List (Nat × Option Nat)}

/-! ## The end of a search -/

/-- The edges that a search may still put on the stack. -/
def openEdges (graph : Adjacency) (numbering : Numbering) : Nat :=
  ∑ node ∈ Finset.range graph.size,
    if numbering.number node = 0 then (graph.successors node).length else 0

theorem length_pushed_le (graph : Adjacency) (numbering : Numbering) (node : Nat) :
    (pushed graph numbering node).length ≤ (graph.successors node).length := by
  rw [pushed, List.length_map]
  exact List.length_filter_le _ _

theorem openEdges_visit (inBounds : node < numbering.numbers.size) (inGraph : node < graph.size)
    (unreached : numbering.number node = 0) (parent : Option Nat) :
    openEdges graph (numbering.visit node parent) + (graph.successors node).length =
      openEdges graph numbering := by
  have member := Finset.mem_range.mpr inGraph
  rw [openEdges, openEdges, ← Finset.add_sum_erase _ _ member, ← Finset.add_sum_erase _ _ member,
    number_visit inBounds, if_pos rfl, if_neg (Nat.succ_ne_zero _), if_pos unreached,
    Nat.zero_add, Nat.add_comm]
  congr 1
  refine Finset.sum_congr rfl fun other otherMember => ?_
  rw [number_visit inBounds, if_neg (Finset.ne_of_mem_erase otherMember)]

theorem edgeCount_eq_sum (graph : Adjacency) :
    graph.edgeCount = ∑ node ∈ Finset.range graph.size, (graph.successors node).length := by
  have counted : ∀ (lists : List (List Nat)) (start : Nat),
      lists.foldl (fun count targets => count + targets.length) start =
        start + ∑ node ∈ Finset.range lists.length, (lists[node]?.getD []).length := by
    intro lists
    induction lists with
    | nil => intro start; rfl
    | cons targets lists induction =>
        intro start
        rw [List.foldl_cons, induction, List.length_cons, Finset.sum_range_succ']
        simp only [List.getElem?_cons_succ, List.getElem?_cons_zero, Option.getD_some]
        omega
  obtain ⟨⟨lists⟩⟩ := graph
  simpa [Adjacency.edgeCount, Adjacency.size, Adjacency.successors] using counted lists 0

theorem explore_visit (unreached : numbering.number node = 0) (fuel : Nat) (parent : Option Nat) :
    explore graph (fuel + 1) ((node, parent) :: pending) numbering =
      explore graph fuel (pushed graph (numbering.visit node parent) node ++ pending)
        (numbering.visit node parent) := by
  rw [explore, if_neg (by simp [isReached, unreached])]
  rfl

/-- The search from the pending nodes ends, and it ends with `final`. -/
inductive Explores (graph : Adjacency) : List (Nat × Option Nat) → Numbering → Numbering → Prop
  | done {numbering : Numbering} : Explores graph [] numbering numbering
  | skip {pending : List (Nat × Option Nat)} {numbering final : Numbering} {node : Nat}
      {parent : Option Nat} (reached : numbering.number node ≠ 0)
      (rest : Explores graph pending numbering final) :
      Explores graph ((node, parent) :: pending) numbering final
  | visit {pending : List (Nat × Option Nat)} {numbering final : Numbering} {node : Nat}
      {parent : Option Nat} (unreached : numbering.number node = 0)
      (rest : Explores graph (pushed graph (numbering.visit node parent) node ++ pending)
        (numbering.visit node parent) final) :
      Explores graph ((node, parent) :: pending) numbering final

theorem Explores.unique (first : Explores graph pending numbering final)
    (second : Explores graph pending numbering other) : final = other := by
  induction first with
  | done =>
      cases second with
      | done => rfl
  | skip reached rest induction =>
      cases second with
      | skip _ rest => exact induction rest
      | visit unreached rest => exact absurd unreached reached
  | visit unreached rest induction =>
      cases second with
      | skip reached rest => exact absurd unreached reached
      | visit _ rest => exact induction rest

private theorem Explores.searching (explores : Explores graph pending numbering final)
    (inRange : graph.InRange) (searching : Searching graph entry pending numbering) :
    Searching graph entry [] final := by
  induction explores with
  | done => exact searching
  | skip reached rest induction =>
      exact induction (searching.skip (by simpa [isReached] using reached))
  | visit unreached rest induction =>
      obtain ⟨above, rfl, -⟩ := searching.waiting _ _ List.mem_cons_self
      exact induction (searching.visit inRange unreached)

/-- A step for every pending node and for every edge that is still open is enough. -/
private theorem explores_explore (inRange : graph.InRange) (fuel : Nat) :
    ∀ {pending : List (Nat × Option Nat)} {numbering : Numbering},
      numbering.numbers.size = graph.size → (∀ item ∈ pending, item.1 < graph.size) →
      pending.length + openEdges graph numbering ≤ fuel →
      Explores graph pending numbering (explore graph fuel pending numbering) := by
  induction fuel with
  | zero =>
      intro pending numbering sized inside enough
      obtain rfl : pending = [] := List.length_eq_zero_iff.mp (by omega)
      exact .done
  | succ fuel induction =>
      intro pending numbering sized inside enough
      match pending with
      | [] => exact .done
      | (node, parent) :: pending =>
          have inGraph : node < graph.size := inside _ List.mem_cons_self
          have rest := fun item member => inside item (List.mem_cons_of_mem _ member)
          rw [List.length_cons] at enough
          by_cases unreached : numbering.number node = 0
          · have balance := openEdges_visit (sized ▸ inGraph) inGraph unreached parent
            have pushes := length_pushed_le graph (numbering.visit node parent) node
            rw [explore_visit unreached]
            refine .visit unreached (induction (by simpa [Numbering.visit] using sized) ?_
              (by rw [List.length_append]; omega))
            rw [List.forall_mem_append]
            exact ⟨fun item member => inRange node _ (mem_pushed.mp member).1, rest⟩
          · rw [explore, if_pos (by simpa [isReached] using unreached)]
            exact .skip unreached (induction sized rest (by omega))

theorem number_initial (size node : Nat) : (initial size).number node = 0 := by
  simp [initial, number, Array.getElem?_replicate]
  split <;> rfl

private theorem parent_initial (size node : Nat) : (initial size).parent? node = none := by
  simp [initial, parent?, Array.getElem?_replicate]
  split <;> rfl

/-- The search after its first step, which numbers the entry. -/
theorem searching_entered (inGraph : entry < graph.size) :
    let visited := (initial graph.size).visit entry none
    Searching graph entry (pushed graph visited entry) visited := by
  intro visited
  have number : ∀ node, visited.number node = if node = entry then 1 else 0 := by
    intro node
    rw [number_visit (by simpa [initial] using inGraph), number_initial]
    rfl
  have noParent : ∀ node, visited.parent? node = none := by
    intro node
    rw [parent_visit (by simpa [initial] using inGraph), parent_initial]
    split <;> rfl
  have isEntry : ∀ {node}, 0 < visited.number node → node = entry := by
    intro node positive
    rw [number] at positive
    by_contra different
    rw [if_neg different] at positive
    omega
  constructor
  case sized => simp [visited, Numbering.visit, initial]
  case parentsSized => simp [visited, Numbering.visit, initial]
  case entered => rw [number, if_pos rfl]
  case order =>
    intro index node
    rw [number, order_visit]
    cases index with
    | zero => by_cases same : node = entry <;> simp [initial, same, Ne.symm]
    | succ index => by_cases same : node = entry <;> simp [initial, same]
  case parent =>
    intro node parent isParent
    rw [noParent] at isParent
    cases isParent
  case hasParent =>
    intro node later
    rw [number] at later
    split at later <;> omega
  case closed =>
    intro node next positive edge
    rcases Nat.eq_zero_or_pos (visited.number next) with unreached | reached
    · obtain rfl := isEntry positive
      exact .inr (mem_pushed.mpr ⟨edge, unreached, rfl⟩)
    · exact .inl reached
  case forward =>
    intro node next edge positive ordered
    rw [isEntry positive, isEntry (Nat.lt_trans positive ordered)]
    exact .refl
  case interval =>
    intro above middle node ancestor positive from_above to_node
    rw [isEntry positive, isEntry (Nat.lt_of_lt_of_le positive from_above)]
    exact .refl
  case waiting =>
    intro next parent member
    obtain ⟨edge, unseen, equal⟩ := mem_pushed.mp member
    refine ⟨entry, equal, by simp [number], edge, fun later ordered => ?_⟩
    rw [number, if_pos rfl] at ordered
    rw [isEntry ordered]
    exact .refl
  case stacked =>
    rw [pushed, List.pairwise_map]
    exact List.pairwise_of_forall fun upper lower node equal => ⟨node, equal, Nat.le_refl _⟩

theorem explores_ofSearch (inRange : graph.InRange) (inGraph : entry < graph.size) :
    Explores graph [(entry, none)] (initial graph.size) (ofSearch graph entry) := by
  have opened : openEdges graph (initial graph.size) = graph.edgeCount := by
    simp [openEdges, number_initial, edgeCount_eq_sum]
  refine explores_explore inRange _ (by simp [initial]) ?_ ?_
  · exact fun item member => List.mem_singleton.mp member ▸ inGraph
  · rw [opened, List.length_singleton, Nat.add_comm]

theorem depthFirst_ofSearch (inRange : graph.InRange) (inGraph : entry < graph.size) :
    DepthFirst graph entry (ofSearch graph entry) := by
  have searched : Searching graph entry [] (ofSearch graph entry) := by
    cases explores_ofSearch inRange inGraph with
    | skip reached rest => exact absurd (number_initial graph.size entry) reached
    | visit unreached rest =>
        rw [List.append_nil] at rest
        exact rest.searching inRange (searching_entered inGraph)
  exact { searched with
    closed := fun node next positive edge =>
      (searched.closed node next positive edge).resolve_right List.not_mem_nil }

/-! ## What was numbered -/

/-- The node with the given number. -/
def nodeAt (numbering : Numbering) (number : Nat) : Nat := numbering.order.getD (number - 1) 0

/-- The nodes that `entry` reaches have the numbers from one on, and `nodeAt` leads back. A node
other than `entry` was found from a node with a smaller number, and an edge that leads to a greater
number leads to a descendant. -/
structure Enumerates (graph : Adjacency) (entry : Nat) (numbering : Numbering) : Prop where
  isReached : ∀ node, numbering.isReached node = true ↔ graph.Reachable [entry] node
  numbers : Set.BijOn numbering.number {node | graph.Reachable [entry] node}
    (Set.Icc 1 numbering.count)
  inverse : Set.InvOn numbering.nodeAt numbering.number {node | graph.Reachable [entry] node}
    (Set.Icc 1 numbering.count)
  parent : ∀ node, graph.Reachable [entry] node → node ≠ entry → ∃ parent,
    numbering.parent? node = some parent ∧ graph.Reachable [entry] parent ∧
      node ∈ graph.successors parent ∧ numbering.number parent < numbering.number node
  forward : ∀ node next, graph.Reachable [entry] node → next ∈ graph.successors node →
    numbering.number node < numbering.number next → numbering.Ancestor node next

namespace DepthFirst

private theorem enumerates (search : DepthFirst graph entry numbering) :
    numbering.Enumerates graph entry := by
  have reached : ∀ {node}, graph.Reachable [entry] node ↔ 0 < numbering.number node :=
    search.reachable_iff
  have ordered : ∀ node, graph.Reachable [entry] node →
      numbering.order[numbering.number node - 1]? = some node := by
    intro node isReached
    rw [search.order, Nat.sub_add_cancel (reached.mp isReached)]
  have numbered : ∀ number ∈ Set.Icc 1 numbering.count, ∃ node,
      numbering.order[number - 1]? = some node ∧ numbering.number node = number := by
    rintro number ⟨positive, bounded⟩
    have inBounds : number - 1 < numbering.order.size := by
      rw [Numbering.count] at bounded
      omega
    have found := Array.getElem?_eq_getElem inBounds
    refine ⟨_, found, ?_⟩
    rw [(search.order _ _).mp found, Nat.sub_add_cancel positive]
  constructor
  case isReached =>
    intro node
    rw [reached, Numbering.isReached, bne_iff_ne, Nat.pos_iff_ne_zero]
  case numbers =>
    refine ⟨fun node isReached => ⟨reached.mp isReached, search.number_le_count node⟩, ?_, ?_⟩
    · exact fun node isReached other _ equal => search.number_injective (reached.mp isReached) equal
    · intro number within
      obtain ⟨node, -, rfl⟩ := numbered number within
      exact ⟨node, reached.mpr within.1, rfl⟩
  case inverse =>
    constructor
    · intro node isReached
      rw [nodeAt, Array.getD_eq_getD_getElem?, ordered node isReached, Option.getD_some]
    · intro number within
      obtain ⟨node, found, equal⟩ := numbered number within
      rw [nodeAt, Array.getD_eq_getD_getElem?, found, Option.getD_some, equal]
  case parent =>
    intro node isReached different
    have first := search.entered
    have later : 1 < numbering.number node := by
      refine Nat.lt_of_le_of_ne (reached.mp isReached) fun equal => different ?_
      exact search.number_injective (reached.mp isReached) (equal.symm.trans first.symm)
    obtain ⟨parent, isParent⟩ := search.hasParent node later
    obtain ⟨positive, lower, edge⟩ := search.parent node parent isParent
    exact ⟨parent, isParent, reached.mpr positive, edge, lower⟩
  case forward =>
    exact fun node next isReached edge lower =>
      search.forward node next edge (reached.mp isReached) lower

end DepthFirst

/-- A depth-first search ends, and it has numbered what the entry reaches. -/
theorem search_enumerates (inRange : graph.InRange) (inGraph : entry < graph.size) :
    (∀ final, Explores graph [(entry, none)] (initial graph.size) final ↔
      final = ofSearch graph entry) ∧ (ofSearch graph entry).Enumerates graph entry := by
  have explores := explores_ofSearch inRange inGraph
  refine ⟨fun final => ⟨fun found => found.unique explores, ?_⟩,
    (depthFirst_ofSearch inRange inGraph).enumerates⟩
  rintro rfl
  exact explores

/-- Node four is not reached, an edge is there twice, and one leads from a node to itself. -/
theorem search_enumerates_doubled :
    let graph : Adjacency := ⟨#[[2, 1, 1], [0, 1, 3], [3], [1], [0]]⟩
    (graph.InRange ∧ 0 < graph.size) ∧ (ofSearch graph 0).Enumerates graph 0 ∧
      ¬ graph.Reachable [0] 4 ∧ (ofSearch graph 0).Ancestor 2 1 := by
  intro graph
  have inRange : graph.InRange := by decide
  have inGraph : 0 < graph.size := by decide
  have enumerates := (search_enumerates inRange inGraph).2
  have isReached : ∀ node, (ofSearch graph 0).isReached node = true → graph.Reachable [0] node :=
    fun node => (enumerates.isReached node).mp
  refine ⟨⟨inRange, inGraph⟩, enumerates, ?_, ?_⟩
  · rw [← enumerates.isReached]
    decide
  · have above := enumerates.forward 2 3 (isReached 2 (by decide)) (by decide)
      (by decide)
    have below := enumerates.forward 3 1 (isReached 3 (by decide)) (by decide)
      (by decide)
    exact above.trans below

end Numbering

end SlotVersioning
