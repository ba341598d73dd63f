import Mathlib.Data.List.Basic
import Mathlib.Data.List.Nodup
import Mathlib.Data.List.Perm.Subperm
import SlotVersioning.Dominance.Numbering
import SlotVersioning.Proofs.Dominance.Paths

/-!
# What a depth-first search finds

`Numbering.DepthFirst` collects the facts about a finished search that the dominator algorithm
uses: edges to higher numbers lead to descendants, and the descendants of a node have consecutive
numbers. `Searching` is the same with a stack of pending nodes, kept by every step of the search.
-/

namespace SlotVersioning

namespace Numbering

/-- `above` is met on the way from `node` to the entry over parents; a node is above itself. -/
inductive Ancestor (numbering : Numbering) (above : Nat) : (node : Nat) → Prop
  | refl : Ancestor numbering above above
  | up {parent node : Nat} (isParent : numbering.parent? node = some parent)
      (rest : Ancestor numbering above parent) : Ancestor numbering above node

structure DepthFirst (graph : Adjacency) (entry : Nat) (numbering : Numbering) : Prop where
  sized : numbering.numbers.size = graph.size
  entered : numbering.number entry = 1
  order : ∀ index node, numbering.order[index]? = some node ↔ numbering.number node = index + 1
  parent : ∀ node parent, numbering.parent? node = some parent →
    0 < numbering.number parent ∧ numbering.number parent < numbering.number node ∧
      node ∈ graph.successors parent
  hasParent : ∀ node, 1 < numbering.number node → ∃ parent, numbering.parent? node = some parent
  closed : ∀ node next, 0 < numbering.number node → next ∈ graph.successors node →
    0 < numbering.number next
  /-- An edge to a node that was numbered later leads to a descendant. -/
  forward : ∀ node next, next ∈ graph.successors node → 0 < numbering.number node →
    numbering.number node < numbering.number next → numbering.Ancestor node next
  /-- The descendants of a node are numbered consecutively. -/
  interval : ∀ above middle node, numbering.Ancestor above node → 0 < numbering.number above →
    numbering.number above ≤ numbering.number middle →
    numbering.number middle ≤ numbering.number node → numbering.Ancestor above middle

/-! ## Ancestors -/

variable {numbering : Numbering} {graph : Adjacency} {entry : Nat} {above middle node parent : Nat}
variable {pending : List (Nat × Option Nat)}

namespace Ancestor

theorem trans (first : numbering.Ancestor above middle) (second : numbering.Ancestor middle node) :
    numbering.Ancestor above node := by
  induction second with
  | refl => exact first
  | up isParent rest induction => exact .up isParent induction

/-- An ancestor of a node is the node itself or an ancestor of its parent. -/
theorem cases_parent (ancestor : numbering.Ancestor above node) :
    above = node ∨ ∃ parent, numbering.parent? node = some parent ∧
      numbering.Ancestor above parent := by
  cases ancestor with
  | refl => exact .inl rfl
  | up isParent rest => exact .inr ⟨_, isParent, rest⟩

/-- A strict ancestor of a node is an ancestor of its parent. -/
theorem of_isParent (ancestor : numbering.Ancestor above node)
    (isParent : numbering.parent? node = some parent) (different : above ≠ node) :
    numbering.Ancestor above parent := by
  rcases ancestor.cases_parent with same | ⟨found, isFound, rest⟩
  · exact absurd same different
  · obtain rfl := Option.some.inj (isParent.symm.trans isFound)
    exact rest

/-- A strict ancestor has a child on the way to its descendant. -/
theorem exists_child (ancestor : numbering.Ancestor above node) (different : above ≠ node) :
    ∃ child, numbering.parent? child = some above ∧ numbering.Ancestor child node := by
  induction ancestor with
  | refl => exact absurd rfl different
  | @up parent node isParent rest induction =>
      by_cases direct : above = parent
      · exact ⟨node, direct ▸ isParent, .refl⟩
      · obtain ⟨child, isChild, ancestor⟩ := induction direct
        exact ⟨child, isChild, ancestor.trans (.up isParent .refl)⟩

end Ancestor

theorem lt_size_of_reached (reached : 0 < numbering.number node) :
    node < numbering.numbers.size := by
  by_contra outside
  have zero : numbering.number node = 0 := by
    simp [number, Array.getElem?_eq_none (Nat.le_of_not_lt outside)]
  omega

/-- A node has at most one number. -/
theorem count_le_size
    (order : ∀ index node, numbering.order[index]? = some node ↔
      numbering.number node = index + 1) :
    numbering.count ≤ numbering.numbers.size := by
  have distinct : numbering.order.toList.Nodup := by
    rw [List.nodup_iff_getElem?_ne_getElem?]
    intro first second ordered inBounds equal
    rw [Array.length_toList] at inBounds
    rw [Array.getElem?_toList, Array.getElem?_toList, Array.getElem?_eq_getElem inBounds] at equal
    have later := (order second _).mp (Array.getElem?_eq_getElem inBounds)
    have earlier := (order first _).mp equal
    omega
  have inside : numbering.order.toList ⊆ List.range numbering.numbers.size := by
    intro reached member
    obtain ⟨index, found⟩ := List.mem_iff_getElem?.mp member
    rw [Array.getElem?_toList, order] at found
    exact List.mem_range.mpr (lt_size_of_reached (by omega))
  have counted := (List.subperm_of_subset distinct inside).length_le
  rwa [Array.length_toList, List.length_range] at counted

/-! ## One step of the search -/

@[simp]
theorem count_visit (node : Nat) (parent : Option Nat) :
    (numbering.visit node parent).count = numbering.count + 1 := by
  simp [visit, count]

theorem number_visit (inBounds : node < numbering.numbers.size) (parent : Option Nat)
    (other : Nat) :
    (numbering.visit node parent).number other =
      if other = node then numbering.count + 1 else numbering.number other := by
  by_cases same : other = node
  · subst same
    simp [number, visit, inBounds]
  · simp [number, visit, same, Ne.symm same]

theorem parent_visit (inBounds : node < numbering.parents.size) (parent : Option Nat)
    (other : Nat) :
    (numbering.visit node parent).parent? other =
      if other = node then parent else numbering.parent? other := by
  by_cases same : other = node
  · subst same
    simp [parent?, visit, inBounds]
  · simp [parent?, visit, same, Ne.symm same]

theorem order_visit (node : Nat) (parent : Option Nat) :
    (numbering.visit node parent).order = numbering.order.push node := rfl

/-- What a visit of `node` puts on the stack. -/
def pushed (graph : Adjacency) (visited : Numbering) (node : Nat) : List (Nat × Option Nat) :=
  ((graph.successors node).filter fun next => !visited.isReached next).map (·, some node)

theorem mem_pushed {item : Nat × Option Nat} : item ∈ pushed graph numbering node ↔
    item.1 ∈ graph.successors node ∧ numbering.number item.1 = 0 ∧ item.2 = some node := by
  obtain ⟨next, parent⟩ := item
  simp only [pushed, List.mem_map, List.mem_filter, isReached, Prod.mk.injEq]
  constructor
  · rintro ⟨target, ⟨edge, unseen⟩, rfl, rfl⟩
    exact ⟨edge, by simpa using unseen, rfl⟩
  · rintro ⟨edge, unseen, rfl⟩
    exact ⟨next, ⟨edge, by simpa using unseen⟩, rfl, rfl⟩

/-- What holds while the nodes of `pending` are still to be searched from. The parents that wait on
the stack lie on one path, the last one deepest, and all that was numbered after one of them lies
below it. -/
structure Searching (graph : Adjacency) (entry : Nat) (pending : List (Nat × Option Nat))
    (numbering : Numbering) : Prop where
  sized : numbering.numbers.size = graph.size
  parentsSized : numbering.parents.size = graph.size
  entered : numbering.number entry = 1
  order : ∀ index node, numbering.order[index]? = some node ↔ numbering.number node = index + 1
  parent : ∀ node parent, numbering.parent? node = some parent →
    0 < numbering.number parent ∧ numbering.number parent < numbering.number node ∧
      node ∈ graph.successors parent
  hasParent : ∀ node, 1 < numbering.number node → ∃ parent, numbering.parent? node = some parent
  closed : ∀ node next, 0 < numbering.number node → next ∈ graph.successors node →
    0 < numbering.number next ∨ (next, some node) ∈ pending
  forward : ∀ node next, next ∈ graph.successors node → 0 < numbering.number node →
    numbering.number node < numbering.number next → numbering.Ancestor node next
  interval : ∀ above middle node, numbering.Ancestor above node → 0 < numbering.number above →
    numbering.number above ≤ numbering.number middle →
    numbering.number middle ≤ numbering.number node → numbering.Ancestor above middle
  waiting : ∀ next parent, (next, parent) ∈ pending →
    ∃ node, parent = some node ∧ 0 < numbering.number node ∧ next ∈ graph.successors node ∧
      ∀ later, numbering.number node ≤ numbering.number later → numbering.Ancestor node later
  stacked : pending.Pairwise fun upper lower => ∀ node, lower.2 = some node →
    ∃ deeper, upper.2 = some deeper ∧ numbering.number node ≤ numbering.number deeper

namespace Searching

theorem number_le_count (searching : Searching graph entry pending numbering) (node : Nat) :
    numbering.number node ≤ numbering.count := by
  cases equal : numbering.number node with
  | zero => exact Nat.zero_le _
  | succ index =>
      have found := (searching.order index node).mpr equal
      exact (Array.getElem?_eq_some_iff.mp found).1

theorem skip {head : Nat × Option Nat}
    (searching : Searching graph entry (head :: pending) numbering)
    (reached : numbering.isReached head.1 = true) :
    Searching graph entry pending numbering where
  __ := searching
  closed := by
    intro node next positive edge
    rcases searching.closed node next positive edge with numbered | member
    · exact .inl numbered
    · rcases List.mem_cons.mp member with rfl | member
      · left
        simpa [isReached, Nat.pos_iff_ne_zero] using reached
      · exact .inr member
  waiting := fun next parent member => searching.waiting next parent (List.mem_cons_of_mem _ member)
  stacked := searching.stacked.of_cons

/-! ### Visiting the top of the stack -/

section Visiting

variable {fresh : Nat}

theorem fresh_lt (searching : Searching graph entry ((fresh, some parent) :: pending) numbering)
    (inRange : graph.InRange) : fresh < graph.size := by
  obtain ⟨node, -, -, edge, -⟩ := searching.waiting _ _ List.mem_cons_self
  exact inRange node fresh edge

theorem top (searching : Searching graph entry ((fresh, some parent) :: pending) numbering) :
    0 < numbering.number parent ∧ fresh ∈ graph.successors parent ∧
      ∀ later, numbering.number parent ≤ numbering.number later →
        numbering.Ancestor parent later := by
  obtain ⟨node, equal, facts⟩ := searching.waiting _ _ List.mem_cons_self
  obtain rfl := Option.some.inj equal
  exact facts

/-- A node that waits anywhere on the stack waits at or above the parent of its top. -/
theorem above_top (searching : Searching graph entry ((fresh, some parent) :: pending) numbering)
    {next : Nat} (member : (next, some node) ∈ (fresh, some parent) :: pending) :
    numbering.Ancestor node parent := by
  rcases List.mem_cons.mp member with equal | lower
  · obtain rfl := Option.some.inj (congrArg Prod.snd equal)
    exact .refl
  · obtain ⟨deeper, equal, ordered⟩ :=
      (List.pairwise_cons.mp searching.stacked).1 _ lower node rfl
    obtain rfl := Option.some.inj equal
    obtain ⟨other, equal, -, -, below⟩ := searching.waiting _ _ member
    obtain rfl := Option.some.inj equal
    exact below _ ordered

private theorem noParent (searching : Searching graph entry pending numbering)
    (unreached : numbering.number node = 0) : numbering.parent? node = none := by
  cases found : numbering.parent? node with
  | none => rfl
  | some parent =>
      have positive := searching.parent node parent found
      omega

section

variable (searching : Searching graph entry ((fresh, some parent) :: pending) numbering)
variable (inRange : graph.InRange) (unreached : numbering.number fresh = 0)

include searching inRange

theorem number_fresh (other : Nat) : (numbering.visit fresh (some parent)).number other =
    if other = fresh then numbering.count + 1 else numbering.number other :=
  number_visit (searching.sized ▸ searching.fresh_lt inRange) _ other

theorem parent_fresh (other : Nat) : (numbering.visit fresh (some parent)).parent? other =
    if other = fresh then some parent else numbering.parent? other :=
  parent_visit (searching.parentsSized ▸ searching.fresh_lt inRange) _ other

include unreached

theorem ancestor_visit (ancestor : numbering.Ancestor above node) :
    (numbering.visit fresh (some parent)).Ancestor above node := by
  induction ancestor with
  | refl => exact .refl
  | @up middle node isParent rest induction =>
      have different : node ≠ fresh := by
        rintro rfl
        rw [searching.noParent unreached] at isParent
        cases isParent
      refine .up ?_ induction
      rw [searching.parent_fresh inRange, if_neg different]
      exact isParent

private theorem ancestor_of_visit
    (ancestor : (numbering.visit fresh (some parent)).Ancestor above node)
    (different : node ≠ fresh) : numbering.Ancestor above node := by
  induction ancestor with
  | refl => exact .refl
  | up isParent rest induction =>
      rw [searching.parent_fresh inRange, if_neg different] at isParent
      have positive := (searching.parent _ _ isParent).1
      refine .up isParent (induction ?_)
      rintro rfl
      omega

theorem ancestor_visit_fresh (ancestor : numbering.Ancestor above parent) :
    (numbering.visit fresh (some parent)).Ancestor above fresh := by
  refine .up ?_ (searching.ancestor_visit inRange unreached ancestor)
  rw [searching.parent_fresh inRange, if_pos rfl]

theorem number_kept (positive : 0 < numbering.number node) :
    (numbering.visit fresh (some parent)).number node = numbering.number node := by
  rw [searching.number_fresh inRange, if_neg]
  rintro rfl
  omega

private theorem order_visited (index node : Nat) :
    (numbering.visit fresh (some parent)).order[index]? = some node ↔
      (numbering.visit fresh (some parent)).number node = index + 1 := by
  rw [searching.number_fresh inRange, order_visit, Array.getElem?_push]
  have known := searching.order index node
  by_cases last : index = numbering.order.size
  · subst last
    have outside := searching.number_le_count node
    rw [if_pos rfl, Option.some_inj]
    by_cases same : node = fresh
    · simp [same, count]
    · rw [if_neg same]
      constructor
      · exact fun equal => absurd equal.symm same
      · intro equal
        rw [equal] at outside
        exact absurd outside (Nat.not_succ_le_self _)
  · rw [if_neg last, known]
    by_cases same : node = fresh
    · subst same
      rw [if_pos rfl, unreached]
      simp only [count]
      omega
    · rw [if_neg same]

omit unreached in
/-- What is numbered no later than a node that was numbered before is no fresh node either. -/
theorem number_le_of_old (old : node ≠ fresh)
    (ordered : (numbering.visit fresh (some parent)).number middle ≤
      (numbering.visit fresh (some parent)).number node) :
    middle ≠ fresh ∧ numbering.number middle ≤ numbering.number node := by
  rw [searching.number_fresh inRange, searching.number_fresh inRange, if_neg old] at ordered
  have bound := searching.number_le_count node
  by_cases same : middle = fresh
  · rw [if_pos same] at ordered
    omega
  · rw [if_neg same] at ordered
    exact ⟨same, ordered⟩

omit inRange unreached in
/-- All nodes that were numbered after an ancestor of the parent at the top are its descendants. -/
private theorem interval_top (ancestor : numbering.Ancestor above parent)
    (positive : 0 < numbering.number above)
    (ordered : numbering.number above ≤ numbering.number middle) :
    numbering.Ancestor above middle := by
  obtain ⟨-, -, below⟩ := searching.top
  rcases Nat.le_total (numbering.number parent) (numbering.number middle) with deep | shallow
  · exact ancestor.trans (below middle deep)
  · exact searching.interval above middle parent ancestor positive ordered shallow

private theorem interval_visited
    (ancestor : (numbering.visit fresh (some parent)).Ancestor above node)
    (positive : 0 < (numbering.visit fresh (some parent)).number above)
    (from_above : (numbering.visit fresh (some parent)).number above ≤
      (numbering.visit fresh (some parent)).number middle)
    (to_node : (numbering.visit fresh (some parent)).number middle ≤
      (numbering.visit fresh (some parent)).number node) :
    (numbering.visit fresh (some parent)).Ancestor above middle := by
  by_cases middleOld : middle = fresh
  · -- the fresh node has the last number, so that `node` is the fresh node, too
    by_cases nodeOld : node = fresh
    · obtain rfl : middle = node := middleOld.trans nodeOld.symm
      exact ancestor
    · exact absurd middleOld (searching.number_le_of_old inRange nodeOld to_node).1
  · obtain ⟨aboveOld, fromAbove⟩ :=
      searching.number_le_of_old inRange middleOld from_above
    rw [searching.number_fresh inRange, if_neg aboveOld] at positive
    apply searching.ancestor_visit inRange unreached
    by_cases nodeOld : node = fresh
    · subst nodeOld
      rcases ancestor.cases_parent with same | ⟨higher, isParent, rest⟩
      · exact absurd same aboveOld
      · rw [searching.parent_fresh inRange, if_pos rfl] at isParent
        obtain rfl := Option.some.inj isParent
        have parentOld : parent ≠ node := by
          rintro rfl
          have := searching.top.1
          omega
        exact searching.interval_top
          (searching.ancestor_of_visit inRange unreached rest parentOld) positive fromAbove
    · exact searching.interval above middle node
        (searching.ancestor_of_visit inRange unreached ancestor nodeOld) positive fromAbove
        (searching.number_le_of_old inRange nodeOld to_node).2

private theorem forward_visited (next : Nat) (edge : next ∈ graph.successors node)
    (positive : 0 < (numbering.visit fresh (some parent)).number node)
    (ordered : (numbering.visit fresh (some parent)).number node <
      (numbering.visit fresh (some parent)).number next) :
    (numbering.visit fresh (some parent)).Ancestor node next := by
  have nodeOld : node ≠ fresh := by
    intro same
    rw [searching.number_fresh inRange, searching.number_fresh inRange, if_pos same] at ordered
    have bound := searching.number_le_count next
    split at ordered <;> omega
  rw [searching.number_fresh inRange, if_neg nodeOld] at positive
  by_cases nextOld : next = fresh
  · subst nextOld
    rcases searching.closed node next positive edge with numbered | member
    · omega
    · exact searching.ancestor_visit_fresh inRange unreached (searching.above_top member)
  · apply searching.ancestor_visit inRange unreached
    rw [searching.number_fresh inRange, searching.number_fresh inRange, if_neg nodeOld,
      if_neg nextOld] at ordered
    exact searching.forward node next edge positive ordered

/-- A node that waits on the stack keeps all later nodes below it. -/
private theorem below_visited {next : Nat}
    (member : (next, some node) ∈ (fresh, some parent) :: pending)
    (later : Nat) (ordered : numbering.number node ≤
      (numbering.visit fresh (some parent)).number later) :
    (numbering.visit fresh (some parent)).Ancestor node later := by
  obtain ⟨other, equal, -, -, below⟩ := searching.waiting _ _ member
  obtain rfl := Option.some.inj equal
  by_cases laterOld : later = fresh
  · subst laterOld
    exact searching.ancestor_visit_fresh inRange unreached (searching.above_top member)
  · rw [searching.number_fresh inRange, if_neg laterOld] at ordered
    exact searching.ancestor_visit inRange unreached (below later ordered)

private theorem parent_visited
    (isParent : (numbering.visit fresh (some parent)).parent? node = some above) :
    0 < (numbering.visit fresh (some parent)).number above ∧
      (numbering.visit fresh (some parent)).number above <
        (numbering.visit fresh (some parent)).number node ∧
      node ∈ graph.successors above := by
  have number := searching.number_fresh inRange node
  rw [searching.parent_fresh inRange] at isParent
  by_cases nodeOld : node = fresh
  · obtain ⟨positive, edge, -⟩ := searching.top
    rw [if_pos nodeOld] at isParent number
    obtain rfl := Option.some.inj isParent
    have bound := searching.number_le_count parent
    rw [searching.number_kept inRange unreached positive, number]
    exact ⟨positive, by omega, nodeOld ▸ edge⟩
  · rw [if_neg nodeOld] at isParent number
    obtain ⟨positive, lower, edge⟩ := searching.parent node above isParent
    rw [searching.number_kept inRange unreached positive, number]
    exact ⟨positive, lower, edge⟩

omit unreached in
private theorem closed_visited (next : Nat)
    (positive : 0 < (numbering.visit fresh (some parent)).number node)
    (edge : next ∈ graph.successors node) :
    0 < (numbering.visit fresh (some parent)).number next ∨
      (next, some node) ∈
        pushed graph (numbering.visit fresh (some parent)) fresh ++ pending := by
  rw [List.mem_append, mem_pushed]
  by_cases reached : (numbering.visit fresh (some parent)).number next = 0
  · right
    rw [searching.number_fresh inRange] at positive
    by_cases nodeOld : node = fresh
    · exact .inl ⟨nodeOld ▸ edge, reached, congrArg some nodeOld⟩
    · right
      rw [if_neg nodeOld] at positive
      rw [searching.number_fresh inRange] at reached
      have nextOld : next ≠ fresh := by
        intro same
        rw [if_pos same] at reached
        omega
      rw [if_neg nextOld] at reached
      rcases searching.closed node next positive edge with numbered | member
      · omega
      · refine (List.mem_cons.mp member).resolve_left fun equal => ?_
        exact nextOld (congrArg Prod.fst equal)
  · exact .inl (Nat.pos_of_ne_zero reached)

private theorem waiting_visited (next : Nat) (other : Option Nat)
    (member : (next, other) ∈
      pushed graph (numbering.visit fresh (some parent)) fresh ++ pending) :
    ∃ node, other = some node ∧ 0 < (numbering.visit fresh (some parent)).number node ∧
      next ∈ graph.successors node ∧
      ∀ later, (numbering.visit fresh (some parent)).number node ≤
          (numbering.visit fresh (some parent)).number later →
        (numbering.visit fresh (some parent)).Ancestor node later := by
  rw [List.mem_append, mem_pushed] at member
  rcases member with ⟨edge, -, rfl⟩ | lower
  · refine ⟨fresh, rfl, ?_, edge, fun later ordered => ?_⟩
    · rw [searching.number_fresh inRange, if_pos rfl]
      omega
    · by_cases laterOld : later = fresh
      · exact laterOld ▸ .refl
      · exact absurd rfl (searching.number_le_of_old inRange laterOld ordered).1
  · have member := List.mem_cons_of_mem (fresh, some parent) lower
    obtain ⟨node, rfl, positive, edge, -⟩ := searching.waiting _ _ member
    have kept := searching.number_kept inRange unreached positive
    refine ⟨node, rfl, kept ▸ positive, edge, fun later ordered => ?_⟩
    exact searching.below_visited inRange unreached member later (kept ▸ ordered)

private theorem stacked_visited :
    (pushed graph (numbering.visit fresh (some parent)) fresh ++ pending).Pairwise
      fun upper lower => ∀ node, lower.2 = some node → ∃ deeper, upper.2 = some deeper ∧
        (numbering.visit fresh (some parent)).number node ≤
          (numbering.visit fresh (some parent)).number deeper := by
  rw [List.pairwise_append]
  refine ⟨?_, ?_, ?_⟩
  · rw [pushed, List.pairwise_map]
    exact List.pairwise_of_forall fun upper lower node equal => ⟨node, equal, Nat.le_refl _⟩
  · refine (List.pairwise_cons.mp searching.stacked).2.imp_of_mem ?_
    intro upper lower upperMember lowerMember ordered node equal
    obtain ⟨deeper, found, below⟩ := ordered node equal
    refine ⟨deeper, found, ?_⟩
    have positive : ∀ {item : Nat × Option Nat} {node}, item ∈ pending → item.2 = some node →
        0 < numbering.number node := by
      intro item node member equal
      obtain ⟨other, same, positive, -⟩ :=
        searching.waiting item.1 item.2 (List.mem_cons_of_mem _ member)
      exact Option.some.inj (equal.symm.trans same) ▸ positive
    rwa [searching.number_kept inRange unreached (positive lowerMember equal),
      searching.number_kept inRange unreached (positive upperMember found)]
  · intro upper upperMember lower lowerMember node equal
    refine ⟨fresh, (mem_pushed.mp upperMember).2.2, ?_⟩
    rw [searching.number_fresh inRange, searching.number_fresh inRange, if_pos rfl]
    have := searching.number_le_count node
    split <;> omega

theorem visit :
    Searching graph entry (pushed graph (numbering.visit fresh (some parent)) fresh ++ pending)
      (numbering.visit fresh (some parent)) where
  sized := by simpa [Numbering.visit] using searching.sized
  parentsSized := by simpa [Numbering.visit] using searching.parentsSized
  entered := by
    have entered := searching.entered
    rw [searching.number_kept inRange unreached (by omega), entered]
  order := searching.order_visited inRange unreached
  parent := fun _ _ isParent => searching.parent_visited inRange unreached isParent
  hasParent := by
    intro node later
    rw [searching.parent_fresh inRange]
    rw [searching.number_fresh inRange] at later
    by_cases nodeOld : node = fresh
    · exact ⟨parent, if_pos nodeOld⟩
    · rw [if_neg nodeOld] at later ⊢
      exact searching.hasParent node later
  closed := fun _ next positive edge =>
    searching.closed_visited inRange next positive edge
  forward := fun _ next edge positive ordered =>
    searching.forward_visited inRange unreached next edge positive ordered
  interval := fun _ _ _ ancestor positive from_above to_node =>
    searching.interval_visited inRange unreached ancestor positive from_above to_node
  waiting := searching.waiting_visited inRange unreached
  stacked := searching.stacked_visited inRange unreached

end

end Visiting

end Searching

end Numbering

end SlotVersioning
