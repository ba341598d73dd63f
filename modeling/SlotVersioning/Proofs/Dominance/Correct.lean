import SlotVersioning.Dominance.Tree
import SlotVersioning.Proofs.Dominance.Sweep
import SlotVersioning.Proofs.Dominance.Traversal

/-!
# The dominator tree is right

The ascending sweep replaces what the descending one left open, so that every node has its closest
dominator below the virtual root. `DominatorTree.dominates` then agrees with dominance by paths.
-/

namespace SlotVersioning

open SlotVersioning.Numbering

/-! ## The ascending sweep -/

namespace Semidominance

variable {graph : Adjacency} {entry : Nat} {numbering : Numbering} {bound node dominator : Nat}
variable {state : Semidominance} {immediate : Array (Option Nat)}

/-- The nodes up to `bound` in number have their closest dominators, the others what the descending
sweep found. -/
structure Settled (graph : Adjacency) (entry : Nat) (numbering : Numbering) (bound : Nat)
    (state : Semidominance) (immediate : Array (Option Nat)) : Prop where
  sized : immediate.size = numbering.numbers.size
  closest : ∀ node, 1 < numbering.number node → numbering.number node ≤ bound →
    ∃ dominator, immediate.getD node none = some dominator ∧
      graph.DominatesClosest [entry] dominator node
  kept : ∀ node, numbering.number node ≤ 1 ∨ bound < numbering.number node →
    immediate.getD node none = state.immediate? node

private theorem settle_other {other : Nat} (different : other ≠ node) :
    (state.settle immediate node).getD other none = immediate.getD other none := by
  rw [settle]
  split
  · rfl
  · simp [Ne.symm different]

private theorem settle_closed (found : immediate.getD node none = some (state.semidominator node)) :
    (state.settle immediate node).getD node none = some (state.semidominator node) := by
  rw [settle, if_pos found, found]

private theorem settle_open {other : Nat} (inBounds : node < immediate.size)
    (found : immediate.getD node none = some other) (isOpen : other ≠ state.semidominator node) :
    (state.settle immediate node).getD node none = immediate.getD other none := by
  rw [settle, found, if_neg fun equal => isOpen (Option.some.inj equal)]
  simp [inBounds]

private theorem size_settle : (state.settle immediate node).size = immediate.size := by
  rw [settle]
  split
  · rfl
  · exact Array.size_setIfInBounds

section

variable (search : DepthFirst graph entry numbering) (swept : Swept graph numbering 1 none state)

include search swept

theorem resolved_of_swept (later : 1 < numbering.number node) :
    ∃ dominator, state.immediate? node = some dominator ∧
      Resolved graph numbering node dominator := by
  rcases swept.settled node later with waits | resolved
  · obtain ⟨-, -, unlinked⟩ := swept.waits _ node waits
    have semidominator := swept.found node later
    have ancestor := search.ancestor_of_semidominator semidominator later
    obtain ⟨child, isChild, below⟩ := ancestor.exists_child fun same => by
      have lower := search.semidominator_lt semidominator later
      rw [same] at lower
      exact Nat.lt_irrefl _ lower
    have low := unlinked (Option.some_ne_none _).symm child below isChild
    obtain ⟨reached, higher, -⟩ := search.parent child _ isChild
    omega
  · exact resolved

/-- One node of the ascending sweep: a node whose dominator was left open takes that of the node
with which it shares it. -/
theorem Settled.settle (settled : Settled graph entry numbering bound state immediate)
    (last : numbering.number node = bound + 1) (positive : 0 < bound) :
    Settled graph entry numbering (bound + 1) state (state.settle immediate node) := by
  have later : 1 < numbering.number node := by omega
  have inBounds : node < immediate.size := by
    rw [settled.sized]
    exact lt_size_of_reached (Nat.zero_lt_of_lt later)
  obtain ⟨current, isCurrent, semidominator, isSemidominator, outcome⟩ :=
    resolved_of_swept search swept later
  have found : immediate.getD node none = some current := by
    rw [settled.kept node (.inr (by omega)), isCurrent]
  have same : state.semidominator node = semidominator :=
    search.semidominator_unique (swept.found node later) isSemidominator
  have closest : ∃ dominator, (state.settle immediate node).getD node none = some dominator ∧
      graph.DominatesClosest [entry] dominator node := by
    rcases outcome with ⟨rfl, least⟩ | ⟨lowest, between, isLowest, lower, least⟩
    · rw [← same] at found
      exact ⟨current, same ▸ settle_closed found, search.closest_of_least later isSemidominator least⟩
    · have above := search.number_le_of_ancestor between.onPath
      have after := between.after
      have reached := isSemidominator.candidate.1
      have different : current ≠ node := fun equal => by
        rw [equal] at isLowest
        rw [search.semidominator_unique isLowest isSemidominator] at lower
        exact Nat.lt_irrefl _ lower
      have before := search.number_lt_of_ancestor between.onPath different
      obtain ⟨dominator, shared, isClosest⟩ := settled.closest current (by omega) (by omega)
      refine ⟨dominator, ?_, isClosest.congr fun above =>
        search.dominates_iff_of_least later isSemidominator between isLowest lower least⟩
      rw [settle_open inBounds found fun equal => ?_, shared]
      rw [equal, same] at after
      exact Nat.lt_irrefl _ after
  constructor
  case sized => rw [size_settle, settled.sized]
  case closest =>
    intro other otherLater low
    by_cases isLast : other = node
    · exact isLast ▸ closest
    · rw [settle_other isLast]
      refine settled.closest other otherLater (Nat.le_of_lt_succ (Nat.lt_of_le_of_ne low ?_))
      exact fun equal =>
        isLast (search.number_injective (Nat.zero_lt_of_lt otherLater) (equal.trans last.symm))
  case kept =>
    intro other outside
    rw [settle_other (fun isLast => by subst isLast; omega)]
    exact settled.kept other (by omega)

omit search in
theorem settled_start : Settled graph entry numbering 1 state state.immediate where
  sized := swept.immediateSized
  closest := fun _ later low => absurd later (Nat.not_lt_of_le low)
  kept := fun _ _ => rfl

/-- After the ascending sweep every node but the entry has its closest dominator. -/
theorem settled_foldl :
    Settled graph entry numbering numbering.count state
      ((numbering.order.toList.drop 1).foldl state.settle state.immediate) := by
  have folded : ∀ (nodes : List Nat) (bound : Nat) (immediate : Array (Option Nat)), 0 < bound →
      (∀ index node, nodes[index]? = some node → numbering.number node = bound + index + 1) →
      Settled graph entry numbering bound state immediate →
      Settled graph entry numbering (bound + nodes.length) state
        (nodes.foldl state.settle immediate) := by
    intro nodes
    induction nodes with
    | nil => exact fun bound immediate _ _ settled => settled
    | cons node nodes induction =>
        intro bound immediate positive numbered settled
        have next := settled.settle search swept (numbered 0 node rfl) positive
        rw [List.foldl_cons, List.length_cons, Nat.add_comm nodes.length, ← Nat.add_assoc]
        refine induction (bound + 1) _ (Nat.succ_pos _) (fun index other found => ?_) next
        rw [numbered (index + 1) other found]
        omega
  have all := folded (numbering.order.toList.drop 1) 1 state.immediate Nat.one_pos
    (number_drop search) (settled_start swept)
  exact length_drop search ▸ all

end

end Semidominance

/-! ## The tree -/

namespace DominatorTree

section

variable {graph : Adjacency} {roots : List Nat} {node dominator : Nat}
variable (inRange : graph.InRange) (rootsInRange : ∀ root ∈ roots, root < graph.size)

include inRange rootsInRange

/-- The search from the virtual root. -/
theorem depthFirst_rooted : DepthFirst (graph.withVirtualRoot roots) graph.size
    (ofSearch (graph.withVirtualRoot roots) graph.size) := by
  apply depthFirst_ofSearch (Adjacency.inRange_withVirtualRoot inRange rootsInRange)
  rw [Adjacency.size_withVirtualRoot]
  exact Nat.lt_succ_self _

/-- What is stored for a real node: its closest dominator below the virtual root, and that exists
if a path leads to the node. -/
theorem stored_compute (inside : node < graph.size) :
    (∀ dominator, (compute graph roots).immediate.getD node none = some dominator →
      (graph.withVirtualRoot roots).DominatesClosest [graph.size] dominator node) ∧
    (graph.Reachable roots node →
      ∃ dominator, (compute graph roots).immediate.getD node none = some dominator) := by
  have search := depthFirst_rooted inRange rootsInRange
  have swept := Semidominance.swept_sweep search
  have settled := Semidominance.settled_foldl search swept
  have stored : (compute graph roots).immediate.getD node none =
      (((ofSearch (graph.withVirtualRoot roots) graph.size).order.toList.drop 1).foldl
        (Semidominance.sweep (ofSearch (graph.withVirtualRoot roots) graph.size)
          (graph.withVirtualRoot roots).predecessorLists
          (graph.withVirtualRoot roots).size).settle
        (Semidominance.sweep (ofSearch (graph.withVirtualRoot roots) graph.size)
          (graph.withVirtualRoot roots).predecessorLists
          (graph.withVirtualRoot roots).size).immediate).getD node none := by
    rw [compute]
    simp [Ne.symm (Nat.ne_of_lt inside)]
  rw [stored, ← Adjacency.reachable_withVirtualRoot inRange rootsInRange (Nat.ne_of_lt inside),
    search.reachable_iff]
  rcases Nat.eq_zero_or_pos ((ofSearch (graph.withVirtualRoot roots) graph.size).number node) with
    unreached | reached
  · rw [settled.kept node (.inl (by omega)), (swept.untouched node (by omega)).2]
    exact ⟨fun _ equal => absurd equal.symm (Option.some_ne_none _), fun reached => by omega⟩
  · have later : 1 < (ofSearch (graph.withVirtualRoot roots) graph.size).number node := by
      refine Nat.lt_of_le_of_ne reached fun equal => Nat.ne_of_lt inside ?_
      exact search.number_injective reached (equal.symm.trans search.entered.symm)
    obtain ⟨closest, found, isClosest⟩ := settled.closest node later (search.number_le_count node)
    rw [found]
    exact ⟨fun other equal => Option.some.inj equal ▸ isClosest, fun _ => ⟨closest, rfl⟩⟩

theorem isReachable_compute (inside : node < graph.size) :
    (compute graph roots).isReachable node = true ↔ graph.Reachable roots node := by
  obtain ⟨sound, complete⟩ := stored_compute inRange rootsInRange inside
  rw [isReachable, Option.isSome_iff_exists]
  constructor
  · rintro ⟨dominator, found⟩
    exact (Adjacency.reachable_withVirtualRoot inRange rootsInRange (Nat.ne_of_lt inside)).mp
      (sound dominator found).dominates.reachable
  · exact complete

theorem immediate_compute (inside : node < graph.size) :
    (compute graph roots).immediate? node = some dominator ↔
      graph.DominatesClosest roots dominator node := by
  obtain ⟨sound, complete⟩ := stored_compute inRange rootsInRange inside
  have translate : ∀ {dominator}, dominator ≠ graph.size →
      ((graph.withVirtualRoot roots).DominatesClosest [graph.size] dominator node ↔
        graph.DominatesClosest roots dominator node) :=
    Adjacency.closest_withVirtualRoot inRange rootsInRange (Nat.ne_of_lt inside)
  rw [immediate?, Option.filter_eq_some_iff, Bool.and_eq_true, bne_iff_ne, bne_iff_ne]
  constructor
  · rintro ⟨found, real, -⟩
    exact (translate real).mp (sound dominator found)
  · intro closest
    have real := Nat.ne_of_lt (closest.dominates.lt_size inRange rootsInRange)
    obtain ⟨other, found⟩ := complete closest.dominates.reachable
    have same := (depthFirst_rooted inRange rootsInRange).closest_unique (sound other found)
      ((translate real).mpr closest)
    exact ⟨same ▸ found, real, closest.different⟩

private theorem dominates_antisymm_of_roots {above : Nat} (first : graph.Dominates roots above node)
    (second : graph.Dominates roots node above) : above = node := by
  have translate : ∀ {dominator node}, node ≠ graph.size → dominator ≠ graph.size →
      ((graph.withVirtualRoot roots).Dominates [graph.size] dominator node ↔
        graph.Dominates roots dominator node) :=
    Adjacency.dominates_withVirtualRoot inRange rootsInRange
  have aboveReal := Nat.ne_of_lt (first.lt_size inRange rootsInRange)
  have nodeReal := Nat.ne_of_lt (second.lt_size inRange rootsInRange)
  exact (depthFirst_rooted inRange rootsInRange).dominates_antisymm
    ((translate nodeReal aboveReal).mpr first) ((translate aboveReal nodeReal).mpr second)

/-- The strict dominators of a node are the dominators of its closest one. -/
private theorem dominates_of_immediate (inside : node < graph.size) :
    (dominator ≠ node ∧ graph.Dominates roots dominator node) ↔
      ∃ above, (compute graph roots).immediate? node = some above ∧
        graph.Dominates roots dominator above := by
  obtain ⟨sound, complete⟩ := stored_compute inRange rootsInRange inside
  have immediate := fun {above} =>
    (immediate_compute inRange rootsInRange inside : _ = some above ↔ _)
  constructor
  · rintro ⟨different, dominates⟩
    obtain ⟨above, found⟩ := complete dominates.reachable
    have closest := sound above found
    have dominatorReal := Nat.ne_of_lt (dominates.lt_size inRange rootsInRange)
    have real : above ≠ graph.size := by
      rintro rfl
      have rooted := (Adjacency.dominates_withVirtualRoot inRange rootsInRange
        (Nat.ne_of_lt inside) dominatorReal).mpr dominates
      have overRoot := closest.closest dominator different rooted
      exact dominatorReal ((depthFirst_rooted inRange rootsInRange).dominates_antisymm overRoot
        (Adjacency.dominates_start overRoot.reachable_dominator))
    have isClosest := (Adjacency.closest_withVirtualRoot inRange rootsInRange
      (Nat.ne_of_lt inside) real).mp closest
    exact ⟨above, immediate.mpr isClosest, isClosest.closest dominator different dominates⟩
  · rintro ⟨above, found, dominates⟩
    have closest := immediate.mp found
    refine ⟨?_, dominates.trans closest.dominates⟩
    rintro rfl
    exact closest.different
      (dominates_antisymm_of_roots inRange rootsInRange closest.dominates dominates)

private theorem number_immediate_lt {above : Nat} (inside : node < graph.size)
    (found : (compute graph roots).immediate? node = some above) :
    (ofSearch (graph.withVirtualRoot roots) graph.size).number above <
      (ofSearch (graph.withVirtualRoot roots) graph.size).number node := by
  have search := depthFirst_rooted inRange rootsInRange
  have closest := (immediate_compute inRange rootsInRange inside).mp found
  have real := Nat.ne_of_lt (closest.dominates.lt_size inRange rootsInRange)
  have rooted := (Adjacency.dominates_withVirtualRoot inRange rootsInRange (Nat.ne_of_lt inside)
    real).mpr closest.dominates
  exact search.number_lt_of_ancestor (search.ancestor_of_dominates rooted) closest.different

/-- Walking up from a node meets exactly its strict dominators, if the fuel suffices for a node of
its number. -/
theorem isAbove_compute (fuel : Nat) : ∀ node, node < graph.size →
    (ofSearch (graph.withVirtualRoot roots) graph.size).number node ≤ fuel →
    ((compute graph roots).isAbove dominator fuel node = true ↔
      dominator ≠ node ∧ graph.Dominates roots dominator node) := by
  induction fuel with
  | zero =>
      intro node inside enough
      rw [dominates_of_immediate inRange rootsInRange inside, isAbove]
      constructor
      · exact fun impossible => absurd impossible Bool.false_ne_true
      · rintro ⟨above, found, -⟩
        have lower := number_immediate_lt inRange rootsInRange inside found
        omega
  | succ fuel induction =>
      intro node inside enough
      rw [dominates_of_immediate inRange rootsInRange inside, isAbove]
      cases found : (compute graph roots).immediate? node with
      | none => simp
      | some above =>
          have lower := number_immediate_lt inRange rootsInRange inside found
          have closest := (immediate_compute inRange rootsInRange inside).mp found
          have further := induction above (closest.dominates.lt_size inRange rootsInRange) (by omega)
          have itself := Adjacency.dominates_self closest.dominates.reachable_dominator
          simp only [Bool.or_eq_true, beq_iff_eq, further, Option.some_inj, exists_eq_left']
          constructor
          · rintro (rfl | ⟨-, dominates⟩)
            · exact itself
            · exact dominates
          · intro dominates
            by_cases same : above = dominator
            · exact .inl same
            · exact .inr ⟨Ne.symm same, dominates⟩

end

/-- The computed tree is the one that dominance by paths defines: `dominates` holds exactly if all
paths from a root run through the first node, and the immediate dominator is the closest of all
strict ones. -/
theorem compute_dominates_and_immediate {graph : Adjacency} {roots : List Nat}
    (inRange : graph.InRange) (rootsInRange : ∀ root ∈ roots, root < graph.size) {node : Nat}
    (inside : node < graph.size) (dominator : Nat) :
    ((compute graph roots).dominates dominator node = true ↔
      graph.Dominates roots dominator node) ∧
    ((compute graph roots).immediate? node = some dominator ↔
      graph.DominatesClosest roots dominator node) := by
  refine ⟨?_, immediate_compute inRange rootsInRange inside⟩
  have search := depthFirst_rooted inRange rootsInRange
  have enough : (ofSearch (graph.withVirtualRoot roots) graph.size).number node ≤
      (compute graph roots).immediate.size := by
    have sized := (Semidominance.settled_foldl search (Semidominance.swept_sweep search)).sized
    rw [compute, Array.size_setIfInBounds, sized]
    exact search.number_le_size node
  rw [dominates, Bool.and_eq_true, Bool.or_eq_true, beq_iff_eq,
    isReachable_compute inRange rootsInRange inside,
    isAbove_compute inRange rootsInRange _ node inside enough]
  constructor
  · rintro ⟨reachable, rfl | ⟨-, dominates⟩⟩
    · exact Adjacency.dominates_self reachable
    · exact dominates
  · intro dominates
    refine ⟨dominates.reachable, ?_⟩
    by_cases same : dominator = node
    · exact .inl same
    · exact .inr ⟨same, dominates⟩

/-- Two branches that join in a loop, which one of them can also leave on its own. -/
theorem compute_loop :
    let graph : Adjacency := ⟨#[[1, 2], [3], [3, 5], [4], [1, 5], []]⟩
    (graph.Dominates [0] 3 4 ∧ ¬ graph.Dominates [0] 1 3) ∧
      graph.DominatesClosest [0] 0 5 := by
  intro graph
  have inRange : graph.InRange := by decide
  have rootsInRange : ∀ root ∈ [0], root < graph.size := by decide
  refine ⟨⟨?_, ?_⟩, ?_⟩
  · exact (compute_dominates_and_immediate inRange rootsInRange (by decide) 3).1.mp
      (by decide +kernel)
  · rw [← (compute_dominates_and_immediate inRange rootsInRange (by decide) 1).1]
    decide +kernel
  · exact (compute_dominates_and_immediate inRange rootsInRange (by decide) 0).2.mp
      (by decide +kernel)

end DominatorTree

end SlotVersioning
