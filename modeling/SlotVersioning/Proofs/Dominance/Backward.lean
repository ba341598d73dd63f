import SlotVersioning.Proofs.Graph.Leading

/-!
# Walking backwards

`VersionGraph.escapes` walks backwards over unmarked positions, never onto a barred one, and looks
for a root. A position *escapes* when there is such a way back. Marking the position that is visited
changes nothing about the others, unless their way back runs through it (`Escape.insert`), so the
walk finds out whether one of its positions escapes (`escapes_iff`). Every edge is queued once at
most, which the fuel suffices for.
-/

namespace SlotVersioning

open Std

namespace VersionGraph

variable {graph : VersionGraph} {barrier : ExtTreeSet VersionKey} {marked : ExtTreeSet Nat}
  {position : Nat}

/-- The version at the position is one of the barrier. -/
def barredAt (graph : VersionGraph) (barrier : ExtTreeSet VersionKey) (position : Nat) : Bool :=
  (graph.keysAt [position]).any barrier.contains

theorem barredAt_eq {key : VersionKey} {origin : VersionOrigin}
    (found : graph.identity? position = some (key, origin)) :
    graph.barredAt barrier position = barrier.contains key := by
  unfold barredAt
  rw [keysAt_cons found]
  exact Bool.or_false _

/-- A way back to a root over unmarked positions, after the first one only over free ones. -/
inductive Escape (graph : VersionGraph) (barrier : ExtTreeSet VersionKey)
    (marked : ExtTreeSet Nat) : Nat → Prop
  | root {position : Nat} (unmarked : position ∉ marked)
      (alone : graph.predecessorsAt position = []) : Escape graph barrier marked position
  | back {position predecessor : Nat} (unmarked : position ∉ marked)
      (edge : predecessor ∈ graph.predecessorsAt position)
      (free : graph.barredAt barrier predecessor = false)
      (rest : Escape graph barrier marked predecessor) : Escape graph barrier marked position

namespace Escape

theorem unmarked (escape : graph.Escape barrier marked position) : position ∉ marked := by
  cases escape with
  | root unmarked _ | back unmarked _ _ _ => exact unmarked

theorem mono {fewer : ExtTreeSet Nat} (escape : graph.Escape barrier marked position)
    (subset : ∀ other ∈ fewer, other ∈ marked) : graph.Escape barrier fewer position := by
  induction escape with
  | root unmarked alone => exact .root (fun inside => unmarked (subset _ inside)) alone
  | back unmarked edge free rest induction =>
      exact .back (fun inside => unmarked (subset _ inside)) edge free induction

end Escape

theorem mem_insert_marked {other : Nat} :
    other ∈ marked.insert position ↔ position = other ∨ other ∈ marked := by
  rw [ExtTreeSet.mem_insert, Std.compare_eq_iff_eq]

/-- The predecessors that a visit of the position queues. -/
def onward (graph : VersionGraph) (barrier : ExtTreeSet VersionKey) (marked : ExtTreeSet Nat)
    (position : Nat) : List Nat :=
  (graph.predecessorsAt position).filter fun predecessor =>
    !(marked.insert position).contains predecessor && !graph.barredAt barrier predecessor

theorem mem_onward {predecessor : Nat} :
    predecessor ∈ graph.onward barrier marked position ↔
      predecessor ∈ graph.predecessorsAt position ∧ predecessor ∉ marked.insert position ∧
        graph.barredAt barrier predecessor = false := by
  unfold onward
  rw [List.mem_filter, Bool.and_eq_true, Bool.not_eq_true', Bool.not_eq_true',
    ExtTreeSet.mem_iff_contains, Bool.not_eq_true]

/-- A way back avoids the visited position, or the rest of it after the last visit does. -/
theorem Escape.insert {other : Nat} (position : Nat) (escape : graph.Escape barrier marked other) :
    graph.Escape barrier (marked.insert position) other ∨
      graph.predecessorsAt position = [] ∨
      ∃ predecessor ∈ graph.onward barrier marked position,
        graph.Escape barrier (marked.insert position) predecessor := by
  have apart {other : Nat} (different : position ≠ other) (unmarked : other ∉ marked) :
      other ∉ marked.insert position :=
    fun inside => (mem_insert_marked.1 inside).elim different unmarked
  induction escape with
  | @root other unmarked alone =>
      by_cases same : position = other
      · exact .inr (.inl (same ▸ alone))
      · exact .inl (.root (apart same unmarked) alone)
  | @back other predecessor unmarked edge free rest induction =>
      rcases induction with avoids | visits
      · by_cases same : position = other
        · subst same
          exact .inr (.inr ⟨predecessor, mem_onward.2 ⟨edge, avoids.unmarked, free⟩, avoids⟩)
        · exact .inl (.back (apart same unmarked) edge free avoids)
      · exact .inr visits

/-- The visit of a position passes the question on to the positions that it queues. -/
private theorem escape_visit (unmarked : position ∉ marked) (queue : List Nat) :
    (∃ other ∈ position :: queue, graph.Escape barrier marked other) ↔
      graph.predecessorsAt position = [] ∨
        ∃ other ∈ queue ++ graph.onward barrier marked position,
          graph.Escape barrier (marked.insert position) other := by
  have subset (other : Nat) (inside : other ∈ marked) : other ∈ marked.insert position :=
    mem_insert_marked.2 (.inr inside)
  constructor
  · rintro ⟨other, member, escape⟩
    rcases escape.insert position with avoids | alone | ⟨next, queued, rest⟩
    · rcases List.mem_cons.1 member with rfl | later
      · exact absurd (mem_insert_marked.2 (.inl rfl)) avoids.unmarked
      · exact .inr ⟨other, List.mem_append_left _ later, avoids⟩
    · exact .inl alone
    · exact .inr ⟨next, List.mem_append_right _ queued, rest⟩
  · rintro (alone | ⟨other, member, escape⟩)
    · exact ⟨position, List.mem_cons_self, .root unmarked alone⟩
    · rcases List.mem_append.1 member with waiting | queued
      · exact ⟨other, List.mem_cons_of_mem _ waiting, escape.mono subset⟩
      · rcases mem_onward.1 queued with ⟨edge, -, free⟩
        exact ⟨position, List.mem_cons_self, .back unmarked edge free (escape.mono subset)⟩

/-! ## Fuel -/

/-- The edges into unmarked positions, which the walk may still queue. -/
def unmarkedEdges (graph : VersionGraph) (marked : ExtTreeSet Nat) : Nat :=
  ∑ position ∈ Finset.range graph.size,
    if marked.contains position then 0 else (graph.predecessorsAt position).length

private theorem unmarkedEdges_insert (graph : VersionGraph) (unmarked : position ∉ marked) :
    graph.unmarkedEdges (marked.insert position) + (graph.predecessorsAt position).length =
      graph.unmarkedEdges marked := by
  have same (other : Nat) (different : other ≠ position) :
      (marked.insert position).contains other = marked.contains other := by
    rw [Bool.eq_iff_iff, ExtTreeSet.contains_iff_mem, ExtTreeSet.contains_iff_mem,
      mem_insert_marked]
    exact or_iff_right (Ne.symm different)
  have now : (marked.insert position).contains position = true :=
    ExtTreeSet.contains_iff_mem.2 (mem_insert_marked.2 (.inl rfl))
  have before : marked.contains position = false :=
    Bool.eq_false_iff.2 fun isMarked => unmarked (ExtTreeSet.contains_iff_mem.1 isMarked)
  unfold unmarkedEdges
  by_cases inside : position < graph.size
  · have member := Finset.mem_range.2 inside
    rw [← Finset.add_sum_erase _ _ member, ← Finset.add_sum_erase _ _ member, now, before,
      if_pos rfl, if_neg Bool.false_ne_true, Nat.zero_add, Nat.add_comm]
    congr 1
    exact Finset.sum_congr rfl fun other elsewhere => by
      rw [same other (Finset.ne_of_mem_erase elsewhere)]
  · have alone : graph.predecessorsAt position = [] := by
      unfold predecessorsAt
      rw [Array.getElem?_eq_none (Nat.not_lt.1 inside)]
      rfl
    rw [alone, List.length_nil, Nat.add_zero]
    exact Finset.sum_congr rfl fun other listed => by
      rw [same other fun equal => inside (equal ▸ Finset.mem_range.1 listed)]

private theorem unmarkedEdges_empty (graph : VersionGraph) :
    graph.unmarkedEdges ∅ = graph.edgeCount := by
  have counted := Numbering.edgeCount_eq_sum ⟨graph.nodes.map VersionNode.predecessors⟩
  unfold Adjacency.edgeCount Adjacency.size at counted
  rw [Array.foldl_map, Array.size_map] at counted
  refine Eq.trans ?_ counted.symm
  refine Finset.sum_congr rfl fun position _ => ?_
  rw [ExtTreeSet.contains_empty, if_neg Bool.false_ne_true]
  unfold Adjacency.successors predecessorsAt
  rw [Array.getD_eq_getD_getElem?, Array.getElem?_map]

/-! ## The walk -/

/-- The walk finds out whether one of its positions escapes. -/
theorem escapes_iff (fuel : Nat) (queue : List Nat) (marked : ExtTreeSet Nat)
    (enough : queue.length + graph.unmarkedEdges marked ≤ fuel) :
    graph.escapes barrier fuel queue marked = true ↔
      ∃ position ∈ queue, graph.Escape barrier marked position := by
  induction fuel generalizing queue marked with
  | zero =>
      have empty : queue = [] := List.eq_nil_of_length_eq_zero (by omega)
      subst empty
      exact ⟨fun impossible => (nomatch impossible), fun ⟨_, member, _⟩ => (nomatch member)⟩
  | succ fuel induction =>
      cases queue with
      | nil =>
          exact ⟨fun impossible => (nomatch impossible), fun ⟨_, member, _⟩ => (nomatch member)⟩
      | cons position queue =>
          rw [List.length_cons] at enough
          rw [escapes]
          split
          · next isMarked =>
              rw [induction queue marked (by omega)]
              constructor
              · rintro ⟨other, member, escape⟩
                exact ⟨other, List.mem_cons_of_mem _ member, escape⟩
              · rintro ⟨other, member, escape⟩
                rcases List.mem_cons.1 member with rfl | later
                · exact absurd (ExtTreeSet.contains_iff_mem.1 isMarked) escape.unmarked
                · exact ⟨other, later, escape⟩
          · next notMarked =>
              have unmarked : position ∉ marked :=
                fun inside => notMarked (ExtTreeSet.contains_iff_mem.2 inside)
              have fewer : (graph.onward barrier marked position).length ≤
                  (graph.predecessorsAt position).length := List.length_filter_le _ _
              have further := graph.unmarkedEdges_insert unmarked
              rw [escape_visit unmarked, Bool.or_eq_true, List.isEmpty_iff]
              refine or_congr_right (induction (queue ++ graph.onward barrier marked position)
                (marked.insert position) ?_)
              rw [List.length_append]
              omega

theorem escapes_start (start : Nat) :
    graph.escapes barrier (graph.edgeCount + 2) [start] ∅ = true ↔
      graph.Escape barrier ∅ start := by
  rw [escapes_iff]
  · simp
  · rw [unmarkedEdges_empty, List.length_singleton]
    omega

/-- A free position escapes when a root leads to it over free positions. -/
theorem Consistent.escape_iff_leads (consistent : graph.Consistent) (inside : position < graph.size)
    (free : graph.barredAt barrier position = false) :
    graph.Escape barrier ∅ position ↔ ∃ root ∈ graph.rootPositions,
      graph.adjacency.Leads (fun other => graph.barredAt barrier other = false) root position := by
  constructor
  · intro escape
    induction escape with
    | root unmarked alone => exact ⟨_, mem_rootPositions.2 ⟨inside, alone⟩, .refl free⟩
    | back unmarked edge before rest induction =>
        rcases consistent.known_predecessor edge with ⟨identity, found⟩
        rcases induction (lt_size_of_identity found) before with ⟨root, isRoot, leads⟩
        refine ⟨root, isRoot, leads.snoc ?_ free⟩
        rw [successors_adjacency]
        exact (consistent.linked _ _).2 edge
  · rintro ⟨root, isRoot, nodes, path, all⟩
    have begun : graph.Escape barrier ∅ root :=
      .root ExtTreeSet.not_mem_empty (mem_rootPositions.1 isRoot).2
    clear isRoot
    induction path with
    | single node => exact begun
    | @step node next finish nodes edge rest induction =>
        rw [List.forall_mem_cons] at all
        rw [successors_adjacency] at edge
        refine induction inside free all.2 (.back ExtTreeSet.not_mem_empty ?_ all.1 begun)
        exact (consistent.linked node next).1 edge

end VersionGraph

end SlotVersioning
