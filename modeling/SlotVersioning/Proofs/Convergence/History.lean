import SlotVersioning.Proofs.Flow.Cycles
import SlotVersioning.Proofs.Pass.Alone
import SlotVersioning.Proofs.Pass.Balanced

/-!
# Histories

The states between the passes of a run without usage versions (`History`), and how a difference
between two of them spreads. When what enters a node differs from what entered it a pass before, so
did what one of its edges brings. So the difference came from a predecessor, or began there. In a
graph whose cycles go back once it began no more passes ago than there are nodes
(`History.begun`).
-/

namespace SlotVersioning

open Std

/-- The states between the passes of a run without usage versions over a regular body. -/
structure History (context : Context) (states : Nat → RunState) (count : Nat) : Prop where
  regular : context.body.Regular
  plain : context.config.has .usageVersions = false
  turn : ∀ time < count, Turn context (states time) (states (time + 1))
  settling : ∀ time ≤ count, ∃ dirty, Settling context dirty (states time)
  balanced : ∀ time ≤ count, Balanced context (states time)
  keepsFields : ∀ time < count, KeepsFields (states time) (states (time + 1))
  inhabited : ∀ time < count, ∀ node < context.graph.size, ∀ slot : Slot, 0 ≤ slot →
    (∃ version, version ∈ (states time).tables.entering node slot) →
      ∃ version, version ∈ (states (time + 1)).tables.entering node slot

namespace RunM

variable {context : Context} {start state : RunState} {count : Nat} {dirty : DirtyNodes}

private theorem invariant_keepsFields (context : Context) (before : RunState) :
    Invariant context (KeepsFields before) where
  visit := fun _ _ keeps visited => keeps.trans visited.keepsFields
  aside := fun keeps aside => keeps.trans (.of_fields aside.fields)

/-- The states that rounds lead to are a history. -/
theorem Rounds.history (rounds : Rounds context start count dirty state)
    (regular : context.body.Regular) (plain : context.config.has .usageVersions = false)
    (unvisited : Unvisited start) (balanced : Balanced context start) :
    History context (rested context start) count := by
  have unshared := regular.unshared
  have settling : Settling context ∅ start := unvisited.settling
  have resting {time : Nat} (few : time ≤ count) :=
    settling_of_rounds unshared (invariant_balanced unshared) settling balanced
      (rounds.earlier few).1
  refine ⟨regular, plain, fun time less => rounds.turn unshared plain settling less,
    fun time few => ⟨_, (resting few).1⟩, fun time few => (resting few).2.1,
    fun time less => ?_, fun time less node known slot ordinary inside => ?_⟩
  · rcases round_ok (rounds.round_rested less) with ⟨begun, ended, counted, passes, reported⟩
    have keeps := (settling_of_pass unshared (invariant_keepsFields context _)
      ((resting (Nat.le_of_lt less)).1.aside counted) (.of_fields counted.fields) passes).2.1
    exact keeps.trans (.of_fields reported.fields)
  · have held (before after : RunState) : RelatesVersions context.body
        (fun before after => (∃ version, version ∈ before) → ∃ version, version ∈ after) slot
        before after :=
      fun _ _ _ target _ _ _ => ⟨after.version target.expression, VersionSet.mem_singleton.2 rfl⟩
    have retains := retains_of_rounds (rounds.earlier (Nat.le_of_lt less)).1 .inhabited
      (fun _ inside => inside) (fun _ nothing => nothing.elim fun version member =>
        absurd member (VersionSet.not_mem_empty version)) ordinary unshared plain unvisited
      (fun _ _ => held _ _) (rounds.turn unshared plain settling less) (resting less).1 (held _ _)
    exact retains.entering node known inside

end RunM

/-- What enters the node is not related to what entered it a pass before. -/
def Differs (context : Context) (states : Nat → RunState) (count : Nat)
    (related : VersionSet → VersionSet → Prop) (slot : Slot) (node : NodeId) (time : Nat) : Prop :=
  node < context.graph.size ∧ time < count ∧
    ¬ related ((states time).tables.entering node slot)
      ((states (time + 1)).tables.entering node slot)

/-- A relation that joins respect, and the nodes too, but where a difference begins. No difference is
followed by another one at the same node. -/
structure Spreads (context : Context) (states : Nat → RunState) (count : Nat)
    (related : VersionSet → VersionSet → Prop) (slot : Slot) (begins : Nat → Prop) : Prop where
  joinable : Joinable related
  reflexive : ∀ set, related set set
  initially : begins 0
  leaves : ∀ time < count, ¬ begins time → ∀ source < context.graph.size,
    related ((states time).tables.entering source slot)
      ((states (time + 1)).tables.entering source slot) →
    ∀ target, related ((states time).tables.brought context.graph source target slot)
      ((states (time + 1)).tables.brought context.graph source target slot)
  once : ∀ node < context.graph.size, ∀ time, time + 1 < count →
    related ((states time).tables.entering node slot)
        ((states (time + 1)).tables.entering node slot) ∨
      related ((states (time + 1)).tables.entering node slot)
        ((states (time + 2)).tables.entering node slot)

namespace History

variable {context : Context} {states : Nat → RunState} {count : Nat}

theorem upTo (history : History context states count) {fewer : Nat} (few : fewer ≤ count) :
    History context states fewer where
  regular := history.regular
  plain := history.plain
  turn := fun time less => history.turn time (by omega)
  settling := fun time less => history.settling time (by omega)
  balanced := fun time less => history.balanced time (by omega)
  keepsFields := fun time less => history.keepsFields time (by omega)
  inhabited := fun time less => history.inhabited time (by omega)

/-- All nodes were visited. -/
theorem stored (history : History context states count) {node : NodeId}
    (known : node < context.graph.size) {time : Nat} (positive : time ≠ 0)
    (few : time ≤ count) : ∃ facts, (states time).tables.inFacts[node]? = some facts := by
  cases time with
  | zero => exact absurd rfl positive
  | succ time =>
      rcases (history.turn time few).joins node known with ⟨facts, stored, -⟩
      exact ⟨facts, stored⟩

variable {related : VersionSet → VersionSet → Prop} {slot : Slot} {begins : Nat → Prop}

/-- Differences come over edges, and where they do not begin, from the nodes that the edges leave. -/
private theorem passesOn (history : History context states count)
    (spreads : Spreads context states count related slot begins) :
    context.graph.PassesOn (Differs context states count related slot) begins where
  inside := fun _ _ differs => differs.1
  comes := by
    rintro node time ⟨known, less, differs⟩
    cases time with
    | zero => exact .inl spreads.initially
    | succ time =>
        by_contra nowhere
        rw [not_or] at nowhere
        -- Where the difference neither begins nor is, the edge brings what it brought before.
        have brings {source : NodeId} (edge : source ∈ context.graph.predecessors node)
            {earlier : Nat} (sent : time + 1 = earlier + FlowGraph.back source node)
            (early : earlier < count) :
            related ((states earlier).tables.brought context.graph source node slot)
              ((states (earlier + 1)).tables.brought context.graph source node slot) := by
          have inside := history.regular.built.lt_size_of_predecessor edge
          have neither : ¬ begins earlier ∧
              ¬ Differs context states count related slot source earlier := by
            rw [← not_or]
            exact fun came => nowhere.2 ⟨source, edge, earlier, sent, came⟩
          apply spreads.leaves earlier early neither.1 source inside
          by_contra differ
          exact neither.2 ⟨inside, early, differ⟩
        apply differs
        apply (history.turn time (by omega)).entering_related spreads.joinable
          (history.turn (time + 1) less) known (spreads.reflexive _)
        intro source edge
        unfold FlowGraph.back at brings
        split
        · next onward => exact brings edge (by rw [if_pos onward]) less
        · next backward => exact brings edge (by rw [if_neg backward]) (by omega)
  once := by
    rintro node time ⟨known, -, differs⟩ ⟨-, less, again⟩
    exact (spreads.once node known time less).elim differs again

/-- A difference began no more passes ago than there are nodes. -/
theorem begun (history : History context states count)
    (spreads : Spreads context states count related slot begins)
    (goesBack : context.graph.GoesBackOnce) {node : NodeId} (known : node < context.graph.size)
    {time : Nat} (less : time < count)
    (differs : ¬ related ((states time).tables.entering node slot)
      ((states (time + 1)).tables.entering node slot)) :
    ∃ begun, begins begun ∧ begun ≤ time ∧ time ≤ begun + context.graph.size :=
  (history.passesOn spreads).begun goesBack ⟨known, less, differs⟩

end History

end SlotVersioning
