import SlotVersioning.Proofs.Graph.Edges
import SlotVersioning.Proofs.Pass.Visit
import SlotVersioning.Proofs.Run.Loops

/-!
# Rounds

A run takes its seeds, goes through rounds until no node is dirty, and may add a live round. Here
such runs are taken apart: what holds before a pass and is preserved by every visit holds after it
(`pass_induction`), and a successful run is made of rounds (`versionAll_ok`).
-/

namespace SlotVersioning

open Std

/-- Nothing changed but the facts stored at nodes by their visits, the dominators, and what is
counted and reported. -/
structure Beside (before after : RunState) : Prop where
  versions : after.versions = before.versions
  seeds : after.tables.seeds = before.tables.seeds
  phi : after.tables.phi = before.tables.phi
  lastVersions : after.tables.lastVersions = before.tables.lastVersions
  nextFieldSlot : after.tables.nextFieldSlot = before.tables.nextFieldSlot
  fields : after.tables.fields = before.tables.fields
  phantoms : after.tables.phantoms = before.tables.phantoms
  copies : after.tables.copies = before.tables.copies
  ranges : after.tables.ranges = before.tables.ranges
  graph : ∀ stored, before.tables.graph = some stored →
    ∃ next, after.tables.graph = some next ∧ stored.Similar next
  nodes : after.tables.graph.map VersionGraph.nodes = before.tables.graph.map VersionGraph.nodes

theorem Beside.version {before after : RunState} (beside : Beside before after) :
    after.version = before.version := by
  funext expression
  unfold RunState.version
  rw [beside.versions]

theorem Beside.last {before after : RunState} (beside : Beside before after) :
    after.last = before.last := by
  funext slot
  unfold RunState.last
  rw [beside.lastVersions]

/-- Nothing changed but the dominators and what is counted and reported. -/
structure Aside (before after : RunState) : Prop extends Beside before after where
  stores : after.stores = before.stores

/-- Facts that visits store at nodes are beside. -/
theorem Beside.of_stores (state : RunState) (inFacts outFacts negativeFacts :
    ExtTreeMap NodeId Facts) (events : List Event) :
    Beside state { state with
      tables := { state.tables with inFacts, outFacts, negativeFacts }, events } :=
  ⟨rfl, rfl, rfl, rfl, rfl, rfl, rfl, rfl, rfl, fun stored found => ⟨stored, found, .refl stored⟩,
    rfl⟩

/-- What is counted and reported is aside. -/
theorem Aside.of_counted (state : RunState) (passes : Nat) (events : List Event) :
    Aside state { state with tables := { state.tables with passes }, events } :=
  ⟨⟨rfl, rfl, rfl, rfl, rfl, rfl, rfl, rfl, rfl, fun stored found => ⟨stored, found, .refl stored⟩,
    rfl⟩, rfl⟩

namespace RunM

variable {context : Context}

/-- What leaves a node is stored beside. -/
theorem Left.beside {name : NodeId} {outcome : OutcomeFacts} {changed : Bool}
    {before after : RunState} (left : Left context name outcome changed before after) :
    Beside before after where
  versions := left.versions
  seeds := by rw [left.tables]
  phi := by rw [left.tables]
  lastVersions := by rw [left.tables]
  nextFieldSlot := by rw [left.tables]
  fields := by rw [left.tables]
  phantoms := by rw [left.tables]
  copies := by rw [left.tables]
  ranges := by rw [left.tables]
  graph := fun stored found => ⟨stored, by rw [left.tables, ← found], .refl stored⟩
  nodes := by rw [left.tables]

/-! ## Passes -/

/-- What holds before a pass and is preserved by every visit holds after the pass. -/
theorem pass_induction {live : Bool} {motive : Nat → DirtyNodes → RunState → Prop}
    {dirty dirtyAfter : DirtyNodes} {state final : RunState}
    (each : ∀ name node dirty dirtyAfter before after, context.graph.node? name = some node →
      motive name dirty before → visit context live dirty (node, name) before =
        .ok dirtyAfter after → motive (name + 1) dirtyAfter after)
    (run : pass context live dirty state = .ok dirtyAfter final) (begin : motive 0 dirty state) :
    motive context.graph.size dirtyAfter final := by
  have whole : motive (0 + context.graph.nodes.toList.zipIdx.length) dirtyAfter final := by
    refine foldlM_induction 0 (fun index entry value next before after found => ?_) run begin
    rw [List.getElem?_zipIdx, Nat.zero_add] at found
    rcases Option.map_eq_some_iff.1 found with ⟨node, stored, rfl⟩
    rw [Nat.zero_add]
    apply each index node value next before after
    rw [Array.getElem?_toList] at stored
    exact stored
  rw [Nat.zero_add, List.length_zipIdx, Array.length_toList] at whole
  exact whole

/-! ## Rounds -/

/-- One pass, counted and reported. -/
def round (context : Context) (dirty : DirtyNodes) : RunM DirtyNodes := do
  countPass
  let dirty ← pass context false dirty
  report (.passFinished (← tables).passes context.graph.size dirty.size)
  return dirty

theorem settle_succ (context : Context) (fuel : Nat) (dirty : DirtyNodes) :
    settle context (fuel + 1) dirty = (do
      let dirty ← round context dirty
      if dirty.isEmpty then pure () else settle context fuel dirty) := by
  simp only [settle, round, bind_assoc, pure_bind]

theorem countPass_apply (state : RunState) :
    countPass state =
      .ok () { state with tables := { state.tables with passes := state.tables.passes + 1 } } := rfl

theorem round_pass {dirty dirtyAfter : DirtyNodes} {state begun final : RunState}
    (counts : countPass state = .ok () begun)
    (run : round context dirty state = .ok dirtyAfter final) :
    ∃ after, pass context false dirty begun = .ok dirtyAfter after ∧ Aside after final := by
  unfold round at run
  rw [bind_eq counts] at run
  rcases bind_ok run with ⟨passed, after, passes, run⟩
  rw [bind_eq (tables_apply _), bind_eq (report_apply _ _)] at run
  rcases pure_ok run with ⟨rfl, rfl⟩
  exact ⟨after, passes, .of_counted _ _ _⟩

theorem round_ok {dirty dirtyAfter : DirtyNodes} {state final : RunState}
    (run : round context dirty state = .ok dirtyAfter final) :
    ∃ before after, Aside state before ∧ pass context false dirty before = .ok dirtyAfter after ∧
      Aside after final := by
  rcases round_pass (countPass_apply state) run with ⟨after, passes, reported⟩
  exact ⟨_, after, .of_counted _ _ _, passes, reported⟩

/-- A number of rounds in a row, the later ones because nodes were dirty. -/
inductive Rounds (context : Context) (start : RunState) :
    Nat → DirtyNodes → RunState → Prop
  | none : Rounds context start 0 ∅ start
  | more {count : Nat} {dirty dirtyAfter : DirtyNodes} {before after : RunState}
      (earlier : Rounds context start count dirty before)
      (unsettled : count ≠ 0 → dirty.isEmpty = false)
      (last : round context dirty before = .ok dirtyAfter after) :
      Rounds context start (count + 1) dirtyAfter after

theorem settle_ok {start state final : RunState} {fuel count : Nat} {dirty : DirtyNodes}
    (earlier : Rounds context start count dirty state)
    (unsettled : count ≠ 0 → dirty.isEmpty = false)
    (run : settle context fuel dirty state = .ok () final) :
    ∃ total, count < total ∧ total ≤ count + fuel ∧ Rounds context start total ∅ final := by
  induction fuel generalizing count dirty state with
  | zero =>
      unfold settle at run
      rw [bind_eq (tables_apply _)] at run
      exact nomatch run
  | succ fuel induction =>
      rw [settle_succ] at run
      rcases bind_ok run with ⟨dirtyAfter, middle, last, run⟩
      have rounds := Rounds.more earlier unsettled last
      split at run
      · next settled =>
          rcases pure_ok run with ⟨-, rfl⟩
          rw [ExtTreeSet.isEmpty_iff.1 settled] at rounds
          exact ⟨count + 1, Nat.lt_succ_self _, by omega, rounds⟩
      · next dirtyLeft =>
          rcases induction rounds (fun _ => Bool.eq_false_iff.2 dirtyLeft) run with
            ⟨total, more, bound, whole⟩
          exact ⟨total, Nat.lt_of_succ_lt more, by omega, whole⟩

/-! ## Live rounds -/

/-- A live round is a pass after which the dominators are computed. -/
theorem liveRound_dominated {state begun final : RunState}
    (counts : countPass state = .ok () begun) (run : liveRound context state = .ok () final) :
    ∃ after dirtyAfter events, pass context true ∅ begun = .ok dirtyAfter after ∧
      final = { after with
        tables := after.tables.editGraph VersionGraph.computeDominators, events } := by
  unfold liveRound discard at run
  rw [bind_eq counts, map_const, Function.comp_apply, map_eq_pure_bind] at run
  rcases bind_ok run with ⟨_, middle, discarded, run⟩
  rcases bind_ok discarded with ⟨dirtyAfter, after, passes, discarded⟩
  rcases pure_ok discarded with ⟨-, rfl⟩
  rw [bind_eq (editGraph_apply _ _), bind_eq (tables_apply _)] at run
  dsimp only at run
  cases stored : (middle.tables.editGraph VersionGraph.computeDominators).graph with
  | none =>
      simp only [stored] at run
      rcases pure_ok run with ⟨-, rfl⟩
      exact ⟨middle, dirtyAfter, _, passes, rfl⟩
  | some graph =>
      simp only [stored, report_apply] at run
      cases run
      exact ⟨middle, dirtyAfter, _, passes, rfl⟩

theorem liveRound_pass {state begun final : RunState} (counts : countPass state = .ok () begun)
    (run : liveRound context state = .ok () final) :
    ∃ after dirtyAfter, pass context true ∅ begun = .ok dirtyAfter after ∧ Aside after final := by
  rcases liveRound_dominated counts run with ⟨after, dirtyAfter, events, passes, rfl⟩
  exact ⟨after, dirtyAfter, passes, ⟨rfl, rfl, rfl, rfl, rfl, rfl, rfl, rfl, rfl, fun stored found =>
    ⟨_, congrArg (Option.map _) found, VersionGraph.similar_computeDominators stored⟩,
    Option.map_map _ _ _⟩, rfl⟩

theorem liveRound_ok {state final : RunState} (run : liveRound context state = .ok () final) :
    ∃ before after dirtyAfter, Aside state before ∧
      pass context true ∅ before = .ok dirtyAfter after ∧ Aside after final := by
  rcases liveRound_pass (countPass_apply state) run with ⟨after, dirtyAfter, passes, reported⟩
  exact ⟨_, after, dirtyAfter, .of_counted _ _ _, passes, reported⟩

/-! ## Whole runs -/

/-- Parameters and handler variables enter. -/
def seeding (context : Context) (entry : NodeId) : RunM Unit := do
  seedParameters context entry
  context.body.statements.preorder.forM (seedHandlers context)

section

variable {statement : StatementId} {state final : RunState}

/-- A handler that is seeded has a slot and a start, and its variable enters there. -/
theorem seedHandler_ok {slots : List Slot} {handler : StatementId × Nat}
    (run : seedHandler context statement slots handler state = .ok () final) :
    ∃ slot node facts middle, slots[handler.2]? = some slot ∧
      context.graph.statementStart? handler.1 = some node ∧
      seedVersion context statement ∅ slot state = .ok facts middle ∧
      storeSeeds node facts middle = .ok () final := by
  unfold seedHandler at run
  cases listed : slots[handler.2]? with
  | none =>
      simp only [listed] at run
      exact nomatch run
  | some slot =>
      cases start : context.graph.statementStart? handler.1 with
      | none =>
          simp only [listed, start] at run
          exact nomatch run
      | some node =>
          simp only [listed, start] at run
          rcases bind_ok run with ⟨facts, middle, minted, stores⟩
          exact ⟨slot, node, facts, middle, rfl, rfl, minted, stores⟩

/-- A statement without handlers seeds nothing, and others seed each of their handlers. -/
theorem seedHandlers_ok (run : seedHandlers context statement state = .ok () final) :
    ((context.body.statements.get? statement).bind fun stored => stored.kind.handlerSlots?) =
        none ∧ final = state ∨
      ∃ slots, ((context.body.statements.get? statement).bind fun stored =>
          stored.kind.handlerSlots?) = some slots ∧
        ((context.body.statements.children statement).drop 1).zipIdx.forM
          (seedHandler context statement slots) state = .ok () final := by
  unfold seedHandlers at run
  cases handles : (context.body.statements.get? statement).bind
      fun stored => stored.kind.handlerSlots? with
  | none =>
      simp only [handles] at run
      exact .inl ⟨rfl, (pure_ok run).2⟩
  | some slots =>
      simp only [handles] at run
      exact .inr ⟨slots, rfl, run⟩

end

/-- A run is seeded, goes through rounds, and may add a live round. -/
theorem versionAll_seeding {entry : NodeId} (found : context.graph.entry = some entry) :
    versionAll context = (do
      seeding context entry
      settle context context.config.maxPasses ∅
      if context.config.has .liveRound then liveRound context else pure ()) := by
  unfold versionAll seeding
  rw [found, bind_assoc]

theorem versionAll_ok {state final : RunState} {entry : NodeId}
    (found : context.graph.entry = some entry) (run : versionAll context state = .ok () final) :
    ∃ seeded count settled, seeding context entry state = .ok () seeded ∧
      Rounds context seeded count ∅ settled ∧ 0 < count ∧ count ≤ context.config.maxPasses ∧
      (context.config.has .liveRound = true → liveRound context settled = .ok () final) ∧
      (context.config.has .liveRound = false → final = settled) := by
  rw [versionAll_seeding found] at run
  rcases bind_ok run with ⟨_, seeded, seeds, run⟩
  rcases bind_ok run with ⟨_, settled, settles, run⟩
  rcases settle_ok .none (fun positive => absurd rfl positive) settles with
    ⟨count, positive, bound, rounds⟩
  refine ⟨seeded, count, settled, seeds, rounds, positive, by omega, fun live => ?_,
    fun live => ?_⟩
  · rw [if_pos live] at run
    exact run
  · rw [if_neg (Bool.eq_false_iff.1 live)] at run
    exact (pure_ok run).2

end RunM

end SlotVersioning
