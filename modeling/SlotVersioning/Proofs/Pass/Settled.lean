import SlotVersioning.Proofs.Pass.Rounds
import SlotVersioning.Proofs.Pass.Settling

/-!
# Settled runs

A state is `Settled` when all nodes were visited and none is dirty: the stored facts solve the
equations of the flow graph, and every visit is stable. Successful runs end settled
(`Versioner.settled_of_run`). A live round visits all nodes once more and finds everything as it is.
-/

namespace SlotVersioning

open Std

namespace Aside

variable {before after : RunState}

theorem merged (aside : Aside before after) : after.tables.merged? = before.tables.merged? :=
  funext (Tables.merged?_congr aside.phi)

theorem inFacts (aside : Aside before after) : after.tables.inFacts = before.tables.inFacts :=
  congrArg Stores.inFacts aside.stores

theorem outFacts (aside : Aside before after) : after.tables.outFacts = before.tables.outFacts :=
  congrArg Stores.outFacts aside.stores

theorem negativeFacts (aside : Aside before after) :
    after.tables.negativeFacts = before.tables.negativeFacts :=
  congrArg Stores.negativeFacts aside.stores

theorem seeded (aside : Aside before after) : after.tables.seeded = before.tables.seeded := by
  unfold Tables.seeded
  rw [aside.seeds]

private theorem fieldsNegative (aside : Aside before after) (negative : before.FieldsNegative) :
    after.FieldsNegative := by
  refine ⟨?_, ?_⟩
  · rw [aside.nextFieldSlot]
    exact negative.next
  · rw [aside.fields]
    exact negative.given

theorem joins (aside : Aside before after) (graph : FlowGraph) (name : NodeId) (slot : Slot)
    (reaching : VersionSet) :
    after.tables.Joins graph name slot reaching ↔ before.tables.Joins graph name slot reaching :=
  Tables.joins_congr aside.outFacts aside.negativeFacts aside.seeds graph name slot reaching

end Aside

theorem Settling.aside {context : Context} {dirty : DirtyNodes} {before after : RunState}
    (settling : Settling context dirty before) (aside : Aside before after) :
    Settling context dirty after := by
  constructor
  case fields => exact aside.fieldsNegative settling.fields
  case numbered =>
    unfold RunState.Numbered
    rw [aside.merged, aside.last]
    exact settling.numbered
  case unvisited =>
    rw [aside.inFacts, aside.outFacts, aside.negativeFacts]
    exact settling.unvisited
  case unstuck =>
    rw [aside.inFacts]
    exact settling.unstuck
  case carried =>
    intro name facts entering
    rw [aside.inFacts] at entering
    refine (settling.carried name facts entering).congr ?_ ?_ fun expression _ => ?_
    · rw [aside.outFacts]
    · rw [aside.negativeFacts]
    · rw [aside.version]
  case stable =>
    intro name facts entering
    rw [aside.inFacts] at entering
    exact (settling.stable name facts entering).of_alike ⟨aside.version, aside.merged⟩
  case joins =>
    intro name facts entering clean slot ordinary
    rw [aside.inFacts] at entering
    exact (aside.joins _ _ _ _).2 (settling.joins name facts entering clean slot ordinary)

/-! ## Settled states -/

structure Settled (context : Context) (state : RunState) : Prop
    extends Settling context ∅ state where
  everywhere : ∀ name, name < context.graph.size →
    ∃ facts, state.tables.inFacts[name]? = some facts

private theorem Settled.aside {context : Context} {before after : RunState}
    (settled : Settled context before) (aside : Aside before after) : Settled context after := by
  refine ⟨settled.toSettling.aside aside, ?_⟩
  rw [aside.inFacts]
  exact settled.everywhere

/-- The outcome of the source with which an edge continues. -/
def FlowGraph.edgeOutcome (graph : FlowGraph) (source target : NodeId) : Bool :=
  graph.negativeBranch? source != some target

/-- Edges bring what the course of their source carries. -/
theorem Carried.brought {context : Context} {state : RunState} {source : NodeId} {facts : Facts}
    (carried : Carried context state source facts) (target : NodeId) {slot : Slot}
    (ordinary : 0 ≤ slot) :
    state.tables.brought context.graph source target slot =
      (context.body.course source).carry state.version slot (facts.reaching slot)
        (context.graph.edgeOutcome source target) := by
  unfold Tables.brought Tables.edgeFacts? FlowGraph.edgeOutcome
  by_cases negative : context.graph.negativeBranch? source = some target
  · rcases carried.onFalse (by rw [negative]; rfl) with ⟨out, stored, carries⟩
    rw [if_pos negative, stored, bne_eq_false_iff_eq.2 negative]
    exact carries slot ordinary
  · rcases carried.onTrue with ⟨out, stored, carries⟩
    rw [if_neg negative, stored, bne_iff_ne.2 negative]
    exact carries slot ordinary

/-- Edges from nodes that were not visited bring nothing. -/
theorem Settling.visited_of_brought {context : Context} {dirty : DirtyNodes} {state : RunState}
    (settling : Settling context dirty state) {source target : NodeId} {slot : Slot}
    {version : Version}
    (brings : version ∈ state.tables.brought context.graph source target slot) :
    ∃ facts, state.tables.inFacts[source]? = some facts := by
  by_contra absent
  have unvisited := settling.unvisited source <|
    Option.eq_none_iff_forall_ne_some.2 fun facts stored => absent ⟨facts, stored⟩
  rcases Tables.mem_brought.1 brings with ⟨facts, stored, -⟩
  unfold Tables.edgeFacts? at stored
  rw [unvisited.1, unvisited.2, ite_self] at stored
  exact nomatch stored

/-- Edges bring what the course of a visited node carries. -/
theorem Settling.carry_of_brought {context : Context} {dirty : DirtyNodes} {state : RunState}
    (settling : Settling context dirty state) {source target : NodeId} {slot : Slot}
    (ordinary : 0 ≤ slot) {version : Version}
    (brings : version ∈ state.tables.brought context.graph source target slot) :
    ∃ facts, state.tables.inFacts[source]? = some facts ∧
      version ∈ (context.body.course source).carry state.version slot (facts.reaching slot)
        (context.graph.edgeOutcome source target) := by
  rcases settling.visited_of_brought brings with ⟨facts, entering⟩
  rw [(settling.carried source facts entering).brought target ordinary] at brings
  exact ⟨facts, entering, brings⟩

namespace RunM

variable {context : Context} {live : Bool} {node : FlowNode} {name : NodeId} {facts : Facts}
  {log : List (Visit × Facts)} {outcome : OutcomeFacts} {changed : Bool}
  {before middle after : RunState}

theorem lt_size_of_node? {node : FlowNode} (found : context.graph.node? name = some node) :
    name < context.graph.size := by
  rcases Array.getElem?_eq_some_iff.1 found with ⟨known, -⟩
  exact known

namespace Visited

variable (visited : Visited context live node name facts log outcome changed before middle after)

include visited

/-- A visit from a settled state finds the facts that are stored. -/
theorem reaching_stored {stored : Facts} (settled : Settled context before)
    (entering : before.tables.inFacts[name]? = some stored) {slot : Slot} (ordinary : 0 ≤ slot) :
    facts.reaching slot = stored.reaching slot := by
  have joins := settled.joins name stored entering ExtTreeSet.not_mem_empty slot ordinary
  exact VersionSet.ext fun version => (visited.joins slot version).trans (joins version).symm

theorem alike (regular : context.body.Regular) (settled : Settled context before) {stored : Facts}
    (entering : before.tables.inFacts[name]? = some stored) : Alike before after := by
  have ordinary : (context.body.course name).Ordinary := fun place member target visits =>
    regular.ordinary_of_visit member visits
  have stable : (context.body.course name).StableFrom context.config facts
      (entered before name facts) := by
    intro slot positive arrival member
    rw [visited.reaching_stored settled entering positive] at member
    exact settled.stable name stored entering slot positive arrival member
  have again : Alike (entered before name facts) middle :=
    Course.run_again visited.run (regular.unshared.nodup_sites name) ordinary
      ⟨settled.fields.next, settled.fields.given⟩ stable
  refine ⟨?_, ?_⟩
  · rw [funext visited.version_after]
    exact again.version
  · rw [visited.merged_after]
    exact again.merged

/-- A visit from a settled state leaves it settled. -/
private theorem settled (regular : context.body.Regular) (settled : Settled context before)
    (found : context.graph.node? name = some node) : Settled context after := by
  rcases settled.everywhere name (lt_size_of_node? found) with ⟨stored, entering⟩
  have alike := visited.alike regular settled entering
  have carriedHere := visited.carried (settled.toSettling.stored name)
  have same {slot : Slot} (ordinary : 0 ≤ slot) :=
    visited.reaching_stored settled entering ordinary
  have brought (source target : NodeId) {slot : Slot} (ordinary : 0 ≤ slot) :
      after.tables.brought context.graph source target slot =
        before.tables.brought context.graph source target slot := by
    by_cases here : source = name
    · subst here
      rw [carriedHere.brought target ordinary,
        (settled.carried source stored entering).brought target ordinary, alike.version,
        same ordinary]
    · exact visited.brought_same (fun equal => absurd equal here) slot
  have joins {target : NodeId} {slot : Slot} {reaching : VersionSet} (ordinary : 0 ≤ slot)
      (joined : before.tables.Joins context.graph target slot reaching) :
      after.tables.Joins context.graph target slot reaching := by
    intro version
    rw [joined version]
    simp only [visited.seeded_after, brought _ _ ordinary]
  have settling := visited.settling regular.unshared found settled.toSettling
  refine ⟨{ settling with joins := visited.forall_stored ?_ ?_ }, ?_⟩
  · intro _ slot ordinary
    rw [same ordinary]
    exact joins ordinary
      (settled.joins name stored entering ExtTreeSet.not_mem_empty slot ordinary)
  · intro other facts _ present _ slot ordinary
    exact joins ordinary
      (settled.joins other facts present ExtTreeSet.not_mem_empty slot ordinary)
  · intro other otherKnown
    by_cases here : other = name
    · exact ⟨facts, here ▸ visited.inFacts_self⟩
    · rw [visited.inFacts_other here]
      exact settled.everywhere other otherKnown

end Visited

/-! ## Rounds -/

/-- What enters the nodes is the same for variables. -/
def SameEntering (before after : RunState) : Prop :=
  ∀ (node : NodeId) (facts : Facts), before.tables.inFacts[node]? = some facts →
    ∃ same, after.tables.inFacts[node]? = some same ∧
      ∀ slot : Slot, 0 ≤ slot → same.reaching slot = facts.reaching slot

theorem SameEntering.of_inFacts {before after : RunState}
    (same : after.tables.inFacts = before.tables.inFacts) : SameEntering before after :=
  fun _ facts entering => ⟨facts, same ▸ entering, fun _ _ => rfl⟩

theorem SameEntering.trans {first second third : RunState} (left : SameEntering first second)
    (right : SameEntering second third) : SameEntering first third := by
  intro node facts entering
  rcases left node facts entering with ⟨middle, entered, same⟩
  rcases right node middle entered with ⟨last, found, equal⟩
  exact ⟨last, found, fun slot ordinary => (equal slot ordinary).trans (same slot ordinary)⟩

private theorem Visited.sameEntering
    (visited : Visited context live node name facts log outcome changed before middle after)
    (settled : Settled context before) : SameEntering before after := by
  intro other stored entering
  by_cases here : other = name
  · subst here
    exact ⟨facts, visited.inFacts_self, fun slot ordinary =>
      visited.reaching_stored settled entering ordinary⟩
  · exact ⟨stored, (visited.inFacts_other here).trans entering, fun _ _ => rfl⟩

/-- What every visit of a node keeps, and everything done aside. -/
structure Invariant (context : Context) (motive : RunState → Prop) : Prop where
  visit : ∀ {live : Bool} {dirty : DirtyNodes} {node : FlowNode} {name : NodeId} {facts : Facts}
    {log : List (Visit × Facts)} {outcome : OutcomeFacts} {changed : Bool}
    {before middle after : RunState}, context.graph.node? name = some node →
    Settling context dirty before → motive before →
    Visited context live node name facts log outcome changed before middle after → motive after
  aside : ∀ {before after : RunState}, motive before → Aside before after → motive after

theorem Invariant.trivial (context : Context) : Invariant context fun _ => True where
  visit := fun _ _ _ _ => True.intro
  aside := fun _ _ => True.intro

variable {motive : RunState → Prop}

theorem settling_of_pass {live : Bool} {dirty dirtyAfter : DirtyNodes} {state final : RunState}
    (unshared : context.body.Unshared) (invariant : Invariant context motive)
    (settling : Settling context dirty state) (holds : motive state)
    (run : pass context live dirty state = .ok dirtyAfter final) :
    Settling context dirtyAfter final ∧ motive final ∧
      ∀ name, name < context.graph.size → ∃ facts, final.tables.inFacts[name]? = some facts := by
  refine pass_induction (motive := fun count dirty state => Settling context dirty state ∧
    motive state ∧ ∀ name, name < count → ∃ facts, state.tables.inFacts[name]? = some facts) ?_ run
    ⟨settling, holds, fun name none => absurd none (Nat.not_lt_zero name)⟩
  rintro name node dirty dirtyAfter before after found ⟨settling, holds, earlier⟩ visits
  rcases visit_ok unshared settling.fields found visits with
    ⟨facts, log, outcome, changed, middle, visited, rfl⟩
  refine ⟨visited.settling unshared found settling, invariant.visit found settling holds visited,
    fun other bound => ?_⟩
  by_cases here : other = name
  · exact ⟨facts, here ▸ visited.inFacts_self⟩
  · rw [visited.inFacts_other here]
    apply earlier
    change other < name + 1 at bound
    change other ≠ name at here
    exact Nat.lt_of_le_of_ne (Nat.le_of_lt_succ bound) here

theorem settling_of_rounds {start state : RunState} {count : Nat} {dirty : DirtyNodes}
    (unshared : context.body.Unshared) (invariant : Invariant context motive)
    (settling : Settling context ∅ start) (holds : motive start)
    (rounds : Rounds context start count dirty state) :
    Settling context dirty state ∧ motive state ∧ (0 < count →
      ∀ name, name < context.graph.size → ∃ facts, state.tables.inFacts[name]? = some facts) := by
  induction rounds with
  | none => exact ⟨settling, holds, fun positive => absurd positive (Nat.lt_irrefl 0)⟩
  | more earlier unsettled last induction =>
      rcases round_ok last with ⟨before, after, counted, passes, reported⟩
      have passed := settling_of_pass unshared invariant (induction.1.aside counted)
        (invariant.aside induction.2.1 counted) passes
      refine ⟨passed.1.aside reported, invariant.aside passed.2.1 reported, fun _ => ?_⟩
      rw [reported.inFacts]
      exact passed.2.2

theorem Rounds.settling {start state : RunState} {count : Nat} {dirty : DirtyNodes}
    (rounds : Rounds context start count dirty state) (unshared : context.body.Unshared)
    (settling : Settling context ∅ start) : Settling context dirty state :=
  (settling_of_rounds unshared (.trivial context) settling True.intro rounds).1

/-- A live round leaves a settled state settled, and what enters and what was written is the
same. -/
theorem settled_of_liveRound {state final : RunState} (regular : context.body.Regular)
    (invariant : Invariant context motive) (settled : Settled context state)
    (holds : motive state) (run : liveRound context state = .ok () final) :
    Settled context final ∧ motive final ∧ Alike state final ∧ SameEntering state final := by
  rcases liveRound_ok run with ⟨before, after, dirtyAfter, counted, passes, reported⟩
  have passed := pass_induction (motive := fun _ _ middle =>
    Settled context middle ∧ motive middle ∧ Alike state middle ∧ SameEntering state middle)
    (fun name node dirty dirtyAfter before after found earlier visits => by
      rcases visit_ok regular.unshared earlier.1.fields found visits with
        ⟨facts, log, outcome, changed, middle, visited, rfl⟩
      rcases earlier.1.everywhere name (lt_size_of_node? found) with ⟨stored, entering⟩
      exact ⟨visited.settled regular earlier.1 found,
        invariant.visit found earlier.1.toSettling earlier.2.1 visited,
        earlier.2.2.1.trans (visited.alike regular earlier.1 entering),
        earlier.2.2.2.trans (visited.sameEntering earlier.1)⟩)
    passes ⟨settled.aside counted, invariant.aside holds counted,
      ⟨counted.version, counted.merged⟩, .of_inFacts counted.inFacts⟩
  exact ⟨passed.1.aside reported, invariant.aside passed.2.1 reported,
    passed.2.2.1.trans ⟨reported.version, reported.merged⟩,
    passed.2.2.2.trans (.of_inFacts reported.inFacts)⟩

end RunM

end SlotVersioning
