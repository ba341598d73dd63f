import SlotVersioning.Proofs.Pass.Visit
import SlotVersioning.Proofs.Run.Loops
import SlotVersioning.Proofs.Run.Transfer

/-!
# Nodes crossed in any body

What a pass does at one node, without any assumption on the body but that no copy of a `finally`
block leaves through a monitor or an exception exit. What arrives over an edge from a shared exit is
not computed by a monotone function: it is filtered by differences and intersections. Two bounds are
all that is needed of it (`exitFacts_bounds`). The edge brings no more than is stored for it, and of
that it brings at least what the node knew already.
-/

namespace SlotVersioning

open Std

/-! ## Edges from shared exits -/

/-- No shared exit is left through a monitor or an exception exit. -/
def FlowGraph.Unmonitored (graph : FlowGraph) : Prop :=
  ∀ exit, (graph.shortPaths? exit).isSome → graph.monitorExit? exit = none

namespace Tables

/-- Some edge brings the version, or it enters from outside. -/
def Offers (tables : Tables) (graph : FlowGraph) (node : NodeId) (slot : Slot)
    (version : Version) : Prop :=
  (∃ source ∈ graph.predecessors node, version ∈ tables.brought graph source node slot) ∨
    version ∈ tables.seeded node slot

/-- The edge facts bound what an exit lets through, and so does what the node knew of them. -/
structure Bounds (tables : Tables) (graph : FlowGraph) (node exit : NodeId) (facts : Facts) :
    Prop where
  above : ∀ slot, ∀ version ∈ facts.reaching slot,
    version ∈ tables.brought graph exit node slot
  below : ∀ slot, ∀ version ∈ tables.brought graph exit node slot,
    version ∈ tables.entering node slot → version ∈ facts.reaching slot

variable {tables : Tables} {graph : FlowGraph} {config : Config}

private theorem bounds_edgeFacts (node exit : NodeId) :
    tables.Bounds graph node exit ((tables.edgeFacts? graph exit node).getD ∅) :=
  ⟨fun _ _ member => member, fun _ _ member _ => member⟩

private theorem bounds_passing (node exit : NodeId) (paths : PathFacts) :
    tables.Bounds graph node exit
      (tables.passing node ((tables.edgeFacts? graph exit node).getD ∅) paths) where
  above := by
    intro slot version member
    unfold passing at member
    rw [Facts.reaching_inter, VersionSet.mem_inter] at member
    exact member.1
  below := by
    intro slot version brought known
    unfold passing
    rw [Facts.reaching_inter, VersionSet.mem_inter, Facts.reaching_union, VersionSet.mem_union]
    exact ⟨brought, .inr known⟩

theorem exitFacts_bounds {destination : NodeId} {depth : Nat} {node exit : NodeId} {facts : Facts}
    (unmonitored : graph.Unmonitored)
    (resolved : tables.exitFacts graph config destination depth node exit = .ok facts) :
    tables.Bounds graph node exit facts := by
  cases depth with
  | zero => exact nomatch resolved
  | succ depth =>
      simp only [exitFacts] at resolved
      split at resolved
      · cases resolved
        exact bounds_edgeFacts node exit
      · next paths shared =>
          have noMonitor := unmonitored exit (by rw [shared]; rfl)
          simp only [noMonitor, Option.any_none, Bool.false_eq_true, if_false] at resolved
          split at resolved
          · cases resolved
            exact bounds_edgeFacts node exit
          · rcases Fault.bind_ok resolved with ⟨collected, -, passes⟩
            cases passes
            exact bounds_passing node exit collected

/-- What a node is brought by several edges, one after the other. -/
private theorem foldlM_union_ok {brings : NodeId → Except Fault Facts} {sources : List NodeId}
    {start result : Facts}
    (run : (sources.foldlM (fun facts source => return facts ∪ (← brings source)) start :
      Except Fault Facts) = .ok result) (slot : Slot) (version : Version) :
    version ∈ result.reaching slot ↔ version ∈ start.reaching slot ∨
      ∃ source ∈ sources, ∃ facts,
        brings source = .ok facts ∧ version ∈ facts.reaching slot := by
  induction sources generalizing start with
  | nil =>
      cases run
      simp
  | cons head tail induction =>
      rw [List.foldlM_cons] at run
      rcases Fault.bind_ok run with ⟨next, joined, rest⟩
      rcases Fault.bind_ok joined with ⟨facts, brought, joined⟩
      cases joined
      rw [induction rest, Facts.reaching_union, VersionSet.mem_union, or_assoc]
      simp [brought]

/-- Every edge brought something, when all of them were joined. -/
private theorem brings_of_foldlM {brings : NodeId → Except Fault Facts} {sources : List NodeId}
    {start result : Facts}
    (run : (sources.foldlM (fun facts source => return facts ∪ (← brings source)) start :
      Except Fault Facts) = .ok result) {source : NodeId} (member : source ∈ sources) :
    ∃ facts, brings source = .ok facts := by
  induction sources generalizing start with
  | nil => exact nomatch member
  | cons head tail induction =>
      rw [List.foldlM_cons] at run
      rcases Fault.bind_ok run with ⟨next, joined, rest⟩
      rcases Fault.bind_ok joined with ⟨facts, brought, -⟩
      rcases List.mem_cons.1 member with rfl | later
      · exact ⟨facts, brought⟩
      · exact induction rest later

end Tables

/-! ## One node -/

namespace RunM

variable {context : Context} {name : NodeId} {node : FlowNode} {facts : Facts}
  {outcome : OutcomeFacts} {changed : Bool} {before middle after : RunState}

/-- What enters a node was offered to it, and all that is offered and was known there enters. -/
structure Arrives (context : Context) (name : NodeId) (facts : Facts) (before : RunState) :
    Prop where
  offered : ∀ slot, ∀ version ∈ facts.reaching slot,
    before.tables.Offers context.graph name slot version
  known : ∀ slot version, before.tables.Offers context.graph name slot version →
    version ∈ before.tables.entering name slot → version ∈ facts.reaching slot

theorem arrive_arrives (unmonitored : context.graph.Unmonitored)
    (run : arrive context name before = .ok facts after) :
    after = entered before name facts ∧ Arrives context name facts before := by
  rcases arrive_parts run with ⟨joined, joining, rfl, rfl⟩
  refine ⟨rfl, ?_, ?_⟩
  · intro slot version member
    rw [Facts.reaching_union, VersionSet.mem_union, Tables.foldlM_union_ok joining] at member
    rcases member with (nowhere | ⟨source, edge, brought, arrives, member⟩) | seeded
    · rw [Facts.reaching_empty] at nowhere
      exact absurd nowhere (VersionSet.not_mem_empty version)
    · have bounds := Tables.exitFacts_bounds unmonitored arrives
      exact .inl ⟨source, edge, bounds.above slot version member⟩
    · exact .inr seeded
  · intro slot version offers known
    rw [Facts.reaching_union, VersionSet.mem_union, Tables.foldlM_union_ok joining]
    rcases offers with ⟨source, edge, member⟩ | seeded
    · rcases Tables.brings_of_foldlM joining edge with ⟨brought, arrives⟩
      have bounds := Tables.exitFacts_bounds unmonitored arrives
      have enters := bounds.below slot version member known
      exact .inl (.inr ⟨source, edge, brought, arrives, enters⟩)
    · exact .inr seeded

/-- A visit of a node in any body: `facts` enter it, its course is run until `middle`, and `outcome`
leaves it. -/
structure Crossed (context : Context) (live : Bool) (node : FlowNode) (name : NodeId)
    (facts : Facts) (outcome : OutcomeFacts) (changed : Bool)
    (before middle after : RunState) : Prop where
  found : context.graph.node? name = some node
  arrival : arrive context name before = .ok facts (entered before name facts)
  arrives : Arrives context name facts before
  evaluates : evaluateNode context (context.site node.statement live) node facts
    (entered before name facts) = .ok outcome middle
  run : (context.body.course name).run (context.site node.statement live) facts
    (entered before name facts) = .ok outcome.branches middle
  left : Left context name (leaving context node outcome) changed middle after

theorem visit_crossed {live : Bool} {dirty dirtyAfter : DirtyNodes}
    (unmonitored : context.graph.Unmonitored)
    (found : context.graph.node? name = some node)
    (run : visit context live dirty (node, name) before = .ok dirtyAfter after) :
    ∃ facts outcome changed middle,
      Crossed context live node name facts outcome changed before middle after ∧
        dirtyAfter = dirtied node name (changed && !context.graph.isExtra name) dirty := by
  rcases visit_steps run with
    ⟨facts, enters, outcome, middle, changed, arrival, evaluates, leaves, rfl⟩
  rcases arrive_arrives unmonitored arrival with ⟨rfl, arrives⟩
  exact ⟨facts, outcome, changed, middle, ⟨found, arrival, arrives, evaluates,
    course_of_evaluateNode found evaluates, leave_ok leaves⟩, rfl⟩

/-- What leaves a node of the facts that its course ends with. -/
def departing (context : Context) (name : NodeId) (facts : Facts) : Facts :=
  if context.config.has .blockLocalFields &&
      !(context.graph.node? name).all (staysInBlock context.graph) then
    facts.withoutFields
  else
    facts

theorem departing_subsetAt {slot : Slot} {version : Version} {fewer more : Facts}
    (subset : fewer.SubsetAt slot version more) :
    (departing context name fewer).SubsetAt slot version (departing context name more) := by
  unfold departing
  split
  · exact Facts.withoutFields_subsetAt_withoutFields subset
  · exact subset

theorem leaving_departing (found : context.graph.node? name = some node)
    (outcome : OutcomeFacts) :
    (leaving context node outcome).ifTrue = departing context name outcome.ifTrue ∧
      (leaving context node outcome).ifFalse = departing context name outcome.ifFalse := by
  unfold leaving departing
  rw [found, Option.all_some]
  split
  · exact ⟨OutcomeFacts.ifTrue_editEach _ _, OutcomeFacts.ifFalse_editEach _ _⟩
  · exact ⟨rfl, rfl⟩

namespace Crossed

variable {live : Bool}
  (crossed : Crossed context live node name facts outcome changed before middle after)

include crossed

/-! ### What a visit leaves alone -/

theorem frame : Frame (context.body.course name).sites (entered before name facts) middle :=
  Course.run_frame crossed.run

theorem inFacts_after : after.tables.inFacts = before.tables.inFacts.insert name facts := by
  rw [crossed.left.tables]
  exact congrArg Stores.inFacts crossed.frame.stores

theorem inFacts_self : after.tables.inFacts[name]? = some facts := by
  rw [crossed.inFacts_after]
  exact ExtTreeMap.getElem?_insert_self

theorem inFacts_other {other : NodeId} (different : other ≠ name) :
    after.tables.inFacts[other]? = before.tables.inFacts[other]? := by
  rw [crossed.inFacts_after, ExtTreeMap.getElem?_insert, if_neg]
  rw [Std.compare_eq_iff_eq]
  exact fun equal => different equal.symm

theorem outFacts_middle : middle.tables.outFacts = before.tables.outFacts :=
  congrArg Stores.outFacts crossed.frame.stores

theorem negativeFacts_middle : middle.tables.negativeFacts = before.tables.negativeFacts :=
  congrArg Stores.negativeFacts crossed.frame.stores

theorem outFacts_other {other : NodeId} (different : other ≠ name) :
    after.tables.outFacts[other]? = before.tables.outFacts[other]? := by
  rw [crossed.left.otherOut other different, crossed.outFacts_middle]

theorem negativeFacts_other {other : NodeId} (different : other ≠ name) :
    after.tables.negativeFacts[other]? = before.tables.negativeFacts[other]? := by
  rw [crossed.left.otherNegative other different, crossed.negativeFacts_middle]

theorem seeded_after : after.tables.seeded = before.tables.seeded := by
  have seeds : middle.tables.seeds = before.tables.seeds :=
    congrArg Stores.seeds crossed.frame.stores
  unfold Tables.seeded
  rw [crossed.left.tables, ← seeds]

theorem keeps_after : Keeps middle after := by
  apply Keeps.of_versions
  · intro expression _
    unfold RunState.version
    rw [crossed.left.versions]
  · rw [crossed.left.tables]

theorem keeps (usage : context.config.has .usageVersions = true) : Keeps before after := by
  have enters : Keeps before (entered before name facts) := .of_versions (fun _ _ => rfl) rfl
  exact (enters.trans (Course.run_keeps crossed.run usage)).trans crossed.keeps_after

end Crossed

end RunM

end SlotVersioning
