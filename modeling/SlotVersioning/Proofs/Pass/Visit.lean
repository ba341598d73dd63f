import SlotVersioning.Proofs.Body.Regular
import SlotVersioning.Proofs.Run.Again

/-!
# Visits of nodes

What a pass does at one node, as far as variables are concerned: it joins what the edges bring, runs
the course of the node, stores what leaves it, and makes its successors dirty when that is new
(`visit_ok`).
-/

namespace SlotVersioning

open Std

/-- What is reached by facts that need not be there is reached by some that are. -/
theorem Facts.mem_reaching_getD {stored : Option Facts} {slot : Slot} {version : Version} :
    version ∈ (stored.getD ∅).reaching slot ↔
      ∃ facts, stored = some facts ∧ version ∈ facts.reaching slot := by
  cases stored with
  | none => simp
  | some facts => simp

namespace Tables

/-- The versions of a slot that enter a node. -/
def entering (tables : Tables) (node : NodeId) (slot : Slot) : VersionSet :=
  ((tables.inFacts[node]?).getD ∅).reaching slot

theorem entering_of_stored {tables : Tables} {node : NodeId} {facts : Facts}
    (stored : tables.inFacts[node]? = some facts) (slot : Slot) :
    tables.entering node slot = facts.reaching slot := by
  unfold entering
  rw [stored, Option.getD_some]

/-- The versions of a slot that an edge brings. -/
def brought (tables : Tables) (graph : FlowGraph) (source target : NodeId) (slot : Slot) :
    VersionSet :=
  ((tables.edgeFacts? graph source target).getD ∅).reaching slot

/-- The versions of a slot that enter a node from outside. -/
def seeded (tables : Tables) (node : NodeId) (slot : Slot) : VersionSet :=
  ((tables.seeds[node]?).getD ∅).reaching slot

section

variable {tables : Tables} {graph : FlowGraph} {source node : NodeId} {slot : Slot}
  {version : Version}

theorem mem_entering : version ∈ tables.entering node slot ↔
    ∃ facts, tables.inFacts[node]? = some facts ∧ version ∈ facts.reaching slot :=
  Facts.mem_reaching_getD

theorem mem_brought : version ∈ tables.brought graph source node slot ↔
    ∃ facts, tables.edgeFacts? graph source node = some facts ∧ version ∈ facts.reaching slot :=
  Facts.mem_reaching_getD

theorem mem_seeded : version ∈ tables.seeded node slot ↔
    ∃ facts, tables.seeds[node]? = some facts ∧ version ∈ facts.reaching slot :=
  Facts.mem_reaching_getD

end

/-- What enters a node is what its edges bring and what enters from outside. -/
def Joins (tables : Tables) (graph : FlowGraph) (node : NodeId) (slot : Slot)
    (reaching : VersionSet) : Prop :=
  ∀ version, version ∈ reaching ↔
    (∃ source ∈ graph.predecessors node, version ∈ tables.brought graph source node slot) ∨
      version ∈ tables.seeded node slot

theorem joins_congr {before after : Tables} (out : after.outFacts = before.outFacts)
    (negative : after.negativeFacts = before.negativeFacts) (seeds : after.seeds = before.seeds)
    (graph : FlowGraph) (node : NodeId) (slot : Slot) (reaching : VersionSet) :
    after.Joins graph node slot reaching ↔ before.Joins graph node slot reaching := by
  unfold Joins brought edgeFacts? seeded
  rw [out, negative, seeds]

/-! ## Arriving -/

private theorem arriving_of_noPaths (tables : Tables) {graph : FlowGraph} (config : Config)
    (node : NodeId) {source : NodeId} (noPaths : graph.shortPaths? source = none) :
    tables.arriving graph config node source =
      .ok ((tables.edgeFacts? graph source node).getD ∅) := by
  unfold arriving exitFacts
  rw [noPaths]
  rfl

/-- The edge facts joined one after the other. -/
theorem foldlM_arriving (tables : Tables) {graph : FlowGraph} (config : Config) (node : NodeId)
    (noPaths : ∀ exit, graph.shortPaths? exit = none) (sources : List NodeId) (start : Facts) :
    (sources.foldlM (fun facts source =>
      return facts ∪ (← tables.arriving graph config node source)) start : Except Fault Facts) =
      .ok (sources.foldl
        (fun facts source => facts ∪ (tables.edgeFacts? graph source node).getD ∅) start) := by
  induction sources generalizing start with
  | nil => rfl
  | cons head tail induction =>
      rw [List.foldlM_cons, List.foldl_cons, arriving_of_noPaths tables config node (noPaths head)]
      exact induction _

theorem mem_foldl_union (brings : NodeId → Facts) (sources : List NodeId) (start : Facts)
    (slot : Slot) (version : Version) :
    version ∈ (sources.foldl (fun facts source => facts ∪ brings source) start).reaching slot ↔
      version ∈ start.reaching slot ∨
        ∃ source ∈ sources, version ∈ (brings source).reaching slot := by
  induction sources generalizing start with
  | nil => simp
  | cons head tail induction =>
      rw [List.foldl_cons, induction, Facts.reaching_union, VersionSet.mem_union, or_assoc]
      simp

end Tables

namespace RunM

variable {context : Context} {name : NodeId}

theorem arrive_ok {facts : Facts} {state final : RunState}
    (noPaths : ∀ exit, context.graph.shortPaths? exit = none)
    (run : arrive context name state = .ok facts final) :
    final = { state with tables := { state.tables with
        inFacts := state.tables.inFacts.insert name facts } } ∧
      ∀ slot, state.tables.Joins context.graph name slot (facts.reaching slot) := by
  unfold arrive at run
  rw [bind_eq (tables_apply _), Tables.foldlM_arriving _ _ _ noPaths] at run
  rcases bind_ok run with ⟨arrived, middle, joined, run⟩
  cases joined
  rw [bind_eq (editTables_apply _ _)] at run
  rcases pure_ok run with ⟨rfl, rfl⟩
  refine ⟨rfl, fun slot version => ?_⟩
  rw [Facts.reaching_union, VersionSet.mem_union, Tables.mem_foldl_union, Facts.reaching_empty]
  simp only [VersionSet.not_mem_empty, false_or]
  rfl

/-! ## Leaving -/

/-- What is stored at a node when it is left, and whether that is new. -/
structure Left (context : Context) (name : NodeId) (outcome : OutcomeFacts) (changed : Bool)
    (before after : RunState) : Prop where
  versions : after.versions = before.versions
  tables : after.tables = { before.tables with
    outFacts := after.tables.outFacts, negativeFacts := after.tables.negativeFacts }
  out : after.tables.outFacts[name]? = some outcome.ifTrue
  negative : (context.graph.negativeBranch? name).isSome →
    (before.tables.outFacts[name]? ≠ none → before.tables.negativeFacts[name]? ≠ none) →
      after.tables.negativeFacts[name]? = some outcome.ifFalse
  otherOut : ∀ other, other ≠ name →
    after.tables.outFacts[other]? = before.tables.outFacts[other]?
  otherNegative : ∀ other, other ≠ name →
    after.tables.negativeFacts[other]? = before.tables.negativeFacts[other]?
  same : changed = false → after.tables.outFacts = before.tables.outFacts ∧
    after.tables.negativeFacts = before.tables.negativeFacts
  /-- Without a negative branch nothing is stored for a false outcome. -/
  noBranch : context.graph.negativeBranch? name = none →
    after.tables.negativeFacts = before.tables.negativeFacts
  differs : changed = true → differs before.tables name outcome = true

theorem leave_ok {outcome : OutcomeFacts} {changed : Bool} {state final : RunState}
    (run : leave context name outcome state = .ok changed final) :
    Left context name outcome changed state final := by
  have other {facts : ExtTreeMap NodeId Facts} {entry : Facts} {node : NodeId}
      (different : node ≠ name) : (facts.insert name entry)[node]? = facts[node]? := by
    rw [ExtTreeMap.getElem?_insert, if_neg]
    rw [Std.compare_eq_iff_eq]
    exact fun equal => different equal.symm
  unfold leave at run
  rw [bind_eq (tables_apply _)] at run
  split at run
  · next differ =>
    rw [bind_eq (report_apply _ _), bind_eq (editTables_apply _ _)] at run
    rcases pure_ok run with ⟨rfl, rfl⟩
    refine ⟨rfl, rfl, ExtTreeMap.getElem?_insert_self, fun branch _ => ?_, fun node different =>
      other different, fun node different => ?_, (fun same => nomatch same), fun noBranch => ?_,
      fun _ => differ⟩
    · dsimp only
      rw [if_pos branch]
      exact ExtTreeMap.getElem?_insert_self
    · dsimp only
      split
      · exact other different
      · rfl
    · simp [noBranch]
  · next unchanged =>
    rcases pure_ok run with ⟨rfl, rfl⟩
    unfold differs at unchanged
    rw [Bool.or_eq_true, not_or] at unchanged
    have out : final.tables.outFacts[name]? = some outcome.ifTrue := by
      simpa using unchanged.1
    refine ⟨rfl, rfl, out, fun branch stored => ?_, fun _ _ => rfl, fun _ _ => rfl,
      fun _ => ⟨rfl, rfl⟩, fun _ => rfl, fun new => nomatch new⟩
    have present := stored (by rw [out]; exact fun none => nomatch none)
    cases negative : final.tables.negativeFacts[name]? with
    | none => exact absurd negative present
    | some facts =>
        have equal := unchanged.2
        rw [negative] at equal
        simpa using equal

/-- Edges bring what they brought, but for those from the node when it is left differently. -/
theorem Left.brought_same {outcome : OutcomeFacts} {changed : Bool} {before after : RunState}
    (left : Left context name outcome changed before after) {source : NodeId}
    (unchanged : source = name → changed = false) (target : NodeId) (slot : Slot) :
    after.tables.brought context.graph source target slot =
      before.tables.brought context.graph source target slot := by
  unfold Tables.brought Tables.edgeFacts?
  by_cases same : source = name
  · rw [(left.same (unchanged same)).1, (left.same (unchanged same)).2]
  · rw [left.otherOut source same, left.otherNegative source same]

/-- The equation of a node stays when no predecessor is left differently. -/
theorem Left.joins_iff {outcome : OutcomeFacts} {changed : Bool} {before after : RunState}
    (left : Left context name outcome changed before after) {target : NodeId}
    (unchanged : name ∈ context.graph.predecessors target → changed = false) (slot : Slot)
    (reaching : VersionSet) :
    after.tables.Joins context.graph target slot reaching ↔
      before.tables.Joins context.graph target slot reaching := by
  have seeded : after.tables.seeded = before.tables.seeded := by
    unfold Tables.seeded
    rw [left.tables]
  have brought (source : NodeId) (edge : source ∈ context.graph.predecessors target) :=
    left.brought_same (fun same : source = name => unchanged (same ▸ edge)) target slot
  apply forall_congr'
  intro version
  rw [seeded]
  apply iff_congr Iff.rfl
  apply or_congr_left
  constructor
  · rintro ⟨source, edge, brings⟩
    exact ⟨source, edge, brought source edge ▸ brings⟩
  · rintro ⟨source, edge, brings⟩
    exact ⟨source, edge, (brought source edge).symm ▸ brings⟩

/-! ## The whole visit -/

theorem branches_leaving (node : FlowNode) (outcome : OutcomeFacts) {slot : Slot}
    (ordinary : 0 ≤ slot) :
    (leaving context node outcome).ifTrue.reaching slot = outcome.ifTrue.reaching slot ∧
      (leaving context node outcome).ifFalse.reaching slot = outcome.ifFalse.reaching slot := by
  unfold leaving
  split
  · rw [OutcomeFacts.ifTrue_editEach, OutcomeFacts.ifFalse_editEach,
      Facts.reaching_withoutFields, Facts.reaching_withoutFields, if_pos ordinary,
      if_pos ordinary]
    exact ⟨rfl, rfl⟩
  · exact ⟨rfl, rfl⟩

/-- The state in which the course of a node is run. -/
def entered (state : RunState) (name : NodeId) (facts : Facts) : RunState :=
  { state with tables := { state.tables with
      inFacts := state.tables.inFacts.insert name facts } }

/-- What arrives over the edges and the seeds of a node are joined and stored. -/
theorem arrive_parts {facts : Facts} {state final : RunState}
    (run : arrive context name state = .ok facts final) :
    ∃ joined, (context.graph.predecessors name).foldlM (fun facts source =>
        return facts ∪ (← state.tables.arriving context.graph context.config name source))
        (∅ : Facts) = .ok joined ∧
      facts = joined ∪ (state.tables.seeds[name]?).getD ∅ ∧ final = entered state name facts := by
  unfold arrive at run
  rw [bind_eq (tables_apply _)] at run
  cases joining : (context.graph.predecessors name).foldlM (fun facts source =>
      return facts ∪ (← state.tables.arriving context.graph context.config name source))
      (∅ : Facts) with
  | error fault =>
      rw [joining] at run
      exact nomatch run
  | ok joined =>
      rw [joining] at run
      cases run
      exact ⟨joined, rfl, rfl, rfl⟩

/-- A visit of a node: `facts` enter it, `log` is performed until `middle`, and `outcome` leaves
it. -/
structure Visited (context : Context) (live : Bool) (node : FlowNode) (name : NodeId)
    (facts : Facts) (log : List (Visit × Facts)) (outcome : OutcomeFacts) (changed : Bool)
    (before middle after : RunState) : Prop where
  joins : ∀ slot, before.tables.Joins context.graph name slot (facts.reaching slot)
  done : (context.body.course name).Done (context.site node.statement live) facts
    outcome.branches log (entered before name facts) middle
  unstuck : (context.body.course name).Unstuck
  run : (context.body.course name).run (context.site node.statement live) facts
    (entered before name facts) = .ok outcome.branches middle
  left : Left context name (leaving context node outcome) changed middle after

/-- The nodes that are dirty after a visit. -/
def dirtied (node : FlowNode) (name : NodeId) (changed : Bool) (dirty : DirtyNodes) :
    DirtyNodes :=
  if changed then (dirty.erase name).insertMany node.successors else dirty.erase name

/-- A visit is an arrival, an evaluation of the node and a departure. -/
theorem visit_steps {live : Bool} {node : FlowNode} {dirty dirtyAfter : DirtyNodes}
    {before after : RunState}
    (run : visit context live dirty (node, name) before = .ok dirtyAfter after) :
    ∃ facts enters outcome middle changed, arrive context name before = .ok facts enters ∧
      evaluateNode context (context.site node.statement live) node facts enters =
        .ok outcome middle ∧
      leave context name (leaving context node outcome) middle = .ok changed after ∧
      dirtyAfter = dirtied node name (changed && !context.graph.isExtra name) dirty := by
  unfold visit at run
  dsimp only at run
  rcases bind_ok run with ⟨facts, enters, arrives, run⟩
  rcases bind_ok run with ⟨outcome, middle, evaluates, run⟩
  rcases bind_ok run with ⟨changed, last, leaves, run⟩
  refine ⟨facts, enters, outcome, middle, changed, arrives, evaluates, ?_⟩
  unfold dirtied
  split at run
  · next new =>
      rcases pure_ok run with ⟨rfl, rfl⟩
      exact ⟨leaves, (if_pos new).symm⟩
  · next same =>
      rcases pure_ok run with ⟨rfl, rfl⟩
      exact ⟨leaves, (if_neg same).symm⟩

theorem visit_ok {live : Bool} {node : FlowNode} {dirty dirtyAfter : DirtyNodes}
    {state final : RunState} (unshared : context.body.Unshared) (negative : state.FieldsNegative)
    (found : context.graph.node? name = some node)
    (run : visit context live dirty (node, name) state = .ok dirtyAfter final) :
    ∃ facts log outcome changed middle,
      Visited context live node name facts log outcome changed state middle final ∧
        dirtyAfter = dirtied node name changed dirty := by
  rcases visit_steps run with
    ⟨facts, enters, outcome, middle, changed, arrives, evaluates, leaves, rfl⟩
  rcases arrive_ok unshared.noShortPaths arrives with ⟨rfl, joins⟩
  have course := course_of_evaluateNode found evaluates
  rcases Course.run_ok course (unshared.nodup_sites name) ⟨negative.next, negative.given⟩ with
    ⟨log, done⟩
  refine ⟨facts, log, outcome, changed, middle,
    ⟨joins, done, Course.unstuck_of_run course, course, leave_ok leaves⟩, ?_⟩
  have ordinaryNode : context.graph.isExtra name = false := unshared.noExtraNodes name
  rw [ordinaryNode, Bool.not_false, Bool.and_true]

end RunM

end SlotVersioning
