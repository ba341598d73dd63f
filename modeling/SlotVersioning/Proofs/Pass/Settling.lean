import SlotVersioning.Proofs.Pass.Visit

/-!
# Settling

Between the visits of a pass the state is `Settling`: what is stored after a visited node is what
its course carries, its visits are stable, and what is stored before it is what its edges bring,
unless the node is dirty. Every visit of a node keeps the state settling
(`Visited.settling`). When no node is dirty, all equations hold.
-/

namespace SlotVersioning

open Std

namespace RunM

variable {context : Context} {live : Bool} {node : FlowNode} {name : NodeId} {facts : Facts}
  {log : List (Visit × Facts)} {outcome : OutcomeFacts} {changed : Bool}
  {before middle after : RunState}

/-! ## What a visit of a node leaves alone -/

namespace Visited

variable (visited : Visited context live node name facts log outcome changed before middle after)

include visited

theorem version_after (expression : ExprId) :
    after.version expression = middle.version expression := by
  unfold RunState.version
  rw [visited.left.versions]

theorem last_after (slot : Slot) : after.last slot = middle.last slot := by
  unfold RunState.last
  rw [visited.left.tables]

theorem merged_after : after.tables.merged? = middle.tables.merged? := by
  rw [visited.left.tables]
  rfl

theorem inFacts_after : after.tables.inFacts = before.tables.inFacts.insert name facts := by
  have stores := congrArg Stores.inFacts visited.done.frame.stores
  rw [visited.left.tables]
  exact stores

private theorem seeds_after : after.tables.seeds = before.tables.seeds := by
  have stores := congrArg Stores.seeds visited.done.frame.stores
  rw [visited.left.tables]
  exact stores

theorem seeded_after : after.tables.seeded = before.tables.seeded := by
  unfold Tables.seeded
  rw [visited.seeds_after]

theorem inFacts_other {other : NodeId} (different : other ≠ name) :
    after.tables.inFacts[other]? = before.tables.inFacts[other]? := by
  rw [visited.inFacts_after, ExtTreeMap.getElem?_insert, if_neg]
  rw [Std.compare_eq_iff_eq]
  exact fun equal => different equal.symm

theorem inFacts_self : after.tables.inFacts[name]? = some facts := by
  rw [visited.inFacts_after]
  exact ExtTreeMap.getElem?_insert_self

theorem outFacts_middle : middle.tables.outFacts = before.tables.outFacts :=
  congrArg Stores.outFacts visited.done.frame.stores

theorem negativeFacts_middle : middle.tables.negativeFacts = before.tables.negativeFacts :=
  congrArg Stores.negativeFacts visited.done.frame.stores

theorem version_other {expression : ExprId}
    (outside : expression ∉ (context.body.course name).sites) :
    after.version expression = before.version expression :=
  (visited.version_after expression).trans (visited.done.frame.version expression outside)

private theorem fields_after (negative : before.FieldsNegative) : after.FieldsNegative := by
  have kept := visited.done.frame.fields ⟨negative.next, negative.given⟩
  have next : after.tables.nextFieldSlot = middle.tables.nextFieldSlot := by
    rw [visited.left.tables]
  have fields : after.tables.fields = middle.tables.fields := by
    rw [visited.left.tables]
  exact ⟨next ▸ kept.next, fields ▸ kept.given⟩

theorem grows (numbered : before.Numbered) : Grows before after ∧ after.Numbered := by
  have performed : Grows (entered before name facts) middle ∧ middle.Numbered :=
    visited.done.performs.grows numbered
  constructor
  · intro key sources found
    rw [visited.merged_after]
    exact performed.1 key sources found
  · intro key sources found
    rw [visited.merged_after] at found
    rw [visited.last_after]
    exact performed.2 key sources found

/-- What holds of the visited node and held of the other visited nodes holds of all of them. -/
theorem forall_stored {motive : NodeId → Facts → Prop} (here : motive name facts)
    (elsewhere : ∀ (other : NodeId) (stored : Facts), other ≠ name →
      before.tables.inFacts[other]? = some stored → motive other stored)
    (other : NodeId) (stored : Facts) (entering : after.tables.inFacts[other]? = some stored) :
    motive other stored := by
  by_cases same : other = name
  · subst same
    rw [visited.inFacts_self] at entering
    cases entering
    exact here
  · rw [visited.inFacts_other same] at entering
    exact elsewhere other stored same entering

theorem ne_of_unvisited {other : NodeId} (absent : after.tables.inFacts[other]? = none) :
    other ≠ name ∧ before.tables.inFacts[other]? = none := by
  by_cases same : other = name
  · rw [same, visited.inFacts_self] at absent
    exact nomatch absent
  · rw [visited.inFacts_other same] at absent
    exact ⟨same, absent⟩

/-! ## The edges -/

/-- Edges bring what they brought, but for those from the visited node when it changed. -/
theorem brought_same {source target : NodeId} (unchanged : source = name → changed = false)
    (slot : Slot) :
    after.tables.brought context.graph source target slot =
      before.tables.brought context.graph source target slot := by
  rw [visited.left.brought_same unchanged]
  unfold Tables.brought Tables.edgeFacts?
  rw [visited.outFacts_middle, visited.negativeFacts_middle]

theorem joins_same {target : NodeId} {slot : Slot} {reaching : VersionSet}
    (unchanged : name ∈ context.graph.predecessors target → changed = false)
    (joins : before.tables.Joins context.graph target slot reaching) :
    after.tables.Joins context.graph target slot reaching := by
  rw [visited.left.joins_iff unchanged, Tables.joins_congr visited.outFacts_middle
    visited.negativeFacts_middle (congrArg Stores.seeds visited.done.frame.stores)]
  exact joins

end Visited

end RunM

/-! ## Between the visits -/

/-- What is stored after a node is what its course carries from the facts. -/
structure Carried (context : Context) (state : RunState) (name : NodeId) (facts : Facts) :
    Prop where
  onTrue : ∃ out, state.tables.outFacts[name]? = some out ∧ ∀ slot : Slot, 0 ≤ slot →
    out.reaching slot =
      (context.body.course name).carry state.version slot (facts.reaching slot) true
  onFalse : (context.graph.negativeBranch? name).isSome →
    ∃ out, state.tables.negativeFacts[name]? = some out ∧ ∀ slot : Slot, 0 ≤ slot →
      out.reaching slot =
        (context.body.course name).carry state.version slot (facts.reaching slot) false

structure Settling (context : Context) (dirty : DirtyNodes) (state : RunState) : Prop where
  fields : state.FieldsNegative
  numbered : state.Numbered
  /-- Nothing is stored after a node that was not visited. -/
  unvisited : ∀ name : NodeId, state.tables.inFacts[name]? = none →
    state.tables.outFacts[name]? = none ∧ state.tables.negativeFacts[name]? = none
  unstuck : ∀ name facts, state.tables.inFacts[name]? = some facts →
    (context.body.course name).Unstuck
  carried : ∀ name facts, state.tables.inFacts[name]? = some facts →
    Carried context state name facts
  stable : ∀ name facts, state.tables.inFacts[name]? = some facts →
    (context.body.course name).StableFrom context.config facts state
  joins : ∀ name facts, state.tables.inFacts[name]? = some facts → name ∉ dirty →
    ∀ slot : Slot, 0 ≤ slot → state.tables.Joins context.graph name slot (facts.reaching slot)

/-- A node with a negative branch that was visited has facts for it. -/
theorem Settling.stored {context : Context} {dirty : DirtyNodes} {state : RunState}
    (settling : Settling context dirty state) (name : NodeId)
    (branch : (context.graph.negativeBranch? name).isSome)
    (present : state.tables.outFacts[name]? ≠ none) :
    state.tables.negativeFacts[name]? ≠ none := by
  cases entering : state.tables.inFacts[name]? with
  | none => exact absurd (settling.unvisited name entering).1 present
  | some facts =>
      rcases (settling.carried name facts entering).onFalse branch with ⟨out, stored, -⟩
      rw [stored]
      exact fun none => nomatch none

/-- With usage versions all sites of a visited node have versions. -/
theorem Settling.versioned {context : Context} {dirty : DirtyNodes} {state : RunState}
    (settling : Settling context dirty state) (regular : context.body.Regular)
    (usage : context.config.has .usageVersions = true) {name : NodeId} {facts : Facts}
    (entering : state.tables.inFacts[name]? = some facts) {expression : ExprId}
    (member : expression ∈ (context.body.course name).sites) : state.version expression ≠ 0 := by
  rcases Course.mem_sites.1 member with ⟨place, inCourse, target, visits, rfl⟩
  have ordinary := regular.ordinary_of_visit inCourse visits
  rcases Course.exists_arrival inCourse (facts.reaching target.slot) with ⟨arriving, arrives⟩
  exact (settling.stable name facts entering target.slot ordinary _ arrives target visits
    rfl).owned (.inl usage)

namespace Carried

variable {context : Context} {before after : RunState} {name : NodeId} {facts : Facts}

theorem congr (carried : Carried context before name facts)
    (out : after.tables.outFacts[name]? = before.tables.outFacts[name]?)
    (negative : after.tables.negativeFacts[name]? = before.tables.negativeFacts[name]?)
    (agree : ∀ expression ∈ (context.body.course name).sites,
      before.version expression = after.version expression) :
    Carried context after name facts where
  onTrue := by
    rcases carried.onTrue with ⟨stored, found, carries⟩
    refine ⟨stored, out.trans found, fun slot ordinary => ?_⟩
    rw [carries slot ordinary, Course.carry_congr agree]
  onFalse := fun branch => by
    rcases carried.onFalse branch with ⟨stored, found, carries⟩
    refine ⟨stored, negative.trans found, fun slot ordinary => ?_⟩
    rw [carries slot ordinary, Course.carry_congr agree]

end Carried

theorem Course.StableFrom.congr {config : Config} {course : Course} {facts : Facts}
    {before after : RunState} (stable : course.StableFrom config facts before)
    (agree : ∀ expression ∈ course.sites, before.version expression = after.version expression)
    (grows : Grows before after) : course.StableFrom config facts after := by
  intro slot ordinary arrival member target visits same
  rw [← Course.arrivals_congr agree] at member
  refine (stable slot ordinary arrival member target visits same).of_grows ?_ grows
  have inCourse := Course.mem_visits_of_arrival member
  exact (agree target.expression (Course.mem_sites_of_visit inCourse visits)).symm

namespace RunM

variable {context : Context} {live : Bool} {node : FlowNode} {name : NodeId} {facts : Facts}
  {log : List (Visit × Facts)} {outcome : OutcomeFacts} {changed : Bool}
  {before middle after : RunState} {dirty : DirtyNodes}

theorem mem_dirtied {other : NodeId} (clean : other ∉ dirtied node name changed dirty) :
    (other = name ∨ other ∉ dirty) ∧ (changed = true → other ∉ node.successors) := by
  have erased (outside : other ∉ dirty.erase name) : other = name ∨ other ∉ dirty := by
    rw [ExtTreeSet.mem_erase, not_and, Ne, Std.compare_eq_iff_eq] at outside
    by_cases same : name = other
    · exact .inl same.symm
    · exact .inr (outside same)
  unfold dirtied at clean
  split at clean
  · rw [ExtTreeSet.mem_insertMany_list, not_or, List.contains_iff_mem] at clean
    exact ⟨erased clean.1, fun _ => clean.2⟩
  · next unchanged => exact ⟨erased clean, fun new => absurd new unchanged⟩

/-- What leaves a node was not new, when a successor is not dirty after its visit. -/
theorem unchanged_of_clean (linked : context.graph.Linked)
    (found : context.graph.node? name = some node) {target : NodeId}
    (clean : target ∉ dirtied node name changed dirty)
    (edge : name ∈ context.graph.predecessors target) : changed = false := by
  rw [Bool.eq_false_iff]
  intro new
  apply (mem_dirtied clean).2 new
  rw [← FlowGraph.successors_of_node found]
  exact (linked name target).2 edge

/-- Only the successors of a node that was left differently become dirty. -/
theorem mem_of_dirtied {other : NodeId} (member : other ∈ dirtied node name changed dirty) :
    other ∈ dirty ∧ other ≠ name ∨ changed = true ∧ other ∈ node.successors := by
  have erased (inside : other ∈ dirty.erase name) : other ∈ dirty ∧ other ≠ name := by
    rw [ExtTreeSet.mem_erase, Ne, Std.compare_eq_iff_eq] at inside
    exact ⟨inside.2, fun same => inside.1 same.symm⟩
  unfold dirtied at member
  split at member
  · next new =>
      rw [ExtTreeSet.mem_insertMany_list, List.contains_iff_mem] at member
      exact member.imp erased fun successor => ⟨new, successor⟩
  · exact .inl (erased member)

theorem exists_mem_of_isEmpty (left : dirty.isEmpty = false) : ∃ other, other ∈ dirty := by
  by_contra none
  have empty : dirty = ∅ := by
    apply ExtTreeSet.ext_mem
    intro other
    exact iff_of_false (fun member => none ⟨other, member⟩) ExtTreeSet.not_mem_empty
  rw [empty] at left
  exact nomatch left

namespace Visited

variable (visited : Visited context live node name facts log outcome changed before middle after)

include visited

theorem carried (stored : (context.graph.negativeBranch? name).isSome →
    before.tables.outFacts[name]? ≠ none → before.tables.negativeFacts[name]? ≠ none) :
    Carried context after name facts where
  onTrue := by
    refine ⟨_, visited.left.out, fun slot ordinary => ?_⟩
    rw [(branches_leaving node outcome ordinary).1, funext visited.version_after]
    exact visited.done.onTrue slot ordinary
  onFalse := fun branch => by
    refine ⟨_, visited.left.negative branch ?_, fun slot ordinary => ?_⟩
    · rw [visited.outFacts_middle, visited.negativeFacts_middle]
      exact stored branch
    · rw [(branches_leaving node outcome ordinary).2, funext visited.version_after]
      exact visited.done.onFalse slot ordinary

private theorem stableFrom (unshared : context.body.Unshared) (numbered : before.Numbered) :
    (context.body.course name).StableFrom context.config facts after := by
  have stable := visited.done.stable (unshared.nodup_sites name) numbered
  intro slot ordinary arrival member target visits same
  rw [funext visited.version_after] at member ⊢
  rw [visited.merged_after]
  exact stable slot ordinary arrival member target visits same

/-- A visit of a node keeps the state settling. -/
theorem settling (unshared : context.body.Unshared) (found : context.graph.node? name = some node)
    (settling : Settling context dirty before) :
    Settling context (dirtied node name changed dirty) after := by
  have unchanged {target : NodeId} (clean : target ∉ dirtied node name changed dirty)
      (edge : name ∈ context.graph.predecessors target) : changed = false :=
    unchanged_of_clean unshared.built.linked found clean edge
  have grows := visited.grows settling.numbered
  have agree {other : NodeId} (different : other ≠ name) :
      ∀ expression ∈ (context.body.course other).sites,
        before.version expression = after.version expression := fun expression member =>
    (visited.version_other (unshared.sites_apart different expression member)).symm
  refine ⟨visited.fields_after settling.fields, grows.2, ?_, visited.forall_stored visited.unstuck
    fun other stored _ entering => settling.unstuck other stored entering,
    visited.forall_stored (visited.carried (settling.stored name)) ?_,
    visited.forall_stored (visited.stableFrom unshared settling.numbered) ?_,
    visited.forall_stored ?_ ?_⟩
  · intro other absent
    rcases visited.ne_of_unvisited absent with ⟨different, before⟩
    rw [visited.left.otherOut other different, visited.left.otherNegative other different,
      visited.outFacts_middle, visited.negativeFacts_middle]
    exact settling.unvisited other before
  · intro other stored different entering
    apply (settling.carried other stored entering).congr
    · rw [visited.left.otherOut other different, visited.outFacts_middle]
    · rw [visited.left.otherNegative other different, visited.negativeFacts_middle]
    · exact agree different
  · intro other stored different entering
    exact (settling.stable other stored entering).congr (agree different) grows.1
  · intro clean slot ordinary
    exact visited.joins_same (unchanged clean) (visited.joins slot)
  · intro other stored different entering clean slot ordinary
    have outside := (mem_dirtied clean).1.resolve_left different
    exact visited.joins_same (unchanged clean)
      (settling.joins other stored entering outside slot ordinary)

end Visited

end RunM

end SlotVersioning
