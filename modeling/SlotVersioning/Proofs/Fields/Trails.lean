import SlotVersioning.Proofs.Fields.Walks
import SlotVersioning.Proofs.Pass.Balanced
import SlotVersioning.Proofs.Trace.Usage

/-!
# Trails of fields

A trail leads from the visit of a field access through the rest of its node and over edges to the
entry of a node. The access is recalled there if no fields were forgotten on the way: nothing
clobbered them, and when fields are local to blocks, no node was left that ends a block. An invariant
of the run says that every slot of a field that is stored before a node belongs to an access that is
recalled there (`RunM.Trailed`).
-/

namespace SlotVersioning

open Std

/-! ## Blocks -/

namespace FlowGraph

/-- Control goes on from the node to several nodes, or to one that is also entered from elsewhere. -/
def EndsBlock (graph : FlowGraph) (node : NodeId) : Prop :=
  2 ≤ (graph.successors node).length ∨
    ∃ successor, graph.successors node = [successor] ∧
      ∃ other ∈ graph.predecessors successor, other ≠ node

variable {graph : FlowGraph} {name : NodeId} {node : FlowNode}

/-- A block goes on through the only edge from its source if this is the only edge to its target. -/
private theorem length_eq_one_iff (built : graph.Built) {successor : NodeId}
    (edge : name ∈ graph.predecessors successor) :
    (graph.predecessors successor).length = 1 ↔
      ∀ other ∈ graph.predecessors successor, other = name := by
  have once := (built.distinct successor).1
  constructor
  · intro single other member
    rcases List.length_eq_one_iff.1 single with ⟨only, same⟩
    rw [same, List.mem_singleton] at edge member
    exact member.trans edge.symm
  · intro alone
    generalize graph.predecessors successor = sources at edge once alone
    match sources with
    | [] => exact nomatch edge
    | [only] => rfl
    | first :: second :: rest =>
        have same : first = second :=
          (alone first (by simp)).trans (alone second (by simp)).symm
        rw [same] at once
        simp at once

private theorem staysInBlock_iff (built : graph.Built) (found : graph.node? name = some node) :
    RunM.staysInBlock graph node = true ↔ ¬ graph.EndsBlock name := by
  unfold RunM.staysInBlock EndsBlock
  rw [successors_of_node found]
  cases onward : node.successors with
  | nil => simp
  | cons successor more =>
      cases more with
      | nil =>
          have edge : name ∈ graph.predecessors successor := by
            apply (built.linked name successor).1
            rw [successors_of_node found, onward]
            exact List.mem_cons_self
          simp [length_eq_one_iff built edge]
      | cons other rest => simp

end FlowGraph

/-! ## Trails -/

/-- A trail from a visit of the field access to the entry of a node: the visits in between, and the
nodes that are left on the way. -/
inductive Body.Trail (body : Body) (expression : ExprId) :
    List Visit → List NodeId → NodeId → Prop
  | leave {earlier between : List Visit} {source target : NodeId} {outcome : Bool}
      (walk : (body.course source).Walk (earlier ++ .field expression :: between) outcome)
      (edge : target ∈ body.graph.successors source)
      (continues : outcome = body.graph.edgeOutcome source target) :
      Trail body expression between [source] target
  | onward {between more : List Visit} {left : List NodeId} {source target : NodeId}
      {outcome : Bool} (before : Trail body expression between left source)
      (walk : (body.course source).Walk more outcome)
      (edge : target ∈ body.graph.successors source)
      (continues : outcome = body.graph.edgeOutcome source target) :
      Trail body expression (between ++ more) (left ++ [source]) target

/-- Fields are not forgotten when the node is left. -/
def Config.HoldsAt (config : Config) (graph : FlowGraph) (node : NodeId) : Prop :=
  config.has .blockLocalFields = true → ¬ graph.EndsBlock node

/-- No fields are forgotten on the way. -/
structure Config.Spares (config : Config) (graph : FlowGraph) (between : List Visit)
    (left : List NodeId) : Prop where
  unclobbered : Unclobbered between
  holds : ∀ node ∈ left, config.HoldsAt graph node

/-- A trail leads from the field access to the entry of the node, and no fields are forgotten on the
way. -/
def Body.Recalled (body : Body) (config : Config) (expression : ExprId) (node : NodeId) : Prop :=
  ∃ between left, body.Trail expression between left node ∧ config.Spares body.graph between left

namespace Body

variable {body : Body} {config : Config} {names : RunState} {slot : Slot} {source target : NodeId}
  {visits : List Visit} {outcome : Bool}

/-- The slot belongs to an access that is recalled at the node. -/
def RecallsSlot (body : Body) (config : Config) (names : RunState) (slot : Slot) (node : NodeId) :
    Prop :=
  ∃ expression, names.fieldSlot? expression = some slot ∧ body.Recalled config expression node

theorem RecallsSlot.mono {after : RunState} (recalls : body.RecallsSlot config names slot source)
    (keeps : KeepsFields names after) : body.RecallsSlot config after slot source := by
  rcases recalls with ⟨expression, given, recalled⟩
  exact ⟨expression, keeps.fieldSlot expression slot given, recalled⟩

/-- What is remembered at the end of a walk is recalled behind an edge that goes on from there. -/
private theorem recallsSlot_onward (walk : (body.course source).Walk visits outcome)
    (edge : target ∈ body.graph.successors source)
    (continues : outcome = body.graph.edgeOutcome source target)
    (holds : config.HoldsAt body.graph source)
    (known : names.Known slot (body.RecallsSlot config names slot source) visits) :
    body.RecallsSlot config names slot target := by
  rcases known with ⟨⟨expression, given, between, left, trail, spares⟩, unclobbered⟩ |
    ⟨expression, given, earlier, between, rfl, unclobbered⟩
  · refine ⟨expression, given, _, _, .onward trail walk edge continues,
      spares.unclobbered.append unclobbered, List.forall_mem_append.2 ⟨spares.holds, ?_⟩⟩
    exact List.forall_mem_singleton.2 holds
  · exact ⟨expression, given, between, _, .leave walk edge continues, unclobbered,
      List.forall_mem_singleton.2 holds⟩

end Body

/-! ## What edges bring -/

section

variable {context : Context} {state : RunState} {slot : Slot} {facts : Facts}
  {source target : NodeId}

/-- The slot of a field departs from a node that does not end its block, if it gets there. -/
theorem RunM.mem_departing_iff (built : context.graph.Built)
    (edge : target ∈ context.graph.successors source) (negative : slot < 0) :
    1 ∈ (departing context source facts).reaching slot ↔
      context.config.HoldsAt context.graph source ∧ 1 ∈ facts.reaching slot := by
  have known := FlowGraph.lt_size_of_successor edge
  have found : context.graph.node? source = some context.graph.nodes[source] :=
    Array.getElem?_eq_getElem known
  have stays := FlowGraph.staysInBlock_iff built found
  unfold departing Config.HoldsAt
  rw [found, Option.all_some]
  by_cases blockwise : context.config.has .blockLocalFields = true
  · by_cases ends : context.graph.EndsBlock source
    · have outside : ¬ 0 ≤ slot := Int.not_le.2 negative
      rw [if_pos (by simp [blockwise, Bool.eq_false_iff, stays, ends]), Facts.reaching_withoutFields,
        if_neg outside]
      exact iff_of_false (VersionSet.not_mem_empty 1) fun both => both.1 blockwise ends
    · rw [if_neg (by simp [blockwise, stays, ends])]
      exact ⟨fun member => ⟨fun _ => ends, member⟩, And.right⟩
  · rw [if_neg (by simp [blockwise])]
    exact ⟨fun member => ⟨fun on => absurd on blockwise, member⟩, And.right⟩

/-- An edge brings the slot of a field if the fields are held where it begins and a walk through the
course there, with the outcome that the edge continues, remembers the slot. -/
theorem Balanced.brings_field_iff (balanced : Balanced context state)
    (regular : context.body.Regular) (versioned : context.config.has .fieldVersions = true)
    (opened : (context.body.course source).Open)
    (stored : state.tables.inFacts[source]? = some facts)
    (edge : target ∈ context.graph.successors source) (negative : slot < 0) :
    1 ∈ state.tables.brought context.graph source target slot ↔
      context.config.HoldsAt context.graph source ∧
        (context.body.course source).Recalls state slot (1 ∈ facts.reaching slot)
          (context.graph.edgeOutcome source target) := by
  have ordinary : (context.body.course source).Ordinary := fun place member target visits =>
    regular.ordinary_of_visit member visits
  have ending := @Course.mem_ending_iff context.config state slot facts
    (context.graph.edgeOutcome source target) versioned negative _ ordinary opened
  rw [balanced.brought stored ⟨.refl state, fun _ _ => rfl⟩ target slot, ← ending]
  unfold Course.ending FlowGraph.edgeOutcome RunM.transferred
  by_cases branch : context.graph.negativeBranch? source = some target
  · rw [if_pos branch, bne_eq_false_iff_eq.2 branch]
    exact RunM.mem_departing_iff regular.built edge negative
  · rw [if_neg branch, bne_iff_ne.2 branch]
    exact RunM.mem_departing_iff regular.built edge negative

end

namespace RunM

variable {context : Context} {dirty : DirtyNodes} {before : RunState} {slot : Slot}
  {source target : NodeId}

/-! ## What is stored is recalled -/

/-- Fields do not enter from outside, and every slot of a field that is stored before a node is
recalled there. -/
structure Trailed (context : Context) (state : RunState) : Prop where
  balanced : Balanced context state
  seeds : ∀ node, ∀ slot < 0, 1 ∉ state.tables.seeded node slot
  recalls : ∀ (node : NodeId) (facts : Facts), state.tables.inFacts[node]? = some facts →
    ∀ slot < 0, 1 ∈ facts.reaching slot →
      context.body.RecallsSlot context.config state slot node

/-- What an edge brings is recalled at its target. -/
private theorem Trailed.recalls_of_brought (trailed : Trailed context before)
    (regular : context.body.Regular) (versioned : context.config.has .fieldVersions = true)
    (settling : Settling context dirty before) (edge : source ∈ context.graph.predecessors target)
    (negative : slot < 0) (brings : 1 ∈ before.tables.brought context.graph source target slot) :
    context.body.RecallsSlot context.config before slot target := by
  have forward := (regular.built.linked source target).2 edge
  rcases settling.visited_of_brought brings with ⟨facts, entering⟩
  have opened := Body.open_course (settling.unstuck source facts entering)
  rcases (trailed.balanced.brings_field_iff regular versioned opened entering forward
    negative).1 brings with ⟨holds, visits, walk, known⟩
  refine Body.recallsSlot_onward walk forward rfl holds (known.imp ?_)
  exact trailed.recalls source facts entering slot negative

theorem invariant_trailed (regular : context.body.Regular)
    (versioned : context.config.has .fieldVersions = true) :
    Invariant context (Trailed context) where
  visit := by
    intro live dirty node name facts log outcome changed before middle after found settling
      trailed visited
    refine ⟨visited.balanced regular.unshared found settling trailed.balanced, ?_,
      visited.forall_stored ?_ ?_⟩
    · rw [visited.seeded_after]
      exact trailed.seeds
    · intro slot negative member
      rcases (visited.joins slot 1).1 member with ⟨source, edge, brings⟩ | seed
      · exact (trailed.recalls_of_brought regular versioned settling edge negative brings).mono
          visited.keepsFields
      · exact absurd seed (trailed.seeds name slot negative)
    · intro other stored _ entering slot negative member
      exact (trailed.recalls other stored entering slot negative member).mono visited.keepsFields
  aside := by
    intro before after trailed aside
    refine ⟨trailed.balanced.aside aside, ?_, ?_⟩
    · rw [aside.seeded]
      exact trailed.seeds
    · rw [aside.inFacts]
      intro node facts entering slot negative member
      exact (trailed.recalls node facts entering slot negative member).mono
        (.of_fields aside.fields)

end RunM

end SlotVersioning
