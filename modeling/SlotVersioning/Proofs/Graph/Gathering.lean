import SlotVersioning.Proofs.Graph.Feeding

/-!
# Reads at rest

A read of several versions gathers them when just these flow into it, and perhaps its phantom. Then
its inputs need no change: pruning them removes nothing (`Gathers.pruned`), and every wanted version
is found wired.
-/

namespace SlotVersioning

open Std

/-- A set of several versions has two different ones. -/
theorem VersionSet.exists_two_of_several {set : VersionSet} (several : 2 ≤ set.cardinality) :
    ∃ left ∈ set, ∃ right ∈ set, left ≠ right := by
  rw [cardinality_eq] at several
  have ascending := toList_ascending set
  match listed : set.toList with
  | [] | [_] =>
      rw [listed] at several
      exact absurd several (by simp)
  | left :: right :: rest =>
      rw [listed] at ascending
      have less := (List.pairwise_cons.1 ascending).1 right List.mem_cons_self
      refine ⟨left, mem_toList.1 ?_, right, mem_toList.1 ?_, Nat.ne_of_lt less⟩ <;> simp [listed]

namespace VersionGraph

variable {graph next : VersionGraph} {known : Slot → Nat} {reads : VersionKey → Prop}
  {key : VersionKey} {phantom : Option Version} {reaching : VersionSet} {position : Nat}

/-- A version into which several versions flow has an input for each of them. -/
theorem Shaped.merging_of_flows (shaped : graph.Shaped known reads) {origin : VersionOrigin}
    (found : graph.identity? position = some (key, origin)) (noInput : origin ≠ .phiInput)
    (several : 2 ≤ reaching.cardinality)
    (flows : ∀ version ∈ reaching, graph.FlowsTo ⟨key.slot, version⟩ position) :
    graph.Merging position := by
  refine (shaped.node position key origin found noInput).resolve_left fun single => ?_
  rcases VersionSet.exists_two_of_several several with
    ⟨left, leftMember, right, rightMember, different⟩
  rcases flows left leftMember with ⟨first, fromFirst, leftBrought⟩
  rcases flows right rightMember with ⟨second, fromSecond, rightBrought⟩
  -- Two different versions need two predecessors.
  have few := single.few
  rcases listed : graph.predecessorsAt position with _ | ⟨only, _ | ⟨more, rest⟩⟩
  · rw [listed] at fromFirst
    exact nomatch fromFirst
  · rw [listed, List.mem_singleton] at fromFirst fromSecond
    rw [fromFirst] at leftBrought
    rw [fromSecond, leftBrought] at rightBrought
    exact different (congrArg VersionKey.version (Option.some.inj rightBrought))
  · rw [listed] at few
    exact absurd few (by simp)

/-- Just the versions flow into the node of the key, and perhaps a phantom. -/
structure Gathers (graph : VersionGraph) (phantom : Option Version) (key : VersionKey)
    (reaching : VersionSet) (position : Nat) : Prop where
  found : ∃ origin, graph.identity? position = some (key, origin) ∧ origin ≠ .phiInput
  flows : ∀ version ∈ reaching, graph.FlowsTo ⟨key.slot, version⟩ position
  flowed : ∀ source, graph.FlowsTo source position →
    source.version ∈ reaching ∨ phantom = some source.version

namespace Gathers

theorem of_similar (gathers : graph.Gathers phantom key reaching position)
    (similar : Similar graph next) : next.Gathers phantom key reaching position where
  found := by
    rw [similar.identity]
    exact gathers.found
  flows := fun version member => (similar.flowsTo_iff _ _).2 (gathers.flows version member)
  flowed := fun source flows => gathers.flowed source ((similar.flowsTo_iff _ _).1 flows)

theorem of_phantom {after : Option Version} (gathers : graph.Gathers phantom key reaching position)
    (kept : ∀ version, phantom = some version → after = some version) :
    graph.Gathers after key reaching position :=
  ⟨gathers.found, gathers.flows, fun source flows => (gathers.flowed source flows).imp_right
    (kept source.version)⟩

/-- A read that gathers several versions has an input for each of them. -/
private theorem merging (gathers : graph.Gathers phantom key reaching position)
    (shaped : graph.Shaped known reads) (several : 2 ≤ reaching.cardinality) :
    graph.Merging position := by
  rcases gathers.found with ⟨origin, found, noInput⟩
  exact shaped.merging_of_flows found noInput several gathers.flows

end Gathers

/-! ## Nothing to prune -/

/-- A node that is there already is found as it is. -/
theorem ensure_same (origin : VersionOrigin) (found : graph.position? key = some position) :
    graph.ensure key origin = (graph, position) := by
  have same : (fun node : VersionNode => { node with debugName := node.debugName.or none }) = id := by
    funext node
    rw [Option.or_none]
    rfl
  have nodes : graph.nodes.modify position id = graph.nodes := by
    refine Array.ext_getElem? fun index => ?_
    rw [Array.getElem?_modify]
    split <;> simp
  unfold ensure editAt
  rw [found]
  dsimp only
  rw [same, nodes]

/-- The graph while the inputs of a node are looked through and none is removed. -/
structure Spared (start : VersionGraph) (target : Nat) (pending : List Nat)
    (current : VersionGraph) (wired : VersionSet) : Prop where
  same : current = start
  inside : ∀ predecessor ∈ pending, predecessor ∈ start.predecessorsAt target
  wires : ∀ predecessor ∈ start.predecessorsAt target, predecessor ∈ pending ∨
    ∀ version, start.inputSource? predecessor = some version → version ∈ wired

/-- Nothing is pruned where all predecessors carry wanted versions. -/
theorem spared_pruneInputs {wanted : Version → Bool}
    (each : ∀ predecessor ∈ graph.predecessorsAt position,
      ∃ version, (graph.inputSource? predecessor).filter wanted = some version) :
    Spared graph position [] (graph.pruneInputs position wanted).1
      (graph.pruneInputs position wanted).2 := by
  unfold pruneInputs
  refine foldl_pending (motive := fun pending (entry : VersionGraph × VersionSet) =>
    Spared graph position pending entry.1 entry.2) ?_ ?_
  · rintro head tail ⟨current, wired⟩ ⟨rfl, inside, wires⟩
    rcases each head (inside head List.mem_cons_self) with ⟨version, carries⟩
    dsimp only
    rw [carries]
    refine ⟨rfl, fun other member => inside other (List.mem_cons_of_mem _ member),
      fun other member => ?_⟩
    rcases wires other member with waiting | found
    · rcases List.mem_cons.1 waiting with rfl | later
      · refine .inr fun carried same => VersionSet.mem_insert.2 (.inl ?_)
        have known := (Option.filter_eq_some_iff.1 carries).1
        rw [same] at known
        exact Option.some.inj known
      · exact .inl later
    · exact .inr fun carried same => VersionSet.mem_insert.2 (.inr (found carried same))
  · exact ⟨rfl, fun _ member => member, fun _ member => .inl member⟩

/-- A read that gathers several versions is pruned of nothing, and all of them are wired. -/
theorem Gathers.pruned (gathers : graph.Gathers phantom key reaching position)
    (shaped : graph.Shaped known reads) (several : 2 ≤ reaching.cardinality)
    (wanted : Version → Bool) (wants : ∀ version ∈ reaching, wanted version = true)
    (phantomWanted : ∀ version, phantom = some version → wanted version = true) :
    (graph.pruneInputs position wanted).1 = graph ∧
      ∀ version ∈ reaching, version ∈ (graph.pruneInputs position wanted).2 := by
  have merging := gathers.merging shaped several
  have brought {predecessor : Nat} (member : predecessor ∈ graph.predecessorsAt position) :
      graph.broughtBy? predecessor = graph.carriedAt predecessor :=
    if_pos (merging.inputs predecessor member)
  have source {predecessor : Nat} (member : predecessor ∈ graph.predecessorsAt position) :
      graph.inputSource? predecessor = (graph.carriedAt predecessor).map VersionKey.version :=
    if_pos (merging.inputs predecessor member)
  have carries (predecessor : Nat) (member : predecessor ∈ graph.predecessorsAt position) :
      ∃ version, (graph.inputSource? predecessor).filter wanted = some version := by
    -- An input carries a version, which flows into the read.
    have isInput := merging.inputs predecessor member
    rw [isPhiInputAt_eq, Option.any_eq_true] at isInput
    rcases isInput with ⟨⟨input, origin⟩, placed, isPhi⟩
    rcases (beq_iff_eq.1 isPhi : origin = .phiInput) with rfl
    rcases (shaped.input predecessor input placed).source with ⟨place, single, -⟩
    rcases shaped.sound.level place predecessor (single ▸ List.mem_singleton.2 rfl) with
      ⟨left, -, atSource, -⟩
    have carried : graph.carriedAt predecessor = some left.1 := by
      rw [carriedAt_eq, single]
      simp [atSource]
    refine ⟨left.1.version, ?_⟩
    rw [source member, carried, Option.map_some, Option.filter_some, if_pos]
    rcases gathers.flowed left.1 ⟨predecessor, member, (brought member).trans carried⟩ with
      reached | isPhantom
    · exact wants _ reached
    · exact phantomWanted _ isPhantom
  have spared := spared_pruneInputs carries
  refine ⟨spared.same, fun version member => ?_⟩
  rcases gathers.flows version member with ⟨predecessor, inside, flowing⟩
  apply (spared.wires predecessor inside).resolve_left List.not_mem_nil
  rw [source inside, ← brought inside, flowing]
  rfl

/-! ## What is left after pruning -/

/-- Only what is wanted flows into a node when its inputs were pruned. -/
theorem wanted_of_pruneInputs {wanted : Version → Bool} (sound : graph.Sound)
    (notInput : graph.isPhiInputAt position = false) {source : VersionKey}
    (flows : (graph.pruneInputs position wanted).1.FlowsTo source position) :
    wanted source.version = true := by
  have trimming := trimming_pruneInputs sound notInput wanted
  have pruning := trimming.pruning
  rcases flows with ⟨predecessor, left, brought⟩
  rcases (trimming.waits predecessor left).resolve_left List.not_mem_nil with
    ⟨version, wired, carried⟩
  rcases pruning.wired version wired with ⟨other, -, carries⟩
  rcases inputSource?_eq_some.1 ((pruning.inputSource? notInput predecessor).trans carried) with
    ⟨isInput, carriedSource, brings, rfl⟩
  rw [broughtBy?_input isInput, brings] at brought
  cases brought
  exact (Option.filter_eq_some_iff.1 carries).2

end VersionGraph

end SlotVersioning
