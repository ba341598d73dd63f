import SlotVersioning.Proofs.Pass.Balanced

/-!
# What the edges bring in the end

Without shared exits, what is stored before a node is what its edges bring, unless the node is dirty
(`Joined`). This holds in any body, also where expressions are used in several places. With usage
versions a live round from a clean state stores what is stored already, so it keeps the equations.
-/

namespace SlotVersioning

open Std

/-- No exit is shared, and no node was only found through copies of `finally` blocks. -/
structure FlowGraph.Straight (graph : FlowGraph) : Prop where
  built : graph.Built
  noShortPaths : ∀ exit, graph.shortPaths? exit = none
  noExtraNodes : ∀ node, graph.isExtra node = false

theorem FlowGraph.Straight.unmonitored {graph : FlowGraph} (straight : graph.Straight) :
    graph.Unmonitored := by
  intro exit shared
  rw [straight.noShortPaths] at shared
  exact nomatch shared

/-- What is stored before a node that is not dirty is what its edges bring. -/
structure Joined (context : Context) (dirty : DirtyNodes) (state : RunState) : Prop where
  stored : ∀ name : NodeId, (context.graph.negativeBranch? name).isSome →
    state.tables.outFacts[name]? ≠ none → state.tables.negativeFacts[name]? ≠ none
  joins : ∀ (name : NodeId) (facts : Facts), state.tables.inFacts[name]? = some facts →
    name ∉ dirty → ∀ slot, state.tables.Joins context.graph name slot (facts.reaching slot)

theorem Joined.aside {context : Context} {dirty : DirtyNodes} {before after : RunState}
    (joined : Joined context dirty before) (aside : Aside before after) :
    Joined context dirty after := by
  refine ⟨?_, fun name facts entering clean slot => ?_⟩
  · rw [aside.outFacts, aside.negativeFacts]
    exact joined.stored
  · rw [aside.inFacts] at entering
    exact (aside.joins _ _ _ _).2 (joined.joins name facts entering clean slot)

/-- Something is stored before all nodes. -/
def RunState.VisitedAll (context : Context) (state : RunState) : Prop :=
  ∀ name, name < context.graph.size → ∃ facts, state.tables.inFacts[name]? = some facts

namespace RunM

variable {context : Context} {live : Bool} {node : FlowNode} {name : NodeId} {facts : Facts}
  {outcome : OutcomeFacts} {changed : Bool} {dirty dirtyAfter : DirtyNodes}
  {before middle after state final : RunState}

namespace Crossed

variable (crossed : Crossed context live node name facts outcome changed before middle after)

include crossed

/-- What edges bring to a node stays when no predecessor is left differently. -/
private theorem joins_iff {target : NodeId}
    (unchanged : name ∈ context.graph.predecessors target → changed = false) (slot : Slot)
    (reaching : VersionSet) :
    after.tables.Joins context.graph target slot reaching ↔
      before.tables.Joins context.graph target slot reaching := by
  rw [crossed.left.joins_iff unchanged, Tables.joins_congr crossed.outFacts_middle
    crossed.negativeFacts_middle (congrArg Stores.seeds crossed.frame.stores)]

/-- A node with a negative branch has facts for it when it has facts at all. -/
theorem stored (joined : Joined context dirty before)
    (branch : (context.graph.negativeBranch? name).isSome) :
    after.tables.negativeFacts[name]? = some (leaving context node outcome).ifFalse := by
  apply crossed.left.negative branch
  rw [crossed.outFacts_middle, crossed.negativeFacts_middle]
  exact joined.stored name branch

private theorem joined (straight : context.graph.Straight)
    (joined : Joined context dirty before) :
    Joined context (dirtied node name changed dirty) after := by
  refine ⟨fun other branch present => ?_, fun other entry entering clean slot => ?_⟩
  · by_cases here : other = name
    · subst here
      rw [crossed.stored joined branch]
      exact fun absent => nomatch absent
    · rw [crossed.negativeFacts_other here]
      rw [crossed.outFacts_other here] at present
      exact joined.stored other branch present
  · rw [crossed.joins_iff (unchanged_of_clean straight.built.linked crossed.found clean)]
    by_cases here : other = name
    · subst here
      rw [crossed.inFacts_self] at entering
      cases entering
      exact (arrive_ok straight.noShortPaths crossed.arrival).2 slot
    · rw [crossed.inFacts_other here] at entering
      exact joined.joins other entry entering ((mem_dirtied clean).1.resolve_left here) slot

/-- In a clean state what is stored before a node enters it again. -/
private theorem enters_stored (straight : context.graph.Straight)
    (joined : Joined context ∅ before) {stored : Facts}
    (entering : before.tables.inFacts[name]? = some stored) : stored = facts := by
  apply Facts.ext
  intro slot
  have now := (arrive_ok straight.noShortPaths crossed.arrival).2 slot
  have earlier := joined.joins name stored entering ExtTreeSet.not_mem_empty slot
  exact VersionSet.ext fun version => (earlier version).trans (now version).symm

/-- With usage versions a node that the same enters again is left as it was. -/
private theorem sameLeaving (usage : context.config.has .usageVersions = true)
    (grounded : Grounded context before) (entering : before.tables.inFacts[name]? = some facts) :
    SameLeaving name before after where
  outFacts := by
    rw [crossed.onTrue_after usage grounded (.refl after)]
    exact (grounded.onTrue name facts entering after (crossed.keeps usage)).symm
  negativeFacts := by
    cases branch : context.graph.negativeBranch? name with
    | none => rw [crossed.left.noBranch branch, crossed.negativeFacts_middle]
    | some target =>
        have isSome : (context.graph.negativeBranch? name).isSome := by
          rw [branch]
          rfl
        rw [crossed.onFalse_after usage grounded isSome (.refl after)]
        exact (grounded.onFalse name facts entering isSome after (crossed.keeps usage)).symm

/-- With usage versions a visit of a node keeps a clean state clean. -/
private theorem joined_clean (usage : context.config.has .usageVersions = true)
    (grounded : Grounded context before) (joined : Joined context ∅ before)
    (entering : before.tables.inFacts[name]? = some facts) : Joined context ∅ after := by
  have left := crossed.sameLeaving usage grounded entering
  have outFacts : after.tables.outFacts = before.tables.outFacts := by
    apply ExtTreeMap.ext_getElem?
    intro other
    by_cases here : other = name
    · rw [here, left.outFacts]
    · exact crossed.outFacts_other here
  have negativeFacts : after.tables.negativeFacts = before.tables.negativeFacts := by
    apply ExtTreeMap.ext_getElem?
    intro other
    by_cases here : other = name
    · rw [here, left.negativeFacts]
    · exact crossed.negativeFacts_other here
  have seeds : after.tables.seeds = before.tables.seeds := by
    rw [crossed.left.tables]
    exact congrArg Stores.seeds crossed.frame.stores
  refine ⟨?_, fun other entry stored _ slot => ?_⟩
  · rw [outFacts, negativeFacts]
    exact joined.stored
  · rw [Tables.joins_congr outFacts negativeFacts seeds]
    by_cases here : other = name
    · subst here
      rw [crossed.inFacts_self] at stored
      cases stored
      exact joined.joins other facts entering ExtTreeSet.not_mem_empty slot
    · rw [crossed.inFacts_other here] at stored
      exact joined.joins other entry stored ExtTreeSet.not_mem_empty slot

end Crossed

/-! ## Passes -/

/-- What every visit keeps is kept by the visits of any part of a pass. -/
theorem joined_of_visits (straight : context.graph.Straight)
    {earlier later : List (FlowNode × NodeId)}
    (split : context.graph.nodes.toList.zipIdx = earlier ++ later)
    (run : earlier.foldlM (visit context live) dirty state = .ok dirtyAfter final)
    (joined : Joined context dirty state) :
    Joined context dirtyAfter final ∧ ∀ name, name < earlier.length →
      ∃ facts, final.tables.inFacts[name]? = some facts := by
  have visits := foldlM_induction (motive := fun count dirty reached =>
    Joined context dirty reached ∧ ∀ name, name < count →
      ∃ facts, reached.tables.inFacts[name]? = some facts) 0 ?_ run
    ⟨joined, fun name none => absurd none (Nat.not_lt_zero name)⟩
  · rw [Nat.zero_add] at visits
    exact visits
  rintro index ⟨node, name⟩ dirty dirtyAfter before after found ⟨joined, earlierVisits⟩ visits
  have listed : context.graph.nodes.toList.zipIdx[index]? = some (node, name) := by
    rw [split, List.getElem?_append_left (List.getElem?_eq_some_iff.1 found).1]
    exact found
  rw [List.getElem?_zipIdx, Nat.zero_add] at listed
  rcases Option.map_eq_some_iff.1 listed with ⟨stored, present, same⟩
  cases same
  rw [Array.getElem?_toList] at present
  rcases visit_crossed straight.unmonitored present visits with
    ⟨facts, outcome, changed, middle, crossed, rfl⟩
  rw [straight.noExtraNodes, Bool.not_false, Bool.and_true]
  refine ⟨crossed.joined straight joined, fun other bound => ?_⟩
  rw [Nat.zero_add] at bound earlierVisits
  by_cases here : other = index
  · exact ⟨facts, here ▸ crossed.inFacts_self⟩
  · rw [crossed.inFacts_other here]
    exact earlierVisits other (Nat.lt_of_le_of_ne (Nat.le_of_lt_succ bound) here)

/-- A pass visits all nodes. -/
private theorem joined_of_pass (straight : context.graph.Straight)
    (joined : Joined context dirty state)
    (run : pass context live dirty state = .ok dirtyAfter final) :
    Joined context dirtyAfter final ∧ final.VisitedAll context := by
  have whole := List.append_nil context.graph.nodes.toList.zipIdx
  have visits := joined_of_visits straight whole.symm run joined
  rw [List.length_zipIdx, Array.length_toList] at visits
  exact visits

theorem joined_of_rounds (straight : context.graph.Straight) {start : RunState} {count : Nat}
    (joined : Joined context ∅ start) (rounds : Rounds context start count dirty state) :
    Joined context dirty state ∧ (0 < count → state.VisitedAll context) := by
  induction rounds with
  | none => exact ⟨joined, fun positive => absurd positive (Nat.lt_irrefl 0)⟩
  | more earlier unsettled last induction =>
      rcases round_ok last with ⟨before, after, counted, passes, reported⟩
      rcases joined_of_pass straight (induction.1.aside counted) passes with
        ⟨joinedAfter, visited⟩
      refine ⟨joinedAfter.aside reported, fun _ => ?_⟩
      unfold RunState.VisitedAll
      rw [reported.inFacts]
      exact visited

/-- With usage versions a live round keeps a clean state clean. -/
private theorem joined_of_liveRound (usage : context.config.has .usageVersions = true)
    (straight : context.graph.Straight) (grounded : Grounded context state)
    (joined : Joined context ∅ state) (visited : state.VisitedAll context)
    (run : liveRound context state = .ok () final) :
    Joined context ∅ final ∧ final.VisitedAll context := by
  rcases liveRound_ok run with ⟨begun, ended, dirtyAfter, counted, passes, reported⟩
  have passed := pass_induction (motive := fun _ _ reached =>
    Grounded context reached ∧ Joined context ∅ reached ∧ reached.VisitedAll context)
    (fun name node dirty dirtyAfter before after found earlier visits => by
      rcases visit_crossed straight.unmonitored found visits with
        ⟨facts, outcome, changed, middle, crossed, -⟩
      rcases earlier.2.2 name (lt_size_of_node? found) with ⟨stored, entering⟩
      obtain rfl := crossed.enters_stored straight earlier.2.1 entering
      refine ⟨crossed.grounded_after usage earlier.1,
        crossed.joined_clean usage earlier.1 earlier.2.1 entering, fun other known => ?_⟩
      by_cases here : other = name
      · exact ⟨stored, here ▸ crossed.inFacts_self⟩
      · rw [crossed.inFacts_other here]
        exact earlier.2.2 other known)
    passes ⟨grounded.aside counted, joined.aside counted, fun other known => by
      rw [counted.inFacts]
      exact visited other known⟩
  refine ⟨passed.2.1.aside reported, ?_⟩
  unfold RunState.VisitedAll
  rw [reported.inFacts]
  exact passed.2.2

/-! ## Whole runs -/

theorem joined_of_unvisited (unvisited : Unvisited state) : Joined context ∅ state := by
  refine ⟨fun name _ present => ?_, fun name facts entering => ?_⟩
  · rw [unvisited.outFacts] at present
    exact absurd ExtTreeMap.getElem?_empty present
  · exact absurd entering unvisited.not_entering

end RunM

/-- A run whose last pass finds what the pass before it found: it has no live round, or every read
has its own version, or expressions are used once. -/
def Versioner.Steady (versioner : Versioner) (body : Body) : Prop :=
  versioner.config.has .liveRound = true →
    versioner.config.has .usageVersions = true ∨ body.Regular

namespace Versioner.Parts

variable {versioner : Versioner} {body : Body} {seeded settled final : RunState} {total : Nat}

/-- In the end what is stored before nodes is what their edges bring. -/
theorem joined (parts : Parts versioner body seeded total settled final)
    (straight : (Context.mk versioner.config body).graph.Straight)
    (steady : versioner.Steady body) :
    ∀ name, name < body.graph.size → ∃ facts, final.tables.inFacts[name]? = some facts ∧
      ∀ slot : Slot, 0 ≤ slot → final.tables.Joins body.graph name slot (facts.reaching slot) := by
  have rounds := RunM.joined_of_rounds straight (RunM.joined_of_unvisited parts.unvisited)
    parts.rounds
  have ends (joined : Joined ⟨versioner.config, body⟩ ∅ final)
      (visited : final.VisitedAll ⟨versioner.config, body⟩) (name : NodeId)
      (known : name < body.graph.size) :
      ∃ facts, final.tables.inFacts[name]? = some facts ∧ ∀ slot : Slot, 0 ≤ slot →
        final.tables.Joins body.graph name slot (facts.reaching slot) := by
    rcases visited name known with ⟨facts, entering⟩
    exact ⟨facts, entering, fun slot _ =>
      joined.joins name facts entering ExtTreeSet.not_mem_empty slot⟩
  cases round : versioner.config.has .liveRound with
  | false =>
      rw [parts.dead round] at ends ⊢
      exact ends rounds.1 (rounds.2 parts.positive)
  | true =>
      rcases steady round with usage | regular
      · rcases parts.seeds with ⟨entry, isEntry, seeds⟩
        have grounded := RunM.grounded_of_rounds usage straight.unmonitored
          (RunM.grounded_seeded seeds) parts.rounds
        have lived := RunM.joined_of_liveRound usage straight grounded rounds.1
          (rounds.2 parts.positive) (parts.live round)
        exact ends lived.1 lived.2
      · have settledThen := (parts.ended regular (.trivial _) True.intro).settled
        intro name known
        rcases settledThen.everywhere name known with ⟨facts, entering⟩
        exact ⟨facts, entering, settledThen.joins name facts entering ExtTreeSet.not_mem_empty⟩

end Versioner.Parts

end SlotVersioning
