import Mathlib.Algebra.Order.BigOperators.Group.Finset
import SlotVersioning.Proofs.Pass.Supply
import SlotVersioning.Proofs.Pass.Tireless
import SlotVersioning.Proofs.Trace.Execution

/-!
# Runs with usage versions converge

With usage versions and without monitor or exception exits, the stored facts only grow, and there
are no more versions than sources of them. After the first pass, a pass that leaves a dirty node has
stored a version that was not stored there, after some node and for some outcome of it. That happens
at most twice for every node and source.

The theorem holds for every body: expressions may be used in several places, variables may have
negative slots, and copies of `finally` blocks may be nested in any way.
-/

namespace SlotVersioning

open Std

/-! ## How much is stored -/

namespace Tables

/-- How many versions are stored after the nodes, for true and for false outcomes. -/
def stock (tables : Tables) (size : Nat) : Nat :=
  ∑ node ∈ Finset.range size,
    (((tables.outFacts[node]?).getD ∅).pairs.length +
      ((tables.negativeFacts[node]?).getD ∅).pairs.length)

private theorem stock_le_stock {before after : Tables} (extended : before.Extends after)
    (size : Nat) : before.stock size ≤ after.stock size := by
  apply Finset.sum_le_sum
  intro node _
  apply Nat.add_le_add
  · exact Facts.length_pairs_le_of_subset (Facts.pairs_subset (extended.outFacts node))
  · exact Facts.length_pairs_le_of_subset (Facts.pairs_subset (extended.negativeFacts node))

/-- More is stored when something else is stored after a node. -/
private theorem stock_lt_stock {before after : Tables} (extended : before.Extends after)
    {size : Nat} {node : NodeId} (known : node < size)
    (different : (before.outFacts[node]?).getD ∅ ≠ (after.outFacts[node]?).getD ∅ ∨
      (before.negativeFacts[node]?).getD ∅ ≠ (after.negativeFacts[node]?).getD ∅) :
    before.stock size < after.stock size := by
  have each (other : NodeId) :=
    Facts.length_pairs_le_of_subset (Facts.pairs_subset (extended.outFacts other))
  have eachNegative (other : NodeId) :=
    Facts.length_pairs_le_of_subset (Facts.pairs_subset (extended.negativeFacts other))
  apply Finset.sum_lt_sum
  · exact fun other _ => Nat.add_le_add (each other) (eachNegative other)
  · refine ⟨node, Finset.mem_range.2 known, ?_⟩
    rcases different with out | negative
    · apply Nat.add_lt_add_of_lt_of_le _ (eachNegative node)
      by_contra few
      exact out (Facts.eq_of_length_pairs (extended.outFacts node) (Nat.le_of_not_lt few))
    · apply Nat.add_lt_add_of_le_of_lt (each node)
      by_contra few
      exact negative
        (Facts.eq_of_length_pairs (extended.negativeFacts node) (Nat.le_of_not_lt few))

end Tables

/-- No more is stored than each source twice after each node. -/
private theorem Stocked.stock_le {body : Body} {entered : List (Slot × Version)} {state : RunState}
    (stocked : Stocked body.arena entered state)
    (few : entered.length ≤ body.signature.arrivalSlots.length + body.handlerCount) (size : Nat) :
    state.tables.stock size ≤ 2 * size * body.sourceCount := by
  have stored {found : Option Facts}
      (each : ∀ facts, found = some facts → Supplied body.arena entered state facts) :
      (found.getD ∅).pairs.length ≤ body.sourceCount := by
    cases found with
    | none =>
        have nothing : Supplied body.arena entered state ∅ := .empty
        exact nothing.length_pairs_le few
    | some facts => exact (each facts rfl).length_pairs_le few
  have each : ∀ node ∈ Finset.range size,
      ((state.tables.outFacts[node]?).getD ∅).pairs.length +
        ((state.tables.negativeFacts[node]?).getD ∅).pairs.length ≤ 2 * body.sourceCount := by
    intro node _
    have out := stored (stocked.outFacts node)
    have negative := stored (stocked.negativeFacts node)
    omega
  have whole := Finset.sum_le_card_nsmul _ _ _ each
  rw [Finset.card_range, Nat.nsmul_eq_mul] at whole
  calc state.tables.stock size ≤ size * (2 * body.sourceCount) := whole
    _ = 2 * size * body.sourceCount := by rw [← Nat.mul_assoc, Nat.mul_comm size 2]

namespace RunM

variable {context : Context} {entered : List (Slot × Version)} {live : Bool} {node : FlowNode}
  {name : NodeId} {facts : Facts} {outcome : OutcomeFacts} {changed : Bool}
  {before middle after : RunState} {dirty dirtyAfter : DirtyNodes}

/-- When a node that was visited before is left differently, more is stored after it. -/
private theorem Crossed.stock_lt_stock
    (crossed : Crossed context live node name facts outcome changed before middle after)
    (usage : context.config.has .usageVersions = true) (grounded : Grounded context before)
    {stored : Facts} (entering : before.tables.inFacts[name]? = some stored)
    (new : changed = true) :
    before.tables.stock context.graph.size < after.tables.stock context.graph.size := by
  apply Tables.stock_lt_stock (crossed.extends_tables usage grounded)
    (lt_size_of_node? crossed.found)
  have differ := crossed.left.differs new
  unfold RunM.differs at differ
  rw [crossed.outFacts_middle, crossed.negativeFacts_middle, Bool.or_eq_true,
    bne_iff_ne] at differ
  have wasOut := grounded.onTrue name stored entering before (.refl before)
  rcases differ with out | negative
  · left
    rw [wasOut] at out ⊢
    rw [crossed.left.out]
    exact fun same => out (congrArg some same)
  · right
    cases branch : context.graph.negativeBranch? name with
    | none =>
        rw [grounded.noBranch name branch] at negative
        exact nomatch negative
    | some target =>
        have isSome : (context.graph.negativeBranch? name).isSome := by
          rw [branch]
          rfl
        have wasNegative := grounded.onFalse name stored entering isSome before (.refl before)
        have leaves := crossed.onFalse_after usage grounded isSome (.refl after)
        rw [← crossed.outcome_transferred usage grounded (.refl after)] at leaves
        rw [wasNegative] at negative ⊢
        rw [leaves]
        simpa using negative

/-! ## Passes -/

/-- What is known between visits: stored facts are grounded and supplied, and dirty nodes are nodes
of the graph. -/
structure Progress (context : Context) (entered : List (Slot × Version)) (dirty : DirtyNodes)
    (state : RunState) : Prop where
  grounded : Grounded context state
  stocked : Stocked context.body.arena entered state
  inside : ∀ other ∈ dirty, other < context.graph.size

private theorem Progress.aside (progress : Progress context entered dirty before)
    (aside : Aside before after) : Progress context entered dirty after :=
  ⟨progress.grounded.aside aside, progress.stocked.aside aside, progress.inside⟩

private theorem Progress.crossed (progress : Progress context entered dirty before)
    (crossed : Crossed context live node name facts outcome changed before middle after)
    (usage : context.config.has .usageVersions = true)
    (successors : ∀ successor ∈ node.successors, successor < context.graph.size) {new : Bool} :
    Progress context entered (dirtied node name new dirty) after where
  grounded := crossed.grounded_after usage progress.grounded
  stocked := progress.stocked.crossed crossed usage progress.grounded
  inside := by
    intro other member
    rcases mem_of_dirtied member with ⟨earlier, -⟩ | ⟨-, successor⟩
    · exact progress.inside other earlier
    · exact successors other successor

/-- A pass keeps what is known, and visits every node. When it starts with all nodes visited and
leaves one dirty, more is stored than before. -/
private theorem progress_of_pass (usage : context.config.has .usageVersions = true)
    (unmonitored : context.graph.Unmonitored)
    (valid : context.body.validate = .ok ()) {state final : RunState}
    (progress : Progress context entered dirty state)
    (run : pass context live dirty state = .ok dirtyAfter final) :
    Progress context entered dirtyAfter final ∧
      (∀ other, other < context.graph.size → final.tables.inFacts[other]? ≠ none) ∧
      ((∀ other, other < context.graph.size → state.tables.inFacts[other]? ≠ none) →
        dirtyAfter.isEmpty = false →
          state.tables.stock context.graph.size < final.tables.stock context.graph.size) := by
  have visits := pass_induction (motive := fun count dirty reached =>
    Progress context entered dirty reached ∧
      (∀ other, other < count ∨ state.tables.inFacts[other]? ≠ none →
        reached.tables.inFacts[other]? ≠ none) ∧
      state.tables.stock context.graph.size ≤ reached.tables.stock context.graph.size ∧
      ((∀ other, other < context.graph.size → state.tables.inFacts[other]? ≠ none) →
        state.tables.stock context.graph.size < reached.tables.stock context.graph.size ∨
          ∀ other ∈ dirty, count ≤ other)) ?_ run
    ⟨progress, fun other visited => visited.resolve_left (Nat.not_lt_zero other),
      Nat.le_refl _, fun _ => .inr fun other _ => Nat.zero_le other⟩
  · refine ⟨visits.1, fun other known => visits.2.1 other (.inl known), fun visited left => ?_⟩
    rcases visits.2.2.2 visited with grew | outside
    · exact grew
    · rcases exists_mem_of_isEmpty left with ⟨other, member⟩
      have inside := visits.1.inside other member
      exact absurd inside (Nat.not_lt.2 (outside other member))
  rintro name node dirty dirtyAfter before after found ⟨progress, earlier, grown, clean⟩ visited
  rcases visit_crossed unmonitored found visited with
    ⟨facts, outcome, changed, middle, crossed, rfl⟩
  have grows := Tables.stock_le_stock (crossed.extends_tables usage progress.grounded)
    context.graph.size
  refine ⟨progress.crossed crossed usage (FlowGraph.successor_lt_size valid found), ?_,
    Nat.le_trans grown grows, fun all => ?_⟩
  · intro other visited
    by_cases here : other = name
    · rw [here, crossed.inFacts_self]
      exact fun absent => nomatch absent
    · rw [crossed.inFacts_other here]
      apply earlier
      exact visited.imp_left fun below => by omega
  · cases new : changed with
    | true =>
        left
        cases entering : before.tables.inFacts[name]? with
        | none =>
            have known := all name (lt_size_of_node? found)
            exact absurd entering (earlier name (.inr known))
        | some stored =>
            exact Nat.lt_of_le_of_lt grown
              (crossed.stock_lt_stock usage progress.grounded entering new)
    | false =>
        apply (clean all).imp
        · exact fun grew => Nat.lt_of_lt_of_le grew grows
        · intro outside other member
          rcases mem_of_dirtied member with ⟨member, different⟩ | ⟨impossible, -⟩
          · have beyond := outside other member
            exact Nat.lt_of_le_of_ne beyond fun same => different same.symm
          · exact nomatch impossible

/-- Rounds that leave dirty nodes are no more than versions are stored, but for the first. -/
private theorem progress_of_rounds (usage : context.config.has .usageVersions = true)
    (unmonitored : context.graph.Unmonitored)
    (valid : context.body.validate = .ok ()) {start state : RunState} {count : Nat}
    (progress : Progress context entered ∅ start)
    (rounds : Rounds context start count dirty state) :
    Progress context entered dirty state ∧
      (count ≠ 0 → ∀ other, other < context.graph.size → state.tables.inFacts[other]? ≠ none) ∧
      (dirty.isEmpty = false → count ≤ state.tables.stock context.graph.size + 1) := by
  induction rounds with
  | none => exact ⟨progress, fun positive => absurd rfl positive, fun _ => Nat.zero_le _⟩
  | @more count dirty dirtyAfter before after earlier unsettled last induction =>
      rcases round_ok last with ⟨begun, ended, counted, passes, reported⟩
      have passed := progress_of_pass usage unmonitored valid (induction.1.aside counted) passes
      refine ⟨passed.1.aside reported, fun _ => ?_, fun left => ?_⟩
      · rw [reported.inFacts]
        exact passed.2.1
      · cases count with
        | zero => omega
        | succ count =>
            have many := induction.2.2 (unsettled (Nat.succ_ne_zero count))
            have visited := induction.2.1 (Nat.succ_ne_zero count)
            rw [← counted.inFacts] at visited
            have grew := passed.2.2 visited left
            unfold Tables.stock at grew many ⊢
            rw [counted.outFacts, counted.negativeFacts] at grew
            rw [reported.outFacts, reported.negativeFacts]
            omega

end RunM

/-! ## Runs -/

/-- The visits that a run comes to: after the seeding, some rounds and a part of a pass, a node is
visited next in `state`. -/
inductive Versioner.ComesTo (versioner : Versioner) (body : Body) :
    (live : Bool) → FlowNode × NodeId → DirtyNodes → RunState → Prop
  | midway {live : Bool} {next : FlowNode × NodeId} {dirty dirtyNow : DirtyNodes}
      {seeded rested begun state : RunState} {entry : NodeId} {count : Nat}
      {earlier later : List (FlowNode × NodeId)}
      (entered : body.graph.entry = some entry)
      (seeds : RunM.seeding { config := versioner.config, body } entry
        (start versioner.config body) = .ok () seeded)
      (rounds : RunM.Rounds { config := versioner.config, body } seeded count dirty rested)
      (again : live = false → count ≠ 0 → dirty.isEmpty = false)
      (last : live = true →
        count ≠ 0 ∧ dirty.isEmpty = true ∧ versioner.config.has .liveRound = true)
      (counts : RunM.countPass rested = .ok () begun)
      (order : body.graph.nodes.toList.zipIdx = earlier ++ next :: later)
      (visits : earlier.foldlM (RunM.visit { config := versioner.config, body } live) dirty begun =
        .ok dirtyNow state) :
      ComesTo versioner body live next dirtyNow state

namespace Versioner

variable {versioner : Versioner} {body : Body}

private theorem ComesTo.grounded (usage : versioner.config.has .usageVersions = true)
    (noMonitors : ∀ exit, body.graph.monitorExit? exit = none) {live : Bool}
    {next : FlowNode × NodeId} {dirty : DirtyNodes} {state : RunState}
    (comes : versioner.ComesTo body live next dirty state) :
    body.graph.node? next.2 = some next.1 ∧
      RunM.Grounded { config := versioner.config, body } state := by
  cases comes with
  | midway entered seeds rounds again last counts order visits =>
      have listed : next ∈ body.graph.nodes.toList.zipIdx := by
        rw [order]
        exact List.mem_append_right _ List.mem_cons_self
      have found := List.mem_zipIdx_iff_getElem?.1 listed
      rw [Array.getElem?_toList] at found
      have exits : (Context.mk versioner.config body).graph.Unmonitored :=
        fun exit _ => noMonitors exit
      have rested := RunM.grounded_of_rounds usage exits (RunM.grounded_seeded seeds) rounds
      cases counts
      exact ⟨found, RunM.grounded_of_visits usage exits order visits
        (rested.aside (.of_counted _ _ _))⟩

/-- With usage versions and without monitor or exception exits, every visit that a run comes to
finds no less to enter than is stored, and leaves no less stored at any node. The run never fails to
converge when it is allowed more passes than twice the nodes times the sources, and one. -/
theorem usage_converges (usage : versioner.config.has .usageVersions = true)
    (noMonitors : ∀ exit, body.graph.monitorExit? exit = none) :
    (∀ live node name dirty before, versioner.ComesTo body live (node, name) dirty before →
      (∀ facts after,
        RunM.arrive { config := versioner.config, body } name before = .ok facts after →
          (before.tables.inFacts[name]?).getD ∅ ⊆ facts) ∧
      ∀ dirtyAfter after,
        RunM.visit { config := versioner.config, body } live dirty (node, name) before =
          .ok dirtyAfter after → before.tables.Extends after.tables) ∧
    (2 * body.graph.size * body.sourceCount + 1 < versioner.config.maxPasses →
      ∀ passes, (versioner.run body).outcome ≠ .error (.notConverged passes)) := by
  have exits : (Context.mk versioner.config body).graph.Unmonitored :=
    fun exit _ => noMonitors exit
  constructor
  · intro live node name dirty before comes
    rcases comes.grounded usage noMonitors with ⟨found, grounded⟩
    refine ⟨fun facts after arrives => ?_, fun dirtyAfter after visits => ?_⟩
    · have arrived := (RunM.arrive_arrives exits arrives).2
      cases entering : before.tables.inFacts[name]? with
      | none => exact Facts.empty_subset facts
      | some stored =>
          intro slot version member
          apply arrived.known slot version (grounded.offered name stored entering _ _ member)
          rw [Tables.entering_of_stored entering]
          exact member
    · rcases RunM.visit_crossed exits found visits with ⟨_, _, _, _, crossed, -⟩
      exact crossed.extends_tables usage grounded
  · intro many passes exhausted
    rcases exhausted_of_run exhausted with
      ⟨entry, seeded, dirty, last, valid, -, seeds, rounds, unsettled⟩
    have empty : (start versioner.config body).tables.seeds = ∅ := rfl
    rcases RunM.entered_of_seeding empty seeds with ⟨entered, few, inside⟩
    have unvisited := RunM.preserves_unvisited _ entry _ _ _
      (unvisited_start versioner.config body) seeds
    have stocked : Stocked body.arena entered seeded := by
      refine ⟨fun name facts found => ?_, fun name facts found => ?_, fun name facts found => ?_⟩
      · rw [unvisited.outFacts, ExtTreeMap.getElem?_empty] at found
        exact nomatch found
      · rw [unvisited.negativeFacts, ExtTreeMap.getElem?_empty] at found
        exact nomatch found
      · exact fun slot version member =>
          .seed (inside name facts found (Facts.mem_pairs.2 member))
    have progress := RunM.progress_of_rounds usage exits valid
      ⟨RunM.grounded_seeded seeds, stocked, fun other member =>
        absurd member ExtTreeSet.not_mem_empty⟩ rounds
    have bound := progress.2.2 (unsettled (by omega))
    have stored : last.tables.stock body.graph.size ≤ 2 * body.graph.size * body.sourceCount :=
      progress.1.stocked.stock_le few body.graph.size
    have least : versioner.config.maxPasses ≤ last.tables.stock body.graph.size + 1 := bound
    omega

/-- Ten passes are enough for the loop of `rereading`, with two nodes and two variables. -/
theorem usage_converges_rereading :
    2 * Body.rereading.graph.size * Body.rereading.sourceCount + 1 < 10 ∧
      ∀ passes, (({ Config.usage with maxPasses := 10 } : Config).versioner.run
        .rereading).outcome ≠ .error (.notConverged passes) :=
  have few : 2 * Body.rereading.graph.size * Body.rereading.sourceCount + 1 < 10 := by
    decide
  ⟨few, (usage_converges
    (show ({ Config.usage with maxPasses := 10 } : Config).has .usageVersions = true from rfl)
    (fun _ => ExtTreeMap.getElem?_empty)).2 few⟩

end Versioner

end SlotVersioning
