import SlotVersioning.Proofs.Pass.Crossing
import SlotVersioning.Proofs.Pass.Seeding

/-!
# Facts that only grow

With usage versions, and without monitor or exception exits, whatever is stored at a node is stored
there from then on. The invariant (`Grounded`) says that what is stored after a node is what its
course transfers from what is stored before it, and that all of the latter is still offered to the
node. A recomputation then starts from no less than before, and transfers it by the same function.
-/

namespace SlotVersioning

open Std

/-- Everything that is stored at nodes is still stored there. -/
structure Tables.Extends (before after : Tables) : Prop where
  inFacts : ∀ node : NodeId,
    (before.inFacts[node]?).getD ∅ ⊆ (after.inFacts[node]?).getD ∅
  outFacts : ∀ node : NodeId,
    (before.outFacts[node]?).getD ∅ ⊆ (after.outFacts[node]?).getD ∅
  negativeFacts : ∀ node : NodeId,
    (before.negativeFacts[node]?).getD ∅ ⊆ (after.negativeFacts[node]?).getD ∅

namespace RunM

/-- What leaves a node when `facts` enter it, under the names that a state gives. -/
def transferred (context : Context) (names : RunState) (name : NodeId) (facts : Facts) :
    Facts × Facts :=
  let carried := (context.body.course name).transfer context.config names facts
  (departing context name carried.1, departing context name carried.2)

theorem transferred_subsetAt {context : Context} {names : RunState} {name : NodeId} {slot : Slot}
    {version : Version} {fewer more : Facts} (subset : fewer.SubsetAt slot version more) :
    (transferred context names name fewer).1.SubsetAt slot version
        (transferred context names name more).1 ∧
      (transferred context names name fewer).2.SubsetAt slot version
        (transferred context names name more).2 := by
  have carried := @Course.transfer_subsetAt context.config names slot version fewer more
    (context.body.course name) subset
  exact ⟨departing_subsetAt carried.1, departing_subsetAt carried.2⟩

/-- The facts stored after nodes come from those stored before them, and these are still offered. -/
structure Grounded (context : Context) (state : RunState) : Prop where
  recorded : context.config.has .fieldVersions = true → state.tables.fields.isSome
  unvisited : ∀ name : NodeId, state.tables.inFacts[name]? = none →
    state.tables.outFacts[name]? = none ∧ state.tables.negativeFacts[name]? = none
  onTrue : ∀ (name : NodeId) (facts : Facts), state.tables.inFacts[name]? = some facts →
    ∀ later, Keeps state later →
      state.tables.outFacts[name]? = some (transferred context later name facts).1
  onFalse : ∀ (name : NodeId) (facts : Facts), state.tables.inFacts[name]? = some facts →
    (context.graph.negativeBranch? name).isSome → ∀ later, Keeps state later →
      state.tables.negativeFacts[name]? = some (transferred context later name facts).2
  noBranch : ∀ name, context.graph.negativeBranch? name = none →
    state.tables.negativeFacts[name]? = none
  offered : ∀ (name : NodeId) (facts : Facts), state.tables.inFacts[name]? = some facts →
    ∀ slot, ∀ version ∈ facts.reaching slot, state.tables.Offers context.graph name slot version

variable {context : Context} {live : Bool} {node : FlowNode} {name : NodeId} {facts : Facts}
  {outcome : OutcomeFacts} {changed : Bool} {before middle after : RunState}

theorem Grounded.aside (grounded : Grounded context before) (aside : Aside before after) :
    Grounded context after := by
  have keeps : Keeps before after := by
    apply Keeps.of_versions
    · intro expression _
      rw [aside.version]
    · exact aside.fields
  constructor
  case recorded =>
    rw [aside.fields]
    exact grounded.recorded
  case unvisited =>
    rw [aside.inFacts, aside.outFacts, aside.negativeFacts]
    exact grounded.unvisited
  case onTrue =>
    rw [aside.inFacts, aside.outFacts]
    exact fun name facts entering later kept =>
      grounded.onTrue name facts entering later (keeps.trans kept)
  case onFalse =>
    rw [aside.inFacts, aside.negativeFacts]
    exact fun name facts entering branch later kept =>
      grounded.onFalse name facts entering branch later (keeps.trans kept)
  case noBranch =>
    rw [aside.negativeFacts]
    exact grounded.noBranch
  case offered =>
    unfold Tables.Offers Tables.brought Tables.edgeFacts?
    rw [aside.inFacts, aside.outFacts, aside.negativeFacts, aside.seeded]
    exact grounded.offered

/-! ## A visit stores no less -/

namespace Crossed

variable (crossed : Crossed context live node name facts outcome changed before middle after)
  (usage : context.config.has .usageVersions = true) (grounded : Grounded context before)

include crossed grounded

/-- No less enters than is stored. -/
private theorem entering_subset {stored : Facts}
    (entering : before.tables.inFacts[name]? = some stored) : stored ⊆ facts := by
  intro slot version member
  apply crossed.arrives.known slot version
  · exact grounded.offered name stored entering slot version member
  · rw [Tables.entering_of_stored entering]
    exact member

include usage

theorem outcome_transferred {later : RunState} (kept : Keeps after later) :
    ((leaving context node outcome).ifTrue, (leaving context node outcome).ifFalse) =
      transferred context later name facts := by
  have carried : outcome.branches =
      (context.body.course name).transfer context.config later facts :=
    Course.run_transfer crossed.run usage grounded.recorded (crossed.keeps_after.trans kept)
  have leaves := leaving_departing crossed.found outcome
  unfold transferred
  rw [leaves.1, leaves.2, ← carried]
  rfl

theorem onTrue_after {later : RunState} (kept : Keeps after later) :
    after.tables.outFacts[name]? = some (transferred context later name facts).1 := by
  rw [crossed.left.out, ← crossed.outcome_transferred usage grounded kept]

theorem onFalse_after (branch : (context.graph.negativeBranch? name).isSome)
    {later : RunState} (kept : Keeps after later) :
    after.tables.negativeFacts[name]? = some (transferred context later name facts).2 := by
  rw [crossed.left.negative branch, ← crossed.outcome_transferred usage grounded kept]
  rw [crossed.outFacts_middle, crossed.negativeFacts_middle]
  intro left
  cases entering : before.tables.inFacts[name]? with
  | none => exact absurd (grounded.unvisited name entering).1 left
  | some stored =>
      rw [grounded.onFalse name stored entering branch before (.refl _)]
      exact fun absent => nomatch absent

/-- A visit of a node leaves all that is stored at nodes there. -/
theorem extends_tables : before.tables.Extends after.tables where
  inFacts := by
    intro other
    by_cases here : other = name
    · subst here
      rw [crossed.inFacts_self, Option.getD_some]
      cases entering : before.tables.inFacts[other]? with
      | none => exact Facts.empty_subset _
      | some stored => exact crossed.entering_subset grounded entering
    · rw [crossed.inFacts_other here]
      exact Facts.subset_refl _
  outFacts := by
    intro other
    by_cases here : other = name
    · subst here
      cases entering : before.tables.inFacts[other]? with
      | none =>
          rw [(grounded.unvisited other entering).1]
          exact Facts.empty_subset _
      | some stored =>
          rw [crossed.onTrue_after usage grounded (.refl after),
            grounded.onTrue other stored entering after (crossed.keeps usage)]
          exact fun slot version => (transferred_subsetAt
            (crossed.entering_subset grounded entering slot version)).1
    · rw [crossed.outFacts_other here]
      exact Facts.subset_refl _
  negativeFacts := by
    intro other
    by_cases here : other = name
    · subst here
      cases entering : before.tables.inFacts[other]? with
      | none =>
          rw [(grounded.unvisited other entering).2]
          exact Facts.empty_subset _
      | some stored =>
          cases branch : context.graph.negativeBranch? other with
          | none =>
              rw [crossed.left.noBranch branch, crossed.negativeFacts_middle]
              exact Facts.subset_refl _
          | some target =>
              have isSome : (context.graph.negativeBranch? other).isSome := by
                rw [branch]
                rfl
              rw [crossed.onFalse_after usage grounded isSome (.refl after),
                grounded.onFalse other stored entering isSome after (crossed.keeps usage)]
              exact fun slot version => (transferred_subsetAt
                (crossed.entering_subset grounded entering slot version)).2
    · rw [crossed.negativeFacts_other here]
      exact Facts.subset_refl _

/-- What was offered to a node is still offered to it. -/
private theorem offers_after {other : NodeId} {slot : Slot} {version : Version}
    (offers : before.tables.Offers context.graph other slot version) :
    after.tables.Offers context.graph other slot version := by
  have extension := crossed.extends_tables usage grounded
  rcases offers with ⟨source, edge, member⟩ | seeded
  · refine .inl ⟨source, edge, ?_⟩
    unfold Tables.brought Tables.edgeFacts? at member ⊢
    by_cases negative : context.graph.negativeBranch? source = some other
    · rw [if_pos negative] at member ⊢
      exact extension.negativeFacts source slot version member
    · rw [if_neg negative] at member ⊢
      exact extension.outFacts source slot version member
  · rw [Tables.Offers, crossed.seeded_after]
    exact .inr seeded

theorem grounded_after : Grounded context after := by
  refine ⟨fun versioned => (crossed.keeps usage).recorded (grounded.recorded versioned),
    ?_, ?_, ?_, ?_, ?_⟩
  · intro other absent
    by_cases here : other = name
    · rw [here, crossed.inFacts_self] at absent
      exact nomatch absent
    · rw [crossed.inFacts_other here] at absent
      rw [crossed.outFacts_other here, crossed.negativeFacts_other here]
      exact grounded.unvisited other absent
  · intro other stored entering later kept
    by_cases here : other = name
    · subst here
      rw [crossed.inFacts_self] at entering
      cases entering
      exact crossed.onTrue_after usage grounded kept
    · rw [crossed.inFacts_other here] at entering
      rw [crossed.outFacts_other here]
      exact grounded.onTrue other stored entering later ((crossed.keeps usage).trans kept)
  · intro other stored entering branch later kept
    by_cases here : other = name
    · subst here
      rw [crossed.inFacts_self] at entering
      cases entering
      exact crossed.onFalse_after usage grounded branch kept
    · rw [crossed.inFacts_other here] at entering
      rw [crossed.negativeFacts_other here]
      exact grounded.onFalse other stored entering branch later ((crossed.keeps usage).trans kept)
  · intro other noBranch
    by_cases here : other = name
    · subst here
      rw [crossed.left.noBranch noBranch, crossed.negativeFacts_middle]
      exact grounded.noBranch other noBranch
    · rw [crossed.negativeFacts_other here]
      exact grounded.noBranch other noBranch
  · intro other stored entering slot version member
    apply crossed.offers_after usage grounded
    by_cases here : other = name
    · subst here
      rw [crossed.inFacts_self] at entering
      cases entering
      exact crossed.arrives.offered slot version member
    · rw [crossed.inFacts_other here] at entering
      exact grounded.offered other stored entering slot version member

end Crossed

/-! ## Whole runs -/

variable {state final : RunState} {dirty dirtyAfter : DirtyNodes}

/-- What every visit keeps is kept by the visits of any part of a pass. -/
theorem grounded_of_visits (usage : context.config.has .usageVersions = true)
    (unmonitored : context.graph.Unmonitored)
    {earlier later : List (FlowNode × NodeId)}
    (split : context.graph.nodes.toList.zipIdx = earlier ++ later)
    (run : earlier.foldlM (visit context live) dirty state = .ok dirtyAfter final)
    (grounded : Grounded context state) : Grounded context final := by
  refine foldlM_induction (motive := fun _ _ state => Grounded context state) 0 ?_ run grounded
  intro index entry value next before after found grounded visited
  have listed : context.graph.nodes.toList.zipIdx[index]? = some entry := by
    rw [split, List.getElem?_append_left (List.getElem?_eq_some_iff.1 found).1]
    exact found
  rw [List.getElem?_zipIdx, Nat.zero_add] at listed
  rcases Option.map_eq_some_iff.1 listed with ⟨node, stored, rfl⟩
  rw [Array.getElem?_toList] at stored
  rcases visit_crossed unmonitored stored visited with ⟨_, _, _, _, crossed, -⟩
  exact crossed.grounded_after usage grounded

theorem grounded_of_rounds (usage : context.config.has .usageVersions = true)
    (unmonitored : context.graph.Unmonitored) {start : RunState}
    {count : Nat} (grounded : Grounded context start)
    (rounds : Rounds context start count dirty state) : Grounded context state := by
  induction rounds with
  | none => exact grounded
  | more earlier unsettled last induction =>
      rcases round_ok last with ⟨before, after, counted, passes, reported⟩
      have whole := List.append_nil context.graph.nodes.toList.zipIdx
      have passed := grounded_of_visits usage unmonitored whole.symm passes
        (induction.aside counted)
      exact passed.aside reported

theorem names_seeding {fields : Option (ExtTreeMap ExprId Slot)} (context : Context)
    (entry : NodeId) : Preserves (RunState.Names fields) (seeding context entry) :=
  indifferent_names.seeding (fun _ _ names => names) context entry

/-- After the seeding nothing is stored that would not be grounded. -/
theorem grounded_seeded {config : Config} {body : Body} {entry : NodeId} {seeded : RunState}
    (seeds : seeding { config, body } entry (Versioner.start config body) = .ok () seeded) :
    Grounded { config, body } seeded := by
  have unvisited := unvisited_seeded seeds
  refine ⟨fun versioned => ?_, fun name _ => unvisited.not_leaving name,
    fun _ _ entering => (unvisited.not_entering entering).elim,
    fun _ _ entering => (unvisited.not_entering entering).elim,
    fun name _ => (unvisited.not_leaving name).2,
    fun _ _ entering => (unvisited.not_entering entering).elim⟩
  have names := names_seeding _ entry _ _ _ rfl seeds
  rw [names]
  unfold Versioner.start Tables.fresh Tables.renew
  rw [if_pos versioned]
  rfl

end RunM

end SlotVersioning
