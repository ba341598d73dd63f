import SlotVersioning.Proofs.Pass.Settled
import SlotVersioning.Proofs.Run.Renewal

/-!
# From pass to pass

What one pass makes of the state before it, without usage versions (`Turn`). A node is brought what
left its earlier predecessors in this pass, and what left the others in the pass before. Every site
is renewed once.
-/

namespace SlotVersioning

open Std

/-- `reaching` reaches the site `target`, which `place` visits at a node that was visited. -/
def ReachesAt (body : Body) (tables : Tables) (versions : ExprId → Version) (node : NodeId)
    (place : Visit) (target : VariableSite) (reaching : VersionSet) : Prop :=
  ∃ facts, tables.inFacts[node]? = some facts ∧
    (place, reaching) ∈ (body.course node).arrivals versions target.slot
      (facts.reaching target.slot) ∧
    place.site? = some target

/-- A node is brought what left its earlier predecessors now, and what left the others before. -/
def JoinsInTurn (graph : FlowGraph) (before after : Tables) (node : NodeId) (facts : Facts) :
    Prop :=
  ∀ slot version, version ∈ facts.reaching slot ↔
    (∃ source ∈ graph.predecessors node,
      version ∈ (if source < node then after else before).brought graph source node slot) ∨
    version ∈ before.seeded node slot

private theorem Tables.brought_congr {before after : Tables} {graph : FlowGraph}
    {source target : NodeId} {slot : Slot}
    (out : after.outFacts[source]? = before.outFacts[source]?)
    (negative : after.negativeFacts[source]? = before.negativeFacts[source]?) :
    after.brought graph source target slot = before.brought graph source target slot := by
  unfold brought edgeFacts?
  rw [out, negative]

/-- The sites of the nodes below `count` are those that were visited. -/
structure Covers (body : Body) (count : Nat) (state : RunState) (done : List (Visit × Facts)) :
    Prop where
  once : ((done.map Prod.fst).flatMap Visit.written).Nodup
  within : ∀ expression ∈ (done.map Prod.fst).flatMap Visit.written,
    ∃ node < count, expression ∈ (body.course node).sites
  logged : ∀ node < count, ∀ place target reaching,
    ReachesAt body state.tables state.version node place target reaching → 0 ≤ target.slot →
      ∃ entry ∈ done, entry.1 = place ∧ entry.2.reaching target.slot = reaching

/-- A pass that began at `start` has visited the nodes below `count`. -/
structure Turning (context : Context) (start : RunState) (count : Nat) (state : RunState)
    (done : List (Visit × Facts)) : Prop where
  renewed : Renewed start state done
  covers : Covers context.body count state done
  joins : ∀ node < count, ∃ facts, state.tables.inFacts[node]? = some facts ∧
    JoinsInTurn context.graph start.tables state.tables node facts
  waiting : ∀ node, count ≤ node →
    state.tables.outFacts[node]? = start.tables.outFacts[node]? ∧
      state.tables.negativeFacts[node]? = start.tables.negativeFacts[node]?
  seeded : state.tables.seeded = start.tables.seeded

namespace Turning

theorem refl (context : Context) {start : RunState} (numbered : start.Numbered) :
    Turning context start 0 start [] where
  renewed := .refl numbered
  covers :=
    ⟨List.nodup_nil, (fun _ member => nomatch member),
      fun node below => absurd below (Nat.not_lt_zero node)⟩
  joins := fun node below => absurd below (Nat.not_lt_zero node)
  waiting := fun _ _ => ⟨rfl, rfl⟩
  seeded := rfl

variable {context : Context} {live : Bool} {node : FlowNode} {name : NodeId} {facts : Facts}
  {log : List (Visit × Facts)} {outcome : OutcomeFacts} {changed : Bool}
  {start before middle after : RunState} {done : List (Visit × Facts)}

theorem once_after (turning : Turning context start name before done)
    (visited : RunM.Visited context live node name facts log outcome changed before middle after)
    (unshared : context.body.Unshared) :
    (((done ++ log).map Prod.fst).flatMap Visit.written).Nodup := by
  rw [List.map_append, List.flatMap_append, visited.done.visits, List.nodup_append]
  refine ⟨turning.covers.once, unshared.nodup_sites name, ?_⟩
  rintro expression earlier other here rfl
  rcases turning.covers.within expression earlier with ⟨node, below, inside⟩
  exact unshared.sites_apart (Nat.ne_of_lt below) expression inside here

private theorem covers_after (turning : Turning context start name before done)
    (visited : RunM.Visited context live node name facts log outcome changed before middle after)
    (unshared : context.body.Unshared) :
    Covers context.body (name + 1) after (done ++ log) := by
  refine ⟨turning.once_after visited unshared, ?_, ?_⟩
  · intro expression member
    rw [List.map_append, List.flatMap_append, List.mem_append] at member
    rcases member with earlier | here
    · rcases turning.covers.within expression earlier with ⟨other, below, inside⟩
      exact ⟨other, Nat.lt_succ_of_lt below, inside⟩
    · rw [visited.done.visits] at here
      exact ⟨name, Nat.lt_succ_self name, here⟩
  · rintro other below place target reaching ⟨stored, entering, arrives, visits⟩ ordinary
    by_cases here : other = name
    · subst here
      rw [visited.inFacts_self] at entering
      cases entering
      rw [funext visited.version_after, ← visited.done.arrivals _ ordinary] at arrives
      rcases List.mem_map.1 arrives with ⟨entry, member, same⟩
      cases same
      exact ⟨entry, List.mem_append_right _ member, rfl, rfl⟩
    · rw [visited.inFacts_other here] at entering
      have agree : ∀ expression ∈ (context.body.course other).sites,
          after.version expression = before.version expression := fun expression inside =>
        visited.version_other (unshared.sites_apart here expression inside)
      rw [Course.arrivals_congr agree] at arrives
      have earlier := Nat.lt_of_le_of_ne (Nat.le_of_lt_succ below) here
      rcases turning.covers.logged other earlier place target reaching
        ⟨stored, entering, arrives, visits⟩ ordinary with ⟨entry, member, same⟩
      exact ⟨entry, List.mem_append_left _ member, same⟩

private theorem joins_after (turning : Turning context start name before done)
    (visited : RunM.Visited context live node name facts log outcome changed before middle after) :
    ∀ other < name + 1, ∃ stored, after.tables.inFacts[other]? = some stored ∧
      JoinsInTurn context.graph start.tables after.tables other stored := by
  intro other below
  have kept {source : NodeId} (different : source ≠ name) (slot : Slot) :
      after.tables.brought context.graph source other slot =
        before.tables.brought context.graph source other slot :=
    visited.brought_same (fun same => absurd same different) slot
  by_cases here : other = name
  · subst here
    refine ⟨facts, visited.inFacts_self, fun slot version => ?_⟩
    have each (source : NodeId) :
        (if source < other then after.tables else start.tables).brought context.graph source other
            slot = before.tables.brought context.graph source other slot := by
      by_cases earlier : source < other
      · rw [if_pos earlier, kept (Nat.ne_of_lt earlier)]
      · rw [if_neg earlier]
        have waiting := turning.waiting source (Nat.le_of_not_lt earlier)
        exact (Tables.brought_congr waiting.1 waiting.2).symm
    rw [visited.joins slot version, turning.seeded]
    apply or_congr_left
    simp only [each]
  · rw [visited.inFacts_other here]
    have earlier := Nat.lt_of_le_of_ne (Nat.le_of_lt_succ below) here
    rcases turning.joins other earlier with ⟨stored, entering, joins⟩
    refine ⟨stored, entering, fun slot version => ?_⟩
    have each (source : NodeId) :
        (if source < other then after.tables else start.tables).brought context.graph source other
            slot =
          (if source < other then before.tables else start.tables).brought context.graph source
            other slot := by
      split
      · next first => exact kept (Nat.ne_of_lt (Nat.lt_trans first earlier)) slot
      · rfl
    rw [joins slot version]
    apply or_congr_left
    simp only [each]

/-- One more visit. -/
private theorem visited (turning : Turning context start name before done)
    (visited : RunM.Visited context live node name facts log outcome changed before middle after)
    (unshared : context.body.Unshared) (plain : context.config.has .usageVersions = false) :
    Turning context start (name + 1) after (done ++ log) where
  renewed := by
    have entered : Renewed start (RunM.entered before name facts) done :=
      turning.renewed.congr (fun _ => rfl) (fun _ => rfl) rfl
    have performed := entered.performs plain visited.done.performs
      (turning.once_after visited unshared)
    exact performed.congr visited.version_after visited.last_after visited.merged_after
  covers := turning.covers_after visited unshared
  joins := turning.joins_after visited
  waiting := by
    intro other above
    have waiting := turning.waiting other (Nat.le_of_succ_le above)
    have different : other ≠ name := Nat.ne_of_gt above
    rw [visited.left.otherOut other different, visited.left.otherNegative other different,
      visited.outFacts_middle, visited.negativeFacts_middle]
    exact waiting
  seeded := visited.seeded_after.trans turning.seeded

end Turning

/-! ## Whole passes -/

/-- What one pass makes of the state before it. -/
structure Turn (context : Context) (before after : RunState) : Prop where
  joins : ∀ node < context.graph.size, ∃ facts, after.tables.inFacts[node]? = some facts ∧
    JoinsInTurn context.graph before.tables after.tables node facts
  seeded : after.tables.seeded = before.tables.seeded
  last : ∀ slot, before.last slot ≤ after.last slot
  grows : Grows before after
  /-- What is merged under a key that was unknown is merged under a new version. -/
  merged : ∀ key, after.tables.merged? key ≠ none → before.tables.merged? key = none →
    before.last key.slot < key.version
  renewal : ∀ node < context.graph.size, ∀ place target reaching,
    ReachesAt context.body after.tables after.version node place target reaching →
      0 ≤ target.slot → Renewal before after place.isRead target reaching
  /-- Two sites of a slot that did not adopt their versions did not get the same new one. -/
  apart : ∀ left < context.graph.size, ∀ right < context.graph.size,
    ∀ leftPlace leftSite leftReaching rightPlace rightSite rightReaching,
    ReachesAt context.body after.tables after.version left leftPlace leftSite leftReaching →
    ReachesAt context.body after.tables after.version right rightPlace rightSite rightReaching →
    0 ≤ leftSite.slot → leftSite.slot = rightSite.slot →
    leftSite.expression ≠ rightSite.expression → ¬ Adopts leftPlace.isRead leftReaching →
    ¬ Adopts rightPlace.isRead rightReaching → Minted before after leftSite →
    Minted before after rightSite →
    after.version leftSite.expression ≠ after.version rightSite.expression

namespace Turning

variable {context : Context} {start state : RunState} {done : List (Visit × Facts)}

private theorem turn (turning : Turning context start context.graph.size state done) :
    Turn context start state where
  joins := turning.joins
  seeded := turning.seeded
  last := turning.renewed.last
  grows := turning.renewed.grows
  merged := turning.renewed.merged
  renewal := by
    intro node below place target reaching reaches ordinary
    rcases turning.covers.logged node below place target reaching reaches ordinary with
      ⟨entry, member, rfl, rfl⟩
    rcases reaches with ⟨-, -, -, visits⟩
    exact turning.renewed.renewal entry member target visits
  apart := by
    intro left leftBelow right rightBelow leftPlace leftSite leftReaching rightPlace rightSite
      rightReaching leftReaches rightReaches ordinary same different leftOwns rightOwns leftMinted
      rightMinted
    rcases turning.covers.logged left leftBelow leftPlace leftSite leftReaching leftReaches
      ordinary with ⟨leftEntry, leftMember, rfl, rfl⟩
    rcases turning.covers.logged right rightBelow rightPlace rightSite rightReaching rightReaches
      (same ▸ ordinary) with ⟨rightEntry, rightMember, rfl, rfl⟩
    rcases leftReaches with ⟨-, -, -, leftVisits⟩
    rcases rightReaches with ⟨-, -, -, rightVisits⟩
    exact turning.renewed.apart leftEntry leftMember rightEntry rightMember leftSite rightSite
      leftVisits rightVisits same different leftOwns rightOwns leftMinted rightMinted

end Turning

namespace Turn

variable {context : Context} {first before after last : RunState}

/-- What is done aside before and after a pass has no part in it. -/
theorem aside (turn : Turn context before after) (begun : Aside first before)
    (ended : Aside after last) : Turn context first last := by
  have reached {node : NodeId} {place : Visit} {target : VariableSite} {reaching : VersionSet}
      (reaches : ReachesAt context.body last.tables last.version node place target reaching) :
      ReachesAt context.body after.tables after.version node place target reaching := by
    rcases reaches with ⟨facts, entering, arrives, visits⟩
    rw [ended.inFacts] at entering
    rw [ended.version] at arrives
    exact ⟨facts, entering, arrives, visits⟩
  have minted {target : VariableSite} (minted : Minted first last target) :
      Minted before after target := by
    refine ⟨?_, ?_, ?_⟩
    · rw [begun.version, begun.last]
      exact minted.known
    · rw [begun.last, ← ended.version]
      exact minted.fresh
    · rw [← ended.version, ← ended.last]
      exact minted.bounded
  constructor
  case joins =>
    intro node below
    rcases turn.joins node below with ⟨facts, entering, joins⟩
    refine ⟨facts, ended.inFacts ▸ entering, fun slot version => ?_⟩
    rw [joins slot version, begun.seeded]
    apply or_congr_left
    have each (source : NodeId) :
        (if source < node then after.tables else before.tables).brought context.graph source node
            slot =
          (if source < node then last.tables else first.tables).brought context.graph source node
            slot := by
      split
      · unfold Tables.brought Tables.edgeFacts?
        rw [ended.outFacts, ended.negativeFacts]
      · unfold Tables.brought Tables.edgeFacts?
        rw [begun.outFacts, begun.negativeFacts]
    simp only [each]
  case seeded => rw [ended.seeded, turn.seeded, begun.seeded]
  case last =>
    intro slot
    rw [ended.last, ← begun.last]
    exact turn.last slot
  case grows => exact ((Grows.of_phi begun.phi).trans turn.grows).trans (.of_phi ended.phi)
  case merged =>
    intro key found absent
    rw [ended.merged] at found
    rw [← begun.last]
    rw [← begun.merged] at absent
    exact turn.merged key found absent
  case renewal =>
    intro node below place target reaching reaches ordinary
    have renewal := turn.renewal node below place target reaching (reached reaches) ordinary
    have since : Renewal first after place.isRead target reaching :=
      renewal.since (by rw [begun.version]) (fun slot => Nat.le_of_eq (by rw [begun.last]))
        (.of_phi begun.phi)
    exact since.later (by rw [ended.version]) fun slot => Nat.le_of_eq (by rw [ended.last])
  case apart =>
    intro left leftBelow right rightBelow leftPlace leftSite leftReaching rightPlace rightSite
      rightReaching leftReaches rightReaches ordinary same different leftOwns rightOwns leftMinted
      rightMinted
    rw [ended.version]
    exact turn.apart left leftBelow right rightBelow leftPlace leftSite leftReaching rightPlace
      rightSite rightReaching (reached leftReaches) (reached rightReaches) ordinary same different
      leftOwns rightOwns (minted leftMinted) (minted rightMinted)

end Turn

namespace RunM

variable {context : Context} {live : Bool} {dirty dirtyAfter : DirtyNodes}
  {state final : RunState}

theorem turn_of_pass (unshared : context.body.Unshared)
    (plain : context.config.has .usageVersions = false) (settling : Settling context dirty state)
    (run : pass context live dirty state = .ok dirtyAfter final) : Turn context state final := by
  have whole := pass_induction (motive := fun count dirty middle =>
    Settling context dirty middle ∧ ∃ done, Turning context state count middle done) ?_ run
    ⟨settling, [], .refl context settling.numbered⟩
  · rcases whole.2 with ⟨done, turning⟩
    exact turning.turn
  · rintro name node dirty dirtyAfter before after found ⟨settling, done, turning⟩ visits
    rcases visit_ok unshared settling.fields found visits with
      ⟨facts, log, outcome, changed, middle, visited, rfl⟩
    exact ⟨visited.settling unshared found settling, done ++ log,
      turning.visited visited unshared plain⟩

/-- A round is one turn. -/
theorem turn_of_round (unshared : context.body.Unshared)
    (plain : context.config.has .usageVersions = false) (settling : Settling context dirty state)
    (run : round context dirty state = .ok dirtyAfter final) : Turn context state final := by
  rcases round_ok run with ⟨before, after, counted, passes, reported⟩
  exact (turn_of_pass unshared plain (settling.aside counted) passes).aside counted reported

/-- A live round is one turn. -/
theorem turn_of_liveRound (unshared : context.body.Unshared)
    (plain : context.config.has .usageVersions = false) (settling : Settling context ∅ state)
    (run : liveRound context state = .ok () final) : Turn context state final := by
  rcases liveRound_ok run with ⟨before, after, dirtyAfter, counted, passes, reported⟩
  exact (turn_of_pass unshared plain (settling.aside counted) passes).aside counted reported

end RunM

end SlotVersioning
