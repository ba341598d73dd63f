import SlotVersioning.Proofs.Landing.Order
import SlotVersioning.Proofs.Ranges.Steps
import SlotVersioning.Proofs.Shape.Runs

/-!
# Keeping ranges

With usage versions a range stays with the version that it was recorded for, and `Allots` says which
one that is: the range of the statement where the version was numbered. Every visit keeps this
(`upholds_ranges`). What was numbered before keeps its range, what a visit numbers gets that of its
statement (`Numbering`), and a version has one owner, so that no phantom is a site or a phi input.
-/

namespace SlotVersioning

open Std VersionGraph RunM

namespace Body

/-- The variable is visited at a node of the statement. -/
def VisitsAt (body : Body) (statement : StatementId) (target : VariableSite) : Prop :=
  ∃ name place, body.Hosts name statement ∧ place ∈ (body.course name).visits ∧
    place.site? = some target

/-- The version is one with which its slot landed. -/
def LandsAs (body : Body) (key : VersionKey) : Prop :=
  ∃ index landing, body.landings[index]? = some landing ∧ key.slot ∈ landing.slots ∧
    key.version = landedVersion body.landings index key.slot

/-- The range that a guest brings. -/
def guestRange (body : Body) : Guest → Option StatementId
  | .parameters => none
  | .handler statement _ => body.statements.protector? statement

variable {body : Body} {config : Config} {statement other : StatementId}
  {target site : VariableSite} {state : RunState}

theorem VisitsAt.known (visits : body.VisitsAt statement target) :
    body.arena.site? target.expression = some target := by
  rcases visits with ⟨name, place, -, member, isSite⟩
  exact body.sitesIn_course name place member target isSite

/-- A variable is visited for one statement only. -/
theorem VisitsAt.unique (visits : body.VisitsAt statement target) (usedOnce : body.uses.Nodup)
    (others : body.VisitsAt other site) (same : target.expression = site.expression) :
    statement = other ∧ target = site := by
  have known := visits.known
  rw [same, others.known] at known
  rcases visits with ⟨name, place, ⟨node, found, rfl⟩, member, isSite⟩
  rcases others with ⟨otherName, otherPlace, ⟨otherNode, otherFound, rfl⟩, otherMember, otherSite⟩
  refine ⟨?_, (Option.some.inj known).symm⟩
  by_cases sameNode : name = otherName
  · subst sameNode
    rw [Option.some.inj (found.symm.trans otherFound)]
  · refine absurd (Course.mem_sites_of_visit otherMember otherSite) ?_
    rw [← same]
    exact body.sites_apart usedOnce sameNode _ (Course.mem_sites_of_visit member isSite)

/-- With usage versions a visited site owns its version. -/
theorem VisitsAt.owns (visits : body.VisitsAt statement target)
    (usage : config.has .usageVersions = true) (versioned : state.version target.expression ≠ 0) :
    (body.claimants config).Owns state (.site target.expression)
      ⟨target.slot, state.version target.expression⟩ := by
  have known := visits.known
  rcases visits with ⟨name, place, -, member, isSite⟩
  exact ⟨⟨place, ⟨name, member⟩, Visit.mem_written_of_site isSite, .inl usage⟩, versioned, target,
    known, rfl⟩

/-- A phi input that was numbered for a visited site, and leads nowhere else. -/
structure Feeds (body : Body) (state : RunState) (input : VersionKey) (statement : StatementId)
    (target : VariableSite) : Prop where
  visits : body.VisitsAt statement target
  versioned : state.version target.expression ≠ 0
  slot : target.slot = input.slot
  range : state.tables.range? input = body.statements.protector? statement
  leads : ∀ key, state.tables.LeadsInto input key →
    key = ⟨target.slot, state.version target.expression⟩

/-- Which versions have ranges, and which ones. -/
structure Allots (body : Body) (state : RunState) : Prop where
  ranged : state.Ranged
  landed : ∀ slot, (body.landings.flatMap Landing.slots).count slot ≤ state.last slot
  guests : ∀ index landing, body.landings[index]? = some landing → ∀ slot ∈ landing.slots,
    state.tables.range? ⟨slot, landedVersion body.landings index slot⟩ =
      body.guestRange landing.guest
  sites : ∀ statement target, body.VisitsAt statement target →
    state.version target.expression ≠ 0 →
      state.tables.range? ⟨target.slot, state.version target.expression⟩ =
        body.statements.protector? statement
  phantoms : ∀ owner phantom, state.tables.phantom? owner = some phantom →
    state.tables.range? phantom = none
  inputs : ∀ input, state.tables.HasInput input →
    ∃ statement target, body.Feeds state input statement target
  others : ∀ key range, state.tables.range? key = some range →
    body.LandsAs key ∨ state.tables.HasInput key ∨
      ∃ statement target, body.VisitsAt statement target ∧ state.version target.expression ≠ 0 ∧
        key = ⟨target.slot, state.version target.expression⟩

/-- What is numbered between two states is numbered for one site of the statement, if at all. -/
structure Numbering (body : Body) (config : Config) (statement : StatementId)
    (before after : RunState) : Prop where
  began : (body.claimants config).Ledger before
  ledger : (body.claimants config).Ledger after
  advances : (body.claimants config).Advances before after
  kept : ∀ expression, before.version expression ≠ 0 →
    after.version expression = before.version expression
  haunts : ∃ own, Haunting (body.statements.protector? statement) own before after ∧
    ∀ key, NumberedIn before after key → ∃ target, body.VisitsAt statement target ∧
      after.version target.expression ≠ 0 ∧
        own = ⟨target.slot, after.version target.expression⟩
  fresh : ∀ other target, body.VisitsAt other target → before.version target.expression = 0 →
    after.version target.expression ≠ 0 →
      NumberedIn before after ⟨target.slot, after.version target.expression⟩ ∧ other = statement

end Body

/-! ## What is numbered keeps its range -/

namespace Body.Numbering

variable {body : Body} {config : Config} {statement : StatementId} {before after : RunState}
  {key : VersionKey} {owner : Owner}

variable (numbering : body.Numbering config statement before after)

include numbering

/-- An owner has its version from before, or the version was numbered in between. -/
private theorem owned (owns : (body.claimants config).Owns after owner key) :
    (body.claimants config).Owns before owner key ∨ NumberedIn before after key :=
  (numbering.advances.owned owner key owns).imp_right fun late =>
    ⟨late, (numbering.ledger.numbered owner key owns).2⟩

theorem range_old (owns : (body.claimants config).Owns before owner key) :
    after.tables.range? key = before.tables.range? key := by
  rcases numbering.haunts with ⟨own, haunting, -⟩
  rcases haunting.mints with ⟨spared, mints, -⟩
  exact mints.old key (numbering.began.numbered owner key owns).2

/-- What is numbered gets the range of the statement, unless it is a phantom. -/
theorem range_new (numbered : NumberedIn before after key)
    (owns : (body.claimants config).Owns after owner key) (plain : ∀ other, owner ≠ .phantom other) :
    after.tables.range? key = body.statements.protector? statement := by
  rcases numbering.haunts with ⟨own, haunting, -⟩
  rcases haunting.mints with ⟨spared, mints, recorded, -⟩
  refine mints.new key numbered fun isSpared => ?_
  rcases recorded key isSpared with ⟨other, found⟩
  have phantom : (body.claimants config).Owns after (.phantom other) key := found
  exact plain other (numbering.ledger.unique _ _ key owns phantom)

private theorem range_phantom {other phantom : VersionKey}
    (found : after.tables.phantom? other = some phantom)
    (without : before.tables.phantom? other = some phantom →
      before.tables.range? phantom = none) : after.tables.range? phantom = none := by
  rcases numbering.haunts with ⟨own, haunting, -⟩
  rcases haunting.mints with ⟨spared, mints, -, known⟩
  rcases known other phantom found with old | isSpared
  · have owns : (body.claimants config).Owns before (.phantom other) phantom := old
    exact (numbering.range_old owns).trans (without old)
  · exact (mints.without phantom isSpared).2

/-- A phi input that is numbered feeds the site for which it was. -/
private theorem feeds_new {input : VersionKey} (isInput : after.tables.HasInput input)
    (numbered : NumberedIn before after input) :
    ∃ target, body.Feeds after input statement target := by
  have owns : (body.claimants config).Owns after (.input input) input := ⟨rfl, isInput⟩
  have range := numbering.range_new numbered owns fun _ => Owner.noConfusion
  rcases numbering.haunts with ⟨own, haunting, named⟩
  rcases haunting.mints with ⟨spared, mints, -⟩
  rcases named input numbered with ⟨target, visits, versioned, rfl⟩
  refine ⟨target, visits, versioned, ?_, range, fun key leads => ?_⟩
  · by_contra different
    have same := mints.elsewhere input.slot fun equal => different equal.symm
    exact absurd (same ▸ numbered.numbered) (Nat.not_le_of_lt numbered.unnumbered)
  · rcases mints.leads input key leads with old | ⟨same, -⟩
    · rcases old with ⟨graph, stored, way, -, -, atWay, -⟩
      have known : (body.claimants config).Owns before (.input input) input :=
        ⟨rfl, graph, stored, way, atWay⟩
      exact absurd (numbering.began.numbered _ _ known).2 (Nat.not_le_of_lt numbered.unnumbered)
    · exact same

/-- A phi input that was there goes on feeding its site. -/
private theorem feeds_old {input : VersionKey} {other : StatementId} {target : VariableSite}
    (feeds : body.Feeds before input other target)
    (owns : (body.claimants config).Owns before (.input input) input) :
    body.Feeds after input other target := by
  have kept := numbering.kept _ feeds.versioned
  have range := numbering.range_old owns
  rcases numbering.haunts with ⟨own, haunting, -⟩
  rcases haunting.mints with ⟨spared, mints, -⟩
  refine ⟨feeds.visits, kept ▸ feeds.versioned, feeds.slot, range.trans feeds.range,
    fun key leads => ?_⟩
  rcases mints.leads input key leads with old | ⟨-, numbered⟩
  · rw [kept]
    exact feeds.leads key old
  · exact absurd (numbering.began.numbered _ _ owns).2 (Nat.not_le_of_lt numbered.unnumbered)

end Body.Numbering

namespace Body.Allots

variable {body : Body} {config : Config} {statement : StatementId} {before after : RunState}

private theorem after_numbering (allots : body.Allots before)
    (numbering : body.Numbering config statement before after)
    (usage : config.has .usageVersions = true) : body.Allots after := by
  rcases numbering.haunts with ⟨own, haunting, named⟩
  rcases haunting.mints with ⟨spared, mints, recorded, -⟩
  refine ⟨mints.ranged, fun slot => Nat.le_trans (allots.landed slot) (mints.last slot), ?_, ?_, ?_,
    ?_, ?_⟩
  · intro index landing lands slot inside
    rw [mints.old _ (Nat.le_trans (landedVersion_le lands inside) (allots.landed slot))]
    exact allots.guests index landing lands slot inside
  · intro other target visits versioned
    by_cases first : before.version target.expression = 0
    · rcases numbering.fresh other target visits first versioned with ⟨numbered, rfl⟩
      exact numbering.range_new numbered (visits.owns usage versioned) fun _ => Owner.noConfusion
    · rw [numbering.kept _ first, numbering.range_old (visits.owns usage first)]
      exact allots.sites other target visits first
  · exact fun owner phantom found =>
      numbering.range_phantom found (allots.phantoms owner phantom)
  · intro input isInput
    have owns : (body.claimants config).Owns after (.input input) input := ⟨rfl, isInput⟩
    rcases numbering.owned owns with old | numbered
    · rcases allots.inputs input old.2 with ⟨other, target, feeds⟩
      exact ⟨other, target, numbering.feeds_old feeds old⟩
    · exact ⟨statement, numbering.feeds_new isInput numbered⟩
  · intro key range found
    by_cases early : key.version ≤ before.last key.slot
    · rcases allots.others key range ((mints.old key early).symm.trans found) with
        landed | isInput | ⟨other, target, visits, versioned, rfl⟩
      · exact .inl landed
      · exact .inr (.inl (mints.inputs key isInput))
      · have kept := numbering.kept _ versioned
        exact .inr (.inr ⟨other, target, visits, kept ▸ versioned, by rw [kept]⟩)
    by_cases late : key.version ≤ after.last key.slot
    · have numbered : NumberedIn before after key := ⟨Nat.lt_of_not_le early, late⟩
      rcases mints.named key numbered with rfl | isSpared | isInput
      · rcases named key numbered with ⟨target, visits, versioned, same⟩
        exact .inr (.inr ⟨statement, target, visits, versioned, same⟩)
      · exact nomatch (mints.without key isSpared).2.symm.trans found
      · exact .inr (.inl isInput)
    · exact nomatch (mints.ranged.unnumbered key (Nat.lt_of_not_le late)).symm.trans found

end Body.Allots

/-! ## Visits -/

section

variable {body : Body} {config : Config} {statement : StatementId} {name : NodeId} {place : Visit}
  {facts result : Facts} {before after : RunState} {live : Bool}

private theorem numbering_act (usedOnce : body.uses.Nodup)
    (ordinary : ∀ expression target, body.arena.site? expression = some target → 0 ≤ target.slot)
    (usage : config.has .usageVersions = true) (hosts : body.Hosts name statement)
    (member : place ∈ (body.course name).visits) (accounts : Accounts body config before)
    (shaped : before.Shaped (body.ReadAs before.version)) (ranged : before.Ranged)
    (admitted : before.Admitted facts)
    (run : place.act ({ config, body : Context }.site statement live) facts before =
      .ok result after) : body.Numbering config statement before after := by
  have fits : (body.claimants config).Fits config place := body.fits usedOnce ordinary member
  have settles := accounts.ledger.act admitted fits run
  have later := shaped.mono fun key (isRead : body.ReadAs before.version key) =>
    isRead.later fun _ expression _ versioned => act_kept run usage versioned
  have versioned (target : VariableSite) (visits : place.site? = some target) :=
    settles.versioned _ (Visit.mem_written_of_site visits)
  have haunts {own : VersionKey} (owned : ∀ target, place.site? = some target →
      own = ⟨target.slot, after.version target.expression⟩) :
      Haunting (body.statements.protector? statement) own before after :=
    accounts.ledger.act_ranges admitted usage fits ranged later (fun target isRead visits =>
      ⟨place, target, ⟨name, member⟩, isRead, visits, versioned target visits, rfl⟩) owned run
  refine ⟨accounts.ledger, settles.ledger, settles.advances,
    fun expression versioned => act_kept run usage versioned, ?_, ?_⟩
  · cases visits : place.site? with
    | some target =>
        refine ⟨⟨target.slot, after.version target.expression⟩, haunts fun other same => ?_,
          fun key _ => ⟨target, ⟨name, place, hosts, member, visits⟩, versioned target visits, rfl⟩⟩
        cases visits.symm.trans same
        rfl
    | none =>
        have anywhere (own : VersionKey) :
            Haunting (body.statements.protector? statement) own before after :=
          haunts fun target same => nomatch visits.symm.trans same
        -- Without a site nothing is numbered, because every slot is elsewhere.
        refine ⟨⟨0, 0⟩, anywhere _, fun key numbered => ?_⟩
        rcases (anywhere ⟨key.slot + 1, 0⟩).mints with ⟨spared, mints, -⟩
        have same := mints.elsewhere key.slot (Int.ne_of_lt (Int.lt_succ key.slot))
        exact absurd (same ▸ numbered.numbered) (Nat.not_le_of_lt numbered.unnumbered)
  · intro other target visitsAt unversioned versionedAfter
    have written : target.expression ∈ place.written := by
      by_contra outside
      rw [(act_frame run).version _ outside] at versionedAfter
      exact versionedAfter unversioned
    rcases Visit.mem_written.1 written with ⟨site, visits, same⟩
    have here : body.VisitsAt statement site := ⟨name, place, hosts, member, visits⟩
    rcases visitsAt.unique usedOnce here same.symm with ⟨rfl, rfl⟩
    have stamps := act_stamps run usage visits
    exact ⟨⟨stamps.fresh unversioned, stamps.bounded unversioned⟩, rfl⟩

/-- What is beside numbers nothing. -/
private theorem numbering_beside (accounts : Accounts body config before)
    (shaped : before.Shaped (body.ReadAs before.version)) (ranged : before.Ranged)
    (beside : Beside before after) : body.Numbering config statement before after := by
  rcases accounts.ledger.beside beside with ⟨ledger, narrows⟩
  rcases shaped with ⟨graph, stored, -⟩
  rcases beside.graph graph stored with ⟨next, nextStored, similar⟩
  have versions := congrFun beside.version
  have mints : Mints (body.statements.protector? statement) ⟨0, 0⟩ [] before after :=
    .of_tame ranged (.of_graphs stored nextStored (.of_similar similar)) beside.ranges
      beside.lastVersions
  refine ⟨accounts.ledger, ledger, narrows.advances, fun expression _ => versions expression,
    ⟨⟨0, 0⟩, .of_mints mints beside.phantoms, fun key numbered => ?_⟩,
    fun other target _ unversioned versioned => ?_⟩
  · have same := congrFun beside.last key.slot
    exact absurd (same ▸ numbered.numbered) (Nat.not_le_of_lt numbered.unnumbered)
  · exact absurd ((versions _).trans unversioned) versioned

theorem upholds_ranges (usedOnce : body.uses.Nodup)
    (ordinary : ∀ expression target, body.arena.site? expression = some target → 0 ≤ target.slot)
    (usage : config.has .usageVersions = true) :
    Upholds { config, body }
      (fun state => (Accounts body config state ∧ state.Shaped (body.ReadAs state.version)) ∧
        body.Allots state) RunState.Admitted Versioned := by
  have upholds := @upholds_shaped body config usedOnce ordinary usage
  refine ⟨upholds.closed, ?_, ?_⟩
  · rintro live statement name place facts result before after hosts member ⟨shaped, allots⟩
      admitted run
    have acts := upholds.act hosts member shaped admitted run
    have numbering := numbering_act usedOnce ordinary usage hosts member shaped.1 shaped.2
      allots.ranged admitted run
    exact ⟨⟨acts.1, allots.after_numbering numbering usage⟩, acts.2⟩
  · rintro before after beside ⟨shaped, allots⟩
    have kept := upholds.beside beside shaped
    have numbering : body.Numbering config StatementTree.root before after :=
      numbering_beside shaped.1 shaped.2 allots.ranged beside
    exact ⟨⟨kept.1, allots.after_numbering numbering usage⟩, kept.2⟩

end

end SlotVersioning
