import SlotVersioning.Proofs.Ownership.Seeds
import SlotVersioning.Proofs.Ownership.Visits
import SlotVersioning.Proofs.Pass.Upholding
import SlotVersioning.Proofs.Trace.Usage

/-!
# Owners after runs

After a successful run every version of a variable has at most one owner, and all versions that were
written or stored in facts were numbered. A site keeps a version of its own when its variable is
defined there, and with usage versions wherever it is visited.
-/

namespace SlotVersioning

open Std VersionGraph RunM

/-! ## Sites that keep their versions -/

namespace Body

/-- The variable is visited at some node. -/
def Visits (body : Body) (expression : ExprId) : Prop :=
  ∃ name, expression ∈ (body.course name).sites

/-- The place is visited at some node. -/
def Places (body : Body) (place : Visit) : Prop := ∃ name, place ∈ (body.course name).visits

/-- The site of a definition, or of any visit with usage versions. -/
def Keeps (body : Body) (config : Config) (expression : ExprId) : Prop :=
  ∃ place, body.Places place ∧ expression ∈ place.written ∧
    (config.has .usageVersions = true ∨ place.isRead = false)

/-- All that may own versions in a run. -/
def claimants (body : Body) (config : Config) : Claimants where
  arena := body.arena
  arrivals := body.arrivals
  keeps := body.Keeps config

variable {body : Body} {config : Config}

/-- Without usage versions the site of a read is no site of a definition. -/
theorem fits (usedOnce : body.uses.Nodup)
    (ordinary : ∀ expression target, body.arena.site? expression = some target → 0 ≤ target.slot)
    {name : NodeId} {place : Visit} (member : place ∈ (body.course name).visits) :
    (body.claimants config).Fits config place where
  known := body.sitesIn_course name place member
  ordinary := fun target visits =>
    ordinary _ _ (body.sitesIn_course name place member target visits)
  loose := by
    rintro plain isRead target visits ⟨other, ⟨node, otherMember⟩, written, usage | defines⟩
    · exact absurd (plain.symm.trans usage) Bool.false_ne_true
    · obtain rfl := body.place_unique usedOnce member otherMember (Visit.mem_written_of_site visits)
        written
      exact Bool.false_ne_true (defines.symm.trans isRead)

end Body

/-! ## Runs keep ledgers -/

/-- What is beside gives nothing away. -/
theorem Claimants.Ledger.beside {claimants : Claimants} {before after : RunState}
    (ledger : claimants.Ledger before) (beside : Beside before after) :
    claimants.Ledger after ∧ claimants.Narrows before after := by
  have last := beside.last
  have stored (next : VersionGraph) (found : after.tables.graph = some next) :
      ∃ old, before.tables.graph = some old ∧ old.nodes = next.nodes := by
    have nodes := beside.nodes
    rw [found] at nodes
    exact Option.map_eq_some_iff.1 nodes.symm
  have narrows : claimants.Narrows before after := by
    refine narrows_of_same beside.versions beside.phi beside.phantoms ?_ fun slot =>
      Nat.le_of_eq (congrFun last slot).symm
    rintro key ⟨next, found, position, isInput⟩
    rcases stored next found with ⟨old, before, same⟩
    refine ⟨old, before, position, ?_⟩
    unfold identity? at isInput ⊢
    rw [same]
    exact isInput
  refine ⟨ledger.narrow narrows beside.versions ⟨?_, ?_⟩ ?_, narrows⟩
  · rw [beside.nextFieldSlot]
    exact ledger.negative.next
  · rw [beside.fields]
    exact ledger.negative.given
  · rintro next facts found ⟨position, node, present, recorded⟩
    rcases stored next found with ⟨old, before, same⟩
    rw [← same] at present
    exact .inl ⟨old, before, position, node, present, recorded⟩

/-- The ledger is kept, only visited sites have versions, and what entered are arrivals. -/
structure Accounts (body : Body) (config : Config) (state : RunState) : Prop where
  ledger : (body.claimants config).Ledger state
  unvisited : ∀ expression, ¬ body.Visits expression → state.version expression = 0
  seeds : ∀ (name : NodeId) (facts : Facts), state.tables.seeds[name]? = some facts →
    facts.From body.arrivals

/-- The sites of the place have versions. -/
def Versioned (state : RunState) (place : Visit) : Prop :=
  ∀ expression ∈ place.written, state.version expression ≠ 0

private theorem Claimants.Settles.persists {claimants : Claimants} {place : Visit} {result : Facts}
    {before after : RunState} (settles : claimants.Settles place result before after)
    (frame : Frame place.written before after) :
    Persists RunState.Admitted Versioned before after where
  good := fun _ admitted => settles.advances.admitted admitted
  marked := by
    intro other versioned expression member
    by_cases written : expression ∈ place.written
    · exact settles.versioned expression written
    · rw [frame.version expression written]
      exact versioned expression member

section

variable {body : Body} {config : Config}

theorem upholds_accounts (usedOnce : body.uses.Nodup)
    (ordinary : ∀ expression target, body.arena.site? expression = some target → 0 ≤ target.slot) :
    Upholds { config, body } (Accounts body config) RunState.Admitted Versioned where
  closed := fun state =>
    ⟨.empty state, fun _ _ left right => left.union right,
      fun _ _ admitted below => admitted.of_subset below⟩
  act := by
    intro live statement name place facts result before after _ member accounts admitted run
    have settles := accounts.ledger.act admitted (body.fits usedOnce ordinary member) run
    have frame := act_frame run
    refine ⟨⟨settles.ledger, fun expression unvisited => ?_, ?_⟩, settles.admitted,
      settles.versioned, settles.persists frame⟩
    · rw [frame.version]
      · exact accounts.unvisited expression unvisited
      · exact fun written => unvisited ⟨name, List.mem_flatMap.2 ⟨place, member, written⟩⟩
    · rw [show after.tables.seeds = _ from congrArg Stores.seeds frame.stores]
      exact accounts.seeds
  beside := by
    intro before after beside accounts
    obtain ⟨ledger, narrows⟩ := accounts.ledger.beside beside
    have same := beside.version
    refine ⟨⟨ledger, ?_, ?_⟩, fun _ admitted => narrows.advances.admitted admitted,
      fun place versioned => ?_⟩
    · rw [same]
      exact accounts.unvisited
    · rw [beside.seeds]
      exact accounts.seeds
    · unfold Versioned
      rw [same]
      exact versioned

/-- What entered is admitted before the first round. -/
theorem Entering.kept {state : RunState} (entering : Entering body.arrivals state) :
    Kept { config, body } (Accounts body config) RunState.Admitted Versioned 0 state := by
  have first : Entering (body.claimants config).arrivals state := entering
  exact .of_unvisited entering.toUnvisited
    ⟨first.ledger, fun expression _ => entering.version expression, entering.seeds⟩
    fun name facts stored => first.admitted (entering.seeds name facts stored)

theorem Versioner.Begins.entering {state : RunState} (begins : Begins config body state) :
    Entering body.arrivals state := by
  cases begins with
  | bare noEntry =>
      unfold Body.arrivals
      rw [noEntry]
      exact entering_start config body
  | seeded isEntry seeds => exact seeding_entering isEntry seeds

end

/-! ## Whole runs -/

namespace RunResult

/-- The owner holds the version after the run. -/
def Owns (result : RunResult) (body : Body) (owner : Owner) (key : VersionKey) : Prop :=
  (body.claimants result.versioner.config).Holds result.versioner.tables result.version owner key

/-- The version was numbered for the slot. -/
def Numbers (result : RunResult) (slot : Slot) (version : Version) : Prop :=
  1 ≤ version ∧ version ≤ (result.versioner.tables.lastVersion? slot).getD 0

/-- The facts are stored at a node, or recorded at a version. -/
def Stores (result : RunResult) (facts : Facts) : Prop :=
  (∃ name : NodeId, result.versioner.tables.inFacts[name]? = some facts ∨
    result.versioner.tables.outFacts[name]? = some facts ∨
    result.versioner.tables.negativeFacts[name]? = some facts ∨
    result.versioner.tables.seeds[name]? = some facts) ∨
  ∃ graph, result.versioner.tables.graph = some graph ∧ graph.Records facts

end RunResult

namespace Versioner

variable {config : Config} {body : Body} {state : RunState} {outcome : Except Fault Unit}

theorem owns_finish {owner : Owner} {key : VersionKey} :
    (finish config body state outcome).Owns body owner key ↔
      (body.claimants config).Owns state owner key := by
  cases owner with
  | site expression =>
      have same (target : VariableSite) (found : body.arena.site? expression = some target) :
          (finish config body state outcome).version expression = state.version expression := by
        have known := Arena.expression_of_site? found
        subst known
        exact version_finish found
      constructor
      · rintro ⟨keeps, versioned, target, found, rfl⟩
        rw [same target found] at versioned ⊢
        exact ⟨keeps, versioned, target, found, rfl⟩
      · rintro ⟨keeps, versioned, target, found, rfl⟩
        rw [← same target found] at versioned ⊢
        exact ⟨keeps, versioned, target, found, rfl⟩
  | seed | merged | phantom | input => exact Iff.rfl

theorem numbers_finish {slot : Slot} {version : Version} :
    (finish config body state outcome).Numbers slot version ↔
      1 ≤ version ∧ version ≤ state.last slot := by
  have same : ((finish config body state outcome).versioner.tables.lastVersion? slot).getD 0 =
      state.last slot := ExtTreeMap.getD_eq_getD_getElem?.symm
  unfold RunResult.Numbers
  rw [same]

/-- All that is stored in a result is good if what is stored at nodes and all live facts are. -/
theorem good_of_stores {good : Facts → Prop} (storing : state.Storing good)
    (live : ∀ graph, state.tables.graph = some graph → ∀ facts, graph.Records facts → good facts)
    {facts : Facts} (stored : (finish config body state outcome).Stores facts) : good facts := by
  rcases stored with ⟨name, arriving | leaving | failing | seeded⟩ | ⟨graph, found, recorded⟩
  · exact storing.inFacts name facts arriving
  · exact storing.outFacts name facts leaving
  · exact storing.negativeFacts name facts failing
  · exact storing.seeds name facts seeded
  · exact live graph found facts recorded

section

variable (kept : Kept { config, body } (Accounts body config) RunState.Admitted Versioned
  body.graph.size state)

include kept

/-- Every visited site has a version. -/
theorem visited_of_kept {place : Visit} {target : VariableSite} (placed : body.Places place)
    (visits : place.site? = some target) :
    body.arena.site? target.expression = some target ∧ state.version target.expression ≠ 0 := by
  rcases placed with ⟨name, member⟩
  have known := Body.lt_size_of_visits member
  exact ⟨body.sitesIn_course name place member target visits,
    kept.visited name known place member _ (Visit.mem_written_of_site visits)⟩

theorem owns_of_kept {place : Visit} {target : VariableSite} (placed : body.Places place)
    (visits : place.site? = some target)
    (keeps : config.has .usageVersions = true ∨ place.isRead = false) :
    (body.claimants config).Owns state (.site target.expression)
      ⟨target.slot, state.version target.expression⟩ := by
  have ⟨known, versioned⟩ := visited_of_kept kept placed visits
  exact ⟨⟨place, placed, Visit.mem_written_of_site visits, keeps⟩, versioned, target, known, rfl⟩

/-- What is written at a visited site is its version. -/
theorem version_of_kept {place : Visit} {target : VariableSite} (placed : body.Places place)
    (visits : place.site? = some target) :
    (finish config body state outcome).version target.expression =
      state.version target.expression :=
  version_finish (visited_of_kept kept placed visits).1

/-- No two places have a version of their own in common. -/
theorem place_of_version (usedOnce : body.uses.Nodup) {place other : Visit}
    {target site : VariableSite} (placed : body.Places place) (placedOther : body.Places other)
    (visits : place.site? = some target) (visitsOther : other.site? = some site)
    (keeps : config.has .usageVersions = true ∨ place.isRead = false)
    (keepsOther : config.has .usageVersions = true ∨ other.isRead = false)
    (same : (⟨target.slot, state.version target.expression⟩ : VersionKey) =
      ⟨site.slot, state.version site.expression⟩) : place = other := by
  have owns := owns_of_kept kept placed visits keeps
  rw [same] at owns
  have expression := Owner.site.inj (kept.holds.ledger.unique _ _ _ owns
    (owns_of_kept kept placedOther visitsOther keepsOther))
  rcases placed with ⟨name, member⟩
  rcases placedOther with ⟨otherName, otherMember⟩
  refine body.place_unique usedOnce member otherMember (Visit.mem_written_of_site visits) ?_
  rw [expression]
  exact Visit.mem_written_of_site visitsOther

theorem admitted_of_kept {facts : Facts}
    (stored : (finish config body state outcome).Stores facts) : state.Admitted facts :=
  good_of_stores kept.storing
    (fun graph found facts recorded => kept.holds.ledger.live graph facts found recorded) stored

end

end Versioner

end SlotVersioning
