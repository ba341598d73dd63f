import SlotVersioning.Proofs.Phantoms.Steps
import SlotVersioning.Proofs.Rest.Endings
import SlotVersioning.Proofs.Shape.Runs

/-!
# Phantoms after runs

Facts never hold a phantom, because a phantom is no version of a site and was numbered after all
versions that the facts held before. So phantoms stay tethered over all passes, and after a
successful run every visited increment has one (`Versioner.phantoms_of_run`).
-/

namespace SlotVersioning

open Std VersionGraph RunM

/-- The version of a visited increment. -/
def Body.IncrementedAs (body : Body) (versions : ExprId → Version) (key : VersionKey) : Prop :=
  ∃ target, body.Places (.increment target) ∧ versions target.expression ≠ 0 ∧
    key = ⟨target.slot, versions target.expression⟩

/-- With usage versions, all phantoms are tethered, and belong to versions of increments. -/
structure Haunted (body : Body) (config : Config) (state : RunState) : Prop where
  accounts : Accounts body config state
  shaped : state.Shaped (body.ReadAs state.version)
  table : state.tables.phantoms.isSome = config.has .phantomIncrements
  tied : state.Tied
  incremented : ∀ owner phantom, state.tables.phantom? owner = some phantom →
    body.IncrementedAs state.version owner

/-- Facts that may be stored: they hold only what was numbered, and no phantom. -/
def RunState.Storable (state : RunState) (facts : Facts) : Prop :=
  state.Admitted facts ∧ state.Unhaunted facts

namespace RunState.Storable

variable {state before after : RunState} {facts : Facts}

theorem closed (state : RunState) : Facts.Closed state.Storable where
  empty := by
    refine ⟨.empty state, fun slot _ version member => ?_⟩
    rw [Facts.reaching_empty] at member
    exact absurd member (VersionSet.not_mem_empty version)
  union := by
    rintro left right ⟨admitted, unhaunted⟩ ⟨admittedRight, unhauntedRight⟩
    refine ⟨admitted.union admittedRight, fun slot ordinary version member => ?_⟩
    rw [Facts.reaching_union, VersionSet.mem_union] at member
    exact member.elim (unhaunted slot ordinary version) (unhauntedRight slot ordinary version)
  subset := fun _ _ storable below => ⟨storable.1.of_subset below, fun slot ordinary version member =>
    storable.2 slot ordinary version (below slot version member)⟩

/-- A phantom that is recorded later was not numbered before, so old facts do not hold it. -/
theorem advance {claimants : Claimants} (storable : before.Storable facts)
    (advances : claimants.Advances before after) : after.Storable facts := by
  refine ⟨advances.admitted storable.1, fun slot ordinary version member owner recorded => ?_⟩
  rcases advances.owned (.phantom owner) ⟨slot, version⟩ recorded with old | new
  · exact storable.2 slot ordinary version member owner old
  · exact absurd new (Nat.not_lt_of_le (storable.1 slot ordinary version member).numbered)

end RunState.Storable

namespace RunM

variable {body : Body} {config : Config}

/-- A visit leaves facts without phantoms behind: the version of its site is none. -/
private theorem act_unhaunted {site : Site} {name : NodeId} {place : Visit} {facts result : Facts}
    {before after : RunState} (usage : config.has .usageVersions = true)
    (member : place ∈ (body.course name).visits)
    (ledger : (body.claimants config).Ledger before)
    (settles : (body.claimants config).Settles place result before after)
    (storable : before.Storable facts) (run : place.act site facts before = .ok result after) :
    after.Unhaunted result := by
  have kept := (storable.advance settles.advances).2
  intro slot ordinary version reaches owner recorded
  rw [act_reaching run ledger.negative ordinary] at reaches
  unfold Visit.carry at reaches
  split at reaches
  · next target visits =>
      split at reaches
      · next same =>
          subst same
          rw [VersionSet.mem_singleton.1 reaches] at recorded
          have written := Visit.mem_written_of_site visits
          have own : (body.claimants config).Owns after (.site target.expression)
              ⟨target.slot, after.version target.expression⟩ :=
            ⟨⟨place, ⟨name, member⟩, written, .inl usage⟩, settles.versioned _ written, target,
              body.sitesIn_course name place member target visits, rfl⟩
          have haunts : (body.claimants config).Owns after (.phantom owner)
              ⟨target.slot, after.version target.expression⟩ := recorded
          exact nomatch settles.ledger.unique _ _ _ own haunts
      · exact kept slot ordinary version reaches owner recorded
  · exact kept slot ordinary version reaches owner recorded

private theorem upholds_haunted (usedOnce : body.uses.Nodup)
    (ordinary : ∀ expression target, body.arena.site? expression = some target → 0 ≤ target.slot)
    (usage : config.has .usageVersions = true) :
    Upholds { config, body } (Haunted body config) RunState.Storable Versioned := by
  have upholds := @upholds_shaped body config usedOnce ordinary usage
  refine ⟨RunState.Storable.closed, ?_, ?_⟩
  · intro live statement name place facts result before after hosts member haunted storable run
    have acts := upholds.act hosts member ⟨haunted.accounts, haunted.shaped⟩ storable.1 run
    have ledger := haunted.accounts.ledger
    have fits : (body.claimants config).Fits config place := body.fits usedOnce ordinary member
    have settles := ledger.act storable.1 fits run
    have kept (expression : ExprId) (versioned : before.version expression ≠ 0) :
        after.version expression = before.version expression := act_kept run usage versioned
    have later := haunted.shaped.mono fun key (isRead : body.ReadAs before.version key) =>
      isRead.later fun _ expression _ versioned => kept expression versioned
    have tied := ledger.act_tied storable.1 usage fits later (fun target isRead visits =>
      ⟨place, target, ⟨name, member⟩, isRead, visits,
        acts.2.2.1 _ (Visit.mem_written_of_site visits), rfl⟩) haunted.tied storable.2 run
    refine ⟨⟨acts.1.1, acts.1.2, (act_keepsBooks run).phantoms.trans haunted.table, tied,
      fun owner phantom recorded => ?_⟩,
      ⟨settles.admitted, act_unhaunted usage member ledger settles storable run⟩, acts.2.2.1,
      fun _ held => held.advance settles.advances, acts.2.2.2.marked⟩
    rcases act_phantom? run recorded with old | ⟨target, rfl, rfl⟩
    · rcases haunted.incremented owner phantom old with ⟨target, placed, versioned, rfl⟩
      have same := kept _ versioned
      exact ⟨target, placed, same ▸ versioned, by rw [same]⟩
    · exact ⟨target, ⟨name, member⟩, acts.2.2.1 _ (Visit.mem_written_of_site rfl), rfl⟩
  · intro before after beside haunted
    have acts := upholds.beside beside ⟨haunted.accounts, haunted.shaped⟩
    rcases haunted.accounts.ledger.beside beside with ⟨-, narrows⟩
    refine ⟨⟨acts.1.1, acts.1.2, (congrArg _ beside.phantoms).trans haunted.table,
      haunted.tied.of_phantoms beside.phantoms fun owner phantom _ tethers => ?_,
      fun owner phantom recorded => ?_⟩, fun _ held => held.advance narrows.advances,
      acts.2.marked⟩
    · rcases tethers with ⟨graph, stored, place, way, target, tether⟩
      rcases beside.graph graph stored with ⟨next, nextStored, similar⟩
      exact ⟨next, nextStored, place, way, target, tether.of_steady (.of_similar similar)⟩
    · rw [Tables.phantom?_congr beside.phantoms] at recorded
      rw [beside.version]
      exact haunted.incremented owner phantom recorded

end RunM

/-! ## Whole runs -/

/-- The phantoms after a run with the given version graph. -/
structure RunResult.Phantoms (result : RunResult) (body : Body) (graph : VersionGraph) : Prop where
  stored : result.versioner.tables.graph = some graph
  /-- Every visited increment has a phantom. -/
  known : ∀ target, body.Places (.increment target) → ∃ phantom,
    result.versioner.tables.phantom? ⟨target.slot, result.version target.expression⟩ = some phantom
  only : ∀ owner phantom, result.versioner.tables.phantom? owner = some phantom →
    ∃ target, body.Places (.increment target) ∧
      owner = ⟨target.slot, result.version target.expression⟩
  /-- Different increments have different versions. -/
  apart : ∀ target other, body.Places (.increment target) → body.Places (.increment other) →
    (⟨target.slot, result.version target.expression⟩ : VersionKey) =
      ⟨other.slot, result.version other.expression⟩ → target = other
  /-- Different versions have different phantoms. -/
  distinct : ∀ owner other phantom, result.versioner.tables.phantom? owner = some phantom →
    result.versioner.tables.phantom? other = some phantom → owner = other
  /-- A phantom has no predecessor, and flows into its owner and nowhere else. -/
  flows : ∀ owner phantom, result.versioner.tables.phantom? owner = some phantom →
    graph.predecessors phantom = [] ∧ graph.PhantomOf phantom owner

/-- A loop that increments a parameter twice. -/
def Body.counting : Body where
  arena.exprs := #[.variable { slot := 0 }, .increment 0 .postIncrement, .variable { slot := 0 },
    .increment 2 .preIncrement]
  graph.nodes := #[
    { kind := .direct, statement := 0, expressions := [1, 3], predecessors := [0]
      successors := [0] }]
  graph.entry := some 0
  signature := { isStatic := true, parameters := [.single] }

namespace Versioner

variable {body : Body} {config : Config}

/-- Before the first round there are no phantoms. -/
private theorem Begins.haunted {state : RunState} (begins : Begins config body state)
    (valid : config.validate = .ok ()) (usage : config.has .usageVersions = true) :
    Kept { config, body } (Haunted body config) RunState.Storable Versioned 0 state := by
  have kept : Kept { config, body } (Accounts body config) RunState.Admitted Versioned 0 state :=
    begins.entering.kept
  have fresh : state.tables.phantoms = if config.has .phantomIncrements then some ∅ else none :=
    begins.books.phantoms
  have nothing (owner phantom : VersionKey) : state.tables.phantom? owner ≠ some phantom := by
    unfold Tables.phantom?
    rw [fresh]
    split
    · rw [Option.bind_some, ExtTreeMap.getElem?_empty]
      exact nofun
    · exact nofun
  refine ⟨⟨kept.holds, begins.shaped valid usage _, ?_,
    fun owner phantom recorded => absurd recorded (nothing owner phantom),
    fun owner phantom recorded => absurd recorded (nothing owner phantom)⟩,
    kept.storing.imp fun _ admitted => ⟨admitted, fun _ _ _ _ owner => nothing owner _⟩,
    kept.visited⟩
  rw [fresh]
  cases config.has .phantomIncrements <;> rfl

/-- After a successful run with usage versions and phantoms, every visited increment has a phantom
of its own, which flows into its version through one phi input, however often that version was wired
anew, and nowhere else. -/
theorem phantoms_of_run {versioner : Versioner} (valid : versioner.config.validate = .ok ())
    (usage : versioner.config.has .usageVersions = true)
    (haunts : versioner.config.has .phantomIncrements = true) (usedOnce : body.uses.Nodup)
    (ordinary : ∀ expression target, body.arena.site? expression = some target → 0 ≤ target.slot)
    (success : (versioner.run body).outcome = .ok ()) :
    ∃ graph, (versioner.run body).Phantoms body graph := by
  have upholds := upholds_haunted usedOnce ordinary usage
  rcases reposing_of_run valid usedOnce ordinary upholds.carries
    (fun _ begins => begins.haunted valid usage) success with ⟨final, result, reposing, kept⟩
  rcases kept.holds.shaped with ⟨graph, stored, shaped⟩
  have accounted := reposing.kept.imp Composed.accounts
  have ledger := accounted.holds.ledger
  rw [result]
  refine ⟨graph, stored, ?_, ?_, ?_, ?_, ?_⟩
  · intro target placed
    rcases reposing.rests_at placed with ⟨reaching, rests⟩
    rw [version_of_kept accounted placed rfl]
    exact Option.isSome_iff_exists.1 (rests.phantom target rfl (kept.holds.table.trans haunts))
  · intro owner phantom recorded
    rcases kept.holds.incremented owner phantom recorded with ⟨target, placed, -, rfl⟩
    exact ⟨target, placed, by rw [version_of_kept accounted placed rfl]⟩
  · intro target other placed placedOther same
    rw [version_of_kept accounted placed rfl, version_of_kept accounted placedOther rfl] at same
    have once := place_of_version accounted usedOnce placed placedOther rfl rfl (.inl usage)
      (.inl usage) same
    cases once
    rfl
  · intro owner other phantom recorded recordedOther
    exact Owner.phantom.inj (ledger.unique (.phantom owner) (.phantom other) phantom recorded
      recordedOther)
  · intro owner phantom recorded
    have owns : (body.claimants versioner.config).Owns final (.phantom owner) phantom := recorded
    rcases kept.holds.tied owner phantom recorded with ⟨_, found, tethers⟩
    rw [stored] at found
    cases found
    exact ⟨unlisted_of_owns accounted usage shaped owns stored (fun _ => Owner.noConfusion)
      (fun _ _ _ _ _ => Owner.noConfusion), tethers.phantomOf shaped⟩

theorem phantoms_counting :
    Config.usage.versioner.config.validate = .ok () ∧
      Config.usage.versioner.config.has .usageVersions = true ∧
      Config.usage.versioner.config.has .phantomIncrements = true ∧
      Body.counting.uses.Nodup ∧ (Config.usage.versioner.run .counting).outcome = .ok () ∧
      ∃ graph, (Config.usage.versioner.run .counting).Phantoms .counting graph := by
  have valid : Config.usage.versioner.config.validate = .ok () := by decide
  have usage : Config.usage.versioner.config.has .usageVersions = true := by decide
  have haunts : Config.usage.versioner.config.has .phantomIncrements = true := by decide
  have usedOnce : Body.counting.uses.Nodup := by decide
  have success : (Config.usage.versioner.run .counting).outcome = .ok () := by decide +kernel
  exact ⟨valid, usage, haunts, usedOnce, success,
    phantoms_of_run valid usage haunts usedOnce (Body.ordinary_of_all rfl) success⟩

/-- The first increment is wired anew when the second one comes around; its phantom stays. -/
example : (Config.usage.versioner.run .counting).versioner.tables.graph.map
    (·.contributors ⟨0, 2⟩) = some [⟨0, 1⟩, ⟨0, 3⟩, ⟨0, 6⟩] := by decide +kernel

end Versioner

end SlotVersioning
