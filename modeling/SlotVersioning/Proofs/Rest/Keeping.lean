import SlotVersioning.Proofs.Rest.Reads
import SlotVersioning.Proofs.Rest.Visits
import SlotVersioning.Proofs.Shape.Runs

/-!
# Coming to rest

A visit leaves its place at rest (`Composed.act_rests`), and it disturbs no place whose sites it does
not write (`Composed.act_undisturbed`): versions have one owner, so it neither records copies nor
gathers anything under the version of another place.
-/

namespace SlotVersioning

open Std VersionGraph RunM

/-- The versions are accounted for, and with usage versions the version graph is shaped. -/
structure Composed (body : Body) (config : Config) (state : RunState) : Prop where
  accounts : Accounts body config state
  shaped : config.has .usageVersions = true → state.Shaped (body.ReadAs state.version)

/-- The versions of the variable of a place that these facts let reach it. -/
def Visit.reached (facts : Facts) (place : Visit) : VersionSet :=
  (place.site?.map fun target => facts.reaching target.slot).getD ∅

theorem Visit.reached_of_site {place : Visit} {target : VariableSite} (facts : Facts)
    (visits : place.site? = some target) : place.reached facts = facts.reaching target.slot := by
  rw [reached, visits]
  rfl

theorem upholds_composed {body : Body} (config : Config) (usedOnce : body.uses.Nodup)
    (ordinary : ∀ expression target, body.arena.site? expression = some target → 0 ≤ target.slot) :
    Upholds { config, body } (Composed body config) RunState.Admitted Versioned := by
  have upholds := @upholds_accounts body config usedOnce ordinary
  refine ⟨upholds.closed, ?_, ?_⟩
  · intro live statement name place facts result before after hosts member composed admitted run
    have acts := upholds.act hosts member composed.accounts admitted run
    refine ⟨⟨acts.1, fun usage => ?_⟩, acts.2⟩
    have shaped := upholds_shaped usedOnce ordinary usage
    exact (shaped.act hosts member ⟨composed.accounts, composed.shaped usage⟩ admitted run).1.2
  · intro before after beside composed
    have kept := upholds.beside beside composed.accounts
    refine ⟨⟨kept.1, fun usage => ?_⟩, kept.2⟩
    have shaped := upholds_shaped usedOnce ordinary usage
    exact (shaped.beside beside ⟨composed.accounts, composed.shaped usage⟩).1.2

private theorem VersionGraph.Shaped.charted {state : RunState} {graph : VersionGraph}
    {reads : VersionKey → Prop} (shaped : graph.Shaped state.last reads)
    (stored : state.tables.graph = some graph) : Charted state graph where
  stored := stored
  sound := shaped.sound
  numbered := fun key origin has ordinary =>
    ((shaped.complete key.slot key.version ordinary).1 ⟨origin, has⟩).2

namespace Composed

variable {body : Body} {config : Config} {state before after final : RunState} {name : NodeId}
  {place actor : Visit} {facts result : Facts} {live : Bool} {statement : StatementId}

theorem shapedFor (composed : Composed body config state) : state.ShapedFor config :=
  fun usage => ⟨_, composed.shaped usage⟩

/-- Merged versions own themselves, so they were numbered. -/
private theorem numbered (composed : Composed body config state) : state.Numbered := by
  intro key sources found
  have owns : (body.claimants config).Owns state (.merged key) key := ⟨rfl, by rw [found]; rfl⟩
  exact (composed.accounts.ledger.numbered _ key owns).2

/-- A place that owns its version has no version in common with another one that does. -/
theorem apart (composed : Composed body config state) (versioned : Versioned state place)
    (actorVersioned : Versioned state actor) {other : NodeId}
    (member : place ∈ (body.course name).visits) (actorMember : actor ∈ (body.course other).visits)
    {target actorTarget : VariableSite} (visits : place.site? = some target)
    (actorVisits : actor.site? = some actorTarget)
    (different : target.expression ≠ actorTarget.expression)
    (keeps : config.has .usageVersions = true ∨ place.isRead = false)
    (actorKeeps : config.has .usageVersions = true ∨ actor.isRead = false) :
    (⟨target.slot, state.version target.expression⟩ : VersionKey) ≠
      ⟨actorTarget.slot, state.version actorTarget.expression⟩ := by
  have owns {node : NodeId} {place : Visit} {target : VariableSite}
      (member : place ∈ (body.course node).visits) (visits : place.site? = some target)
      (versioned : Versioned state place)
      (keeps : config.has .usageVersions = true ∨ place.isRead = false) :
      (body.claimants config).Owns state (.site target.expression)
        ⟨target.slot, state.version target.expression⟩ :=
    ⟨⟨place, ⟨node, member⟩, Visit.mem_written_of_site visits, keeps⟩,
      versioned _ (Visit.mem_written_of_site visits), target,
      body.sitesIn_course node place member target visits, rfl⟩
  intro same
  have actorOwns := owns actorMember actorVisits actorVersioned actorKeeps
  rw [← same] at actorOwns
  exact different (Owner.site.inj
    (composed.accounts.ledger.unique _ _ _ (owns member visits versioned keeps) actorOwns))

section

variable (composed : Composed body config before)
  (ordinary : ∀ expression target, body.arena.site? expression = some target → 0 ≤ target.slot)
  (admitted : before.Admitted facts) (actorMember : actor ∈ (body.course name).visits)
  (run : actor.act ({ config, body : Context }.site statement live) facts before =
    .ok result after)

include composed ordinary admitted actorMember run

/-- With usage versions a visit gathers what reaches it, and others go on gathering. -/
theorem act_gathers (usage : config.has .usageVersions = true) :
    (∀ other reaching, (∀ target, actor.site? = some target →
        other ≠ ⟨target.slot, after.version target.expression⟩) →
      before.Gathers other reaching → after.Gathers other reaching) ∧
    (∀ target, actor.site? = some target → actor.isRead = true →
      2 ≤ (facts.reaching target.slot).cardinality →
        after.Gathers ⟨target.slot, after.version target.expression⟩
          (facts.reaching target.slot)) := by
  rcases composed.shaped usage with ⟨graph, stored, shaped⟩
  have ordinarySite (target : VariableSite) (visits : actor.site? = some target) :
      body.arena.site? target.expression = some target ∧ 0 ≤ target.slot :=
    have known := body.sitesIn_course name actor actorMember target visits
    ⟨known, ordinary _ _ known⟩
  refine RunM.act_gathers run usage composed.accounts.ledger.negative (shaped.charted stored)
    (fun target visits => (ordinarySite target visits).2) ?_ ?_
  · intro target visits version member
    have positive := (ordinarySite target visits).2
    exact shaped.plain_of_admits stored positive (admitted target.slot positive version member)
  · intro target visits versioned
    rcases ordinarySite target visits with ⟨known, positive⟩
    exact shaped.plain_of_admits stored positive
      (composed.accounts.ledger.written _ target known versioned)

variable (usedOnce : body.uses.Nodup) (hosts : body.Hosts name statement)

include usedOnce hosts

/-- A visit disturbs no place whose sites it does not write. -/
theorem act_undisturbed {other : NodeId} (member : place ∈ (body.course other).visits)
    (versioned : Versioned before place)
    (untouched : ∀ expression ∈ place.touched, expression ∉ actor.written) :
    place.Undisturbed config before after := by
  have acts := (upholds_composed config usedOnce ordinary).act hosts actorMember composed admitted run
  have kept (target : VariableSite) (visits : place.site? = some target) :
      after.version target.expression = before.version target.expression :=
    (act_frame run).version _ (untouched _
      (List.mem_append_left _ (Visit.mem_written_of_site visits)))
  have apart {target actorTarget : VariableSite} (visits : place.site? = some target)
      (actorVisits : actor.site? = some actorTarget)
      (keeps : config.has .usageVersions = true ∨ place.isRead = false)
      (actorKeeps : config.has .usageVersions = true ∨ actor.isRead = false) :
      (⟨target.slot, before.version target.expression⟩ : VersionKey) ≠
        ⟨actorTarget.slot, after.version actorTarget.expression⟩ := by
    rw [← kept target visits]
    refine acts.1.apart (acts.2.2.2.marked place versioned) acts.2.2.1 member actorMember visits
      actorVisits (fun same => ?_) keeps actorKeeps
    apply untouched target.expression (List.mem_append_left _ (Visit.mem_written_of_site visits))
    rw [same]
    exact Visit.mem_written_of_site actorVisits
  refine ⟨fun expression touches => (act_frame run).version expression (untouched expression touches),
    (act_grows run composed.numbered).1, act_keepsBooks run, act_keepsFields run, ?_, ?_⟩
  · intro usage target visits reaching gathers
    exact (composed.act_gathers ordinary admitted actorMember run usage).1 _ reaching
      (fun actorTarget actorVisits => apart visits actorVisits (.inl usage) (.inl usage)) gathers
  · rintro target value rfl
    exact act_copy? run fun actorTarget actorVisits writes =>
      apart rfl actorVisits (.inr rfl) (.inr writes)

/-- A visit leaves its place at rest, when the fields that it needs have slots. -/
theorem act_rests (recorded : config.has .fieldVersions = true → before.tables.fields.isSome)
    (named : ∀ expression, .field expression ∈ actor.needs →
      config.has .fieldVersions = true → (before.fieldSlot? expression).isSome) :
    actor.Rests config (actor.reached facts) after := by
  have acts := (upholds_composed config usedOnce ordinary).act hosts actorMember composed admitted run
  refine ⟨acts.2.2.1, fun target visits => ?_, fun usage reads target visits several => ?_, ?_, ?_, ?_⟩
  · rw [Visit.reached_of_site facts visits]
    exact act_stable run visits
  · rw [Visit.reached_of_site facts visits] at several ⊢
    exact (composed.act_gathers ordinary admitted actorMember run usage).2 target visits
      reads several
  · rintro target rfl on
    cases act_ok run with
    | increment reading increases => exact (incrementVariable_books increases).2.2 on
  · rintro target value rfl on source found
    cases act_ok run with
    | assign definition copy =>
        exact recordCopy_copied copy on found
  · intro expression member versioned
    rcases List.mem_cons.1 member with rfl | needed
    · dsimp only [Visit.act] at run
      rw [if_pos (show ({ config, body : Context }.site statement live).config.has .fieldVersions =
        true from versioned)] at run
      rcases bind_ok run with ⟨slot, middle, request, run⟩
      rcases pure_ok run with ⟨-, rfl⟩
      rw [slotOfField_given request (recorded versioned)]
      rfl
    · rcases Option.isSome_iff_exists.1 (named expression needed versioned) with ⟨slot, given⟩
      rw [(act_keepsFields run).fieldSlot expression slot given]
      rfl

end

end Composed

end SlotVersioning
