import SlotVersioning.Proofs.Graph.Keyed
import SlotVersioning.Proofs.Ownership.Runs
import SlotVersioning.Proofs.Shape.Steps
import SlotVersioning.Proofs.Trace.Survey

/-!
# Shapes after runs

After a successful run with usage versions the nodes of a variable are its versions, and the graph
has the shape of usage versions (`graphs_of_run`). Only versions of reads and phi inputs have
predecessors, because a version has one owner.
-/

namespace SlotVersioning

open Std VersionGraph RunM

/-! ## The versions of reads -/

/-- The version of a visited read. -/
def Body.ReadAs (body : Body) (versions : ExprId → Version) (key : VersionKey) : Prop :=
  ∃ place target, body.Places place ∧ place.isRead = true ∧ place.site? = some target ∧
    versions target.expression ≠ 0 ∧ key = ⟨target.slot, versions target.expression⟩

theorem Body.ReadAs.later {body : Body} {before after : ExprId → Version} {key : VersionKey}
    (isRead : body.ReadAs before key)
    (kept : ∀ name, ∀ expression ∈ (body.course name).sites, before expression ≠ 0 →
      after expression = before expression) :
    body.ReadAs after key := by
  rcases isRead with ⟨place, target, ⟨name, member⟩, reads, visits, versioned, rfl⟩
  have same := kept name _ (Course.mem_sites_of_visit member visits) versioned
  have placed : body.Places place := ⟨name, member⟩
  exact ⟨place, target, placed, reads, visits, same ▸ versioned, by rw [same]⟩

namespace RunState.Shaped

variable {state final : RunState} {reads others : VersionKey → Prop}

theorem mono (shaped : state.Shaped reads) (wider : ∀ key, reads key → others key) :
    state.Shaped others := by
  rcases shaped with ⟨graph, stored, shaped⟩
  exact ⟨graph, stored, shaped.mono wider⟩

private theorem beside (shaped : state.Shaped reads) (beside : Beside state final) :
    final.Shaped reads := by
  rcases shaped with ⟨graph, stored, shaped⟩
  rcases beside.graph graph stored with ⟨next, nextStored, similar⟩
  refine ⟨next, nextStored, ?_⟩
  rw [beside.last]
  exact shaped.of_similar similar

end RunState.Shaped

/-! ## Runs keep shapes -/

section

variable {body : Body} {config : Config}

theorem upholds_shaped (usedOnce : body.uses.Nodup)
    (ordinary : ∀ expression target, body.arena.site? expression = some target → 0 ≤ target.slot)
    (usage : config.has .usageVersions = true) :
    Upholds { config, body }
      (fun state => Accounts body config state ∧ state.Shaped (body.ReadAs state.version))
      RunState.Admitted Versioned := by
  have upholds := @upholds_accounts body config usedOnce ordinary
  refine ⟨upholds.closed, ?_, ?_⟩
  · rintro live statement name place facts result before after hosts member ⟨accounts, shaped⟩
      admitted run
    have acts := upholds.act hosts member accounts admitted run
    have later := shaped.mono fun key (isRead : body.ReadAs before.version key) =>
      isRead.later fun _ expression _ versioned => act_kept run usage versioned
    refine ⟨⟨acts.1, accounts.ledger.act_shaped admitted usage (body.fits usedOnce ordinary member)
      later (fun target isRead visits => ?_) run⟩, acts.2⟩
    exact ⟨place, target, ⟨name, member⟩, isRead, visits,
      acts.2.2.1 _ (Visit.mem_written_of_site visits), rfl⟩
  · rintro before after beside ⟨accounts, shaped⟩
    have kept := upholds.beside beside accounts
    have same := beside.version
    refine ⟨⟨kept.1, ?_⟩, kept.2⟩
    rw [same]
    exact shaped.beside beside

/-! ## Seeds -/

private theorem Versioner.shaped_start (valid : config.validate = .ok ())
    (usage : config.has .usageVersions = true) (reads : VersionKey → Prop) :
    (start config body).Shaped reads := by
  refine ⟨{}, if_pos (Config.has_versionGraph valid usage), sound_empty, ?_,
    (fun way key found => nomatch found), (fun node key origin found => nomatch found),
    (fun node key origin found => nomatch found), ?_⟩
  · intro slot version ordinary
    have none : (start config body).last slot = 0 := ExtTreeMap.getD_empty
    rw [none]
    constructor
    · rintro ⟨origin, position, found⟩
      exact nomatch found
    · exact fun bounds => absurd (Nat.le_trans bounds.1 bounds.2) (Nat.not_succ_le_zero 0)
  · rintro key ⟨position, found⟩
    exact nomatch found

private theorem RunM.preserves_shaped (context : Context) (entry : NodeId)
    (reads : VersionKey → Prop) : Preserves (RunState.Shaped · reads) (seeding context entry) := by
  refine preserves_seeding (fun _ _ => True) (fun _ _ => True.intro) ?_ ?_ entry
  · rintro statement facts slot state value final ⟨graph, stored, shaped⟩ - run
    cases run
    have learns := learns_mint state context.body.statements slot (some statement)
    exact ⟨⟨_, congrArg (Option.map _) stored, shaped.ensure none (by decide)
      (fun field => nomatch field) learns⟩, True.intro⟩
  · rintro node facts state final shaped - run
    cases run
    exact shaped

theorem Versioner.Begins.shaped {state : RunState} (begins : Begins config body state)
    (valid : config.validate = .ok ()) (usage : config.has .usageVersions = true)
    (reads : VersionKey → Prop) : state.Shaped reads := by
  cases begins with
  | bare noEntry => exact shaped_start valid usage reads
  | seeded isEntry seeds =>
      exact preserves_shaped _ _ reads _ _ _ (shaped_start valid usage reads) seeds

end

/-! ## Whole runs -/

/-- The version graph after a run with usage versions. The nodes of a variable are its versions, and
what was not read has no predecessors. -/
structure RunResult.Graphs (result : RunResult) (body : Body) (graph : VersionGraph) : Prop
    extends graph.WellShaped where
  stored : result.versioner.tables.graph = some graph
  nodes : ∀ slot, 0 ≤ slot → ∀ version, ⟨slot, version⟩ ∈ graph.keys ↔ result.Numbers slot version
  recorded : ∀ facts, result.Stores facts → ∀ slot, 0 ≤ slot →
    ∀ version ∈ facts.reaching slot, ⟨slot, version⟩ ∈ graph.keys
  seeds : ∀ index key, result.Owns body (.seed index) key → graph.predecessors key = []
  definitions : ∀ place target, body.Places place → place.site? = some target →
    place.isRead = false →
      graph.predecessors ⟨target.slot, result.version target.expression⟩ = []
  phantoms : ∀ key phantom, result.versioner.tables.phantom? key = some phantom →
    graph.predecessors phantom = []
  fields : ∀ key, graph.origin? key = some .field → graph.predecessors key = []

namespace Versioner

section

variable {body : Body} {config : Config} {state : RunState} {graph : VersionGraph}

/-- A version that belongs neither to a phi input nor to a read has no predecessors. -/
theorem unlisted_of_owns
    (kept : Kept { config, body } (Accounts body config) RunState.Admitted Versioned
      body.graph.size state)
    (usage : config.has .usageVersions = true)
    (shaped : graph.Shaped state.last (body.ReadAs state.version)) {owner : Owner}
    {key : VersionKey} (owns : (body.claimants config).Owns state owner key)
    (stored : state.tables.graph = some graph) (plain : ∀ input, owner ≠ .input input)
    (unread : ∀ place target, body.Places place → place.isRead = true →
      place.site? = some target → owner ≠ .site target.expression) :
    graph.predecessors key = [] := by
  by_contra listed
  rcases shaped.sound.consistent.identity_of_listed (.inl listed) with ⟨position, origin, found⟩
  rw [(shaped.sound.listed_at found).1] at listed
  have linked : graph.predecessorsAt position ≠ [] := by
    intro nothing
    rw [nothing] at listed
    exact listed rfl
  have unique := kept.holds.ledger.unique owner
  rcases (shaped.wired position key origin found linked).2 with rfl | isRead
  · exact plain key (unique _ key owns ⟨rfl, graph, stored, position, found⟩)
  · rcases isRead with ⟨place, target, placed, reads, visits, -, rfl⟩
    exact unread place target placed reads visits
      (unique _ _ owns (owns_of_kept kept placed visits (.inl usage)))

end

/-- After a successful run with usage versions, the graph has the shape of usage versions. -/
theorem graphs_of_run {versioner : Versioner} {body : Body}
    (valid : versioner.config.validate = .ok ())
    (usage : versioner.config.has .usageVersions = true) (usedOnce : body.uses.Nodup)
    (ordinary : ∀ expression target, body.arena.site? expression = some target → 0 ≤ target.slot)
    (success : (versioner.run body).outcome = .ok ()) :
    ∃ graph, (versioner.run body).Graphs body graph := by
  rcases upheld_of_run (upholds_shaped usedOnce ordinary usage) (fun state begins =>
      begins.entering.kept.imp fun accounts => ⟨accounts, begins.shaped valid usage _⟩)
    success with ⟨final, result, both⟩
  rcases both.holds.2 with ⟨graph, stored, shaped⟩
  have kept := both.imp And.left
  have nodes (slot : Slot) (version : Version) (ordinary : 0 ≤ slot) :
      ⟨slot, version⟩ ∈ graph.keys ↔ 1 ≤ version ∧ version ≤ final.last slot :=
    mem_keys.trans (shaped.complete slot version ordinary)
  rw [result]
  refine ⟨graph, shaped.wellShaped, stored, ?_, ?_, ?_, ?_, ?_, ?_⟩
  · intro slot ordinary version
    rw [nodes slot version ordinary, numbers_finish]
  · intro facts found slot ordinary version member
    have admits := admitted_of_kept kept found slot ordinary version member
    exact (nodes slot version ordinary).2 ⟨admits.positive, admits.numbered⟩
  · intro index key owns
    exact unlisted_of_owns kept usage shaped (owns_finish.1 owns) stored
      (fun _ => Owner.noConfusion) (fun _ _ _ _ _ => Owner.noConfusion)
  · intro place target placed visits defines
    rw [version_of_kept kept placed visits]
    refine unlisted_of_owns kept usage shaped (owns_of_kept kept placed visits (.inl usage)) stored
      (fun _ => Owner.noConfusion) fun other read otherPlaced reads otherVisits same => ?_
    -- An expression is visited at one place only.
    have same : target.expression = read.expression := Owner.site.inj same
    rcases placed with ⟨name, member⟩
    rcases otherPlaced with ⟨otherName, otherMember⟩
    have once := body.place_unique usedOnce member otherMember (Visit.mem_written_of_site visits)
      (same ▸ Visit.mem_written_of_site otherVisits)
    exact Bool.false_ne_true (defines.symm.trans (once ▸ reads))
  · intro key phantom found
    have owns : (body.claimants versioner.config).Owns final (.phantom key) phantom := found
    exact unlisted_of_owns kept usage shaped owns stored (fun _ => Owner.noConfusion)
      (fun _ _ _ _ _ => Owner.noConfusion)
  · intro key isField
    rcases shaped.sound.has_of_origin isField with ⟨position, found⟩
    have negative := shaped.fields key ⟨position, found⟩
    rw [(shaped.sound.listed_at found).1]
    by_cases linked : graph.predecessorsAt position = []
    · rw [linked]
      rfl
    · exact absurd negative (Int.not_lt.2 (shaped.wired position key .field found linked).1)

end Versioner

namespace Body

/-- A loop that reads a variable, and then reads it in both branches of a choice. -/
def orbiting : Body where
  arena.exprs := #[.variable { slot := 0 }, .literal .null, .variable { slot := 0 },
    .variable { slot := 0 }, .ternary 1 2 3]
  graph.nodes := #[
    { kind := .direct, statement := 0, expressions := [0], predecessors := [1], successors := [1] },
    { kind := .direct, statement := 0, expressions := [4], predecessors := [0], successors := [0] }]
  graph.entry := some 0
  signature.isStatic := true

private theorem built_orbiting : orbiting.graph.Built := by
  have nodes : FlowGraph.Built _ := (FlowGraph.Built.empty.addNode .direct 0).addNode .direct 0
  have reading := @FlowGraph.Built.appendExpression _ _ nodes 0 0 rfl
  have choosing := @FlowGraph.Built.appendExpression _ _ reading 1 4 rfl
  have onward := @FlowGraph.Built.connect _ _ choosing 0 1 rfl
  exact @FlowGraph.Built.connect _ _ onward 1 0 rfl

theorem regular_orbiting : orbiting.Regular where
  built := built_orbiting
  usedOnce := by decide
  ordinary := ordinary_of_all rfl
  noShortPaths := fun _ => ExtTreeMap.getElem?_empty
  noExtraNodes := fun _ => ExtTreeSet.contains_empty

end Body

namespace Versioner

theorem success_orbiting : (Config.usage.versioner.run .orbiting).outcome = .ok () := by
  decide +kernel

/-- The read that defined the variable merges the other reads in the end. -/
theorem merged_orbiting : (Config.usage.versioner.run .orbiting).versioner.tables.graph.map
    (fun graph => (graph.origin? ⟨0, 1⟩, graph.contributors ⟨0, 1⟩)) =
      some (some .definition, [⟨0, 2⟩, ⟨0, 3⟩]) := by
  decide +kernel

/-- What `graphs_of_run` says of `orbiting`, where phi inputs lead to the first version. -/
theorem graphs_orbiting :
    ∃ graph, (Config.usage.versioner.run .orbiting).Graphs .orbiting graph ∧
      graph.contributors ⟨0, 1⟩ = [⟨0, 2⟩, ⟨0, 3⟩] := by
  rcases graphs_of_run (show Config.usage.versioner.config.validate = .ok () from rfl)
      (show Config.usage.versioner.config.has _ = true from rfl) Body.regular_orbiting.usedOnce
      Body.regular_orbiting.ordinary success_orbiting with ⟨graph, graphs⟩
  have merged := merged_orbiting
  rw [graphs.stored] at merged
  exact ⟨graph, graphs, (Prod.mk.inj (Option.some.inj merged)).2⟩

end Versioner

end SlotVersioning
