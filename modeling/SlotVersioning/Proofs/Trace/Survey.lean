import SlotVersioning.Proofs.Pass.Growing
import SlotVersioning.Proofs.Run.Drawing
import SlotVersioning.Proofs.Trace.Usage

/-!
# The version graph of a run

With usage versions the version graph records, for every visited node, what reaches the visits of
its course (`Mapped`). This is an invariant of the run, because the facts of variables only grow and
are justified by paths (`Surveyed`).
-/

namespace SlotVersioning

open Std

/-- The version graph records all visits at the nodes that were visited, and the seeds. -/
structure Mapped (context : Context) (state : RunState) (graph : VersionGraph) : Prop where
  charted : Charted state graph
  distinct : Distinct context.body.arena state
  untouched : ∀ name : NodeId, state.tables.inFacts[name]? = none →
    ∀ expression ∈ (context.body.course name).sites, state.version expression = 0
  seeds : ∀ (node : NodeId) (slot : Slot), 0 ≤ slot →
    ∀ version ∈ state.tables.seeded node slot, graph.Owns ⟨slot, version⟩
  drawn : ∀ (name : NodeId) (facts : Facts), state.tables.inFacts[name]? = some facts →
    ∀ slot : Slot, 0 ≤ slot →
      ∀ arrival ∈ (context.body.course name).arrivals state.version slot (facts.reaching slot),
        ∀ target, arrival.1.site? = some target → target.slot = slot →
          Drawn graph arrival.1.isRead ⟨slot, state.version target.expression⟩ arrival.2

namespace Mapped

variable {context : Context} {state : RunState} {graph : VersionGraph}

/-- A site with a version has a node for it. -/
theorem owns_site (mapped : Mapped context state graph) (regular : context.body.Regular)
    {name : NodeId} {place : Visit} (inCourse : place ∈ (context.body.course name).visits)
    {target : VariableSite} (visits : place.site? = some target)
    (versioned : state.version target.expression ≠ 0) :
    graph.Owns ⟨target.slot, state.version target.expression⟩ := by
  have ordinary := regular.ordinary_of_visit inCourse visits
  cases entering : state.tables.inFacts[name]? with
  | none =>
      refine absurd (mapped.untouched name entering _ ?_) versioned
      exact Course.mem_sites_of_visit inCourse visits
  | some facts =>
      rcases Course.exists_arrival inCourse (facts.reaching target.slot) with ⟨arriving, arrives⟩
      exact (mapped.drawn name facts entering target.slot ordinary _ arrives target visits
        rfl).owns

/-- A version that a path brings has a node. -/
private theorem owns_justified (mapped : Mapped context state graph)
    (regular : context.body.Regular) {slot : Slot} (ordinary : 0 ≤ slot) {version : Version}
    {node : NodeId}
    (justified : context.body.Justified state.version state.tables.seeded slot version node) :
    graph.Owns ⟨slot, version⟩ := by
  rcases justified with ⟨start, visits, path, ⟨seed, -⟩ | ⟨positive, brought⟩⟩
  · exact mapped.seeds start slot ordinary version seed
  · rcases brought with ⟨target, earlier, place, later, rfl, found, rfl, rfl, -⟩
    rcases path.visits_mem (List.mem_append_right _ List.mem_cons_self) with ⟨name, inCourse⟩
    exact mapped.owns_site regular inCourse found positive

end Mapped

/-! ## Visits of nodes -/

namespace RunM

variable {context : Context} {live : Bool} {dirty : DirtyNodes} {node : FlowNode} {name : NodeId}
  {facts : Facts} {log : List (Visit × Facts)} {outcome : OutcomeFacts} {changed : Bool}
  {before middle after : RunState} {graph : VersionGraph}

namespace Visited

variable (visited : Visited context live node name facts log outcome changed before middle after)

include visited

theorem place_mem {entry : Visit × Facts} (member : entry ∈ log) :
    entry.1 ∈ (context.body.course name).visits := by
  rw [← visited.done.visits]
  exact List.mem_map_of_mem member

/-- What enters a visited node has nodes in the graph. -/
private theorem owns_entering (mapped : Mapped context before graph)
    (regular : context.body.Regular) (usage : context.config.has .usageVersions = true)
    (settling : Settling context dirty before) (justified : AllJustified context.body before)
    {slot : Slot} (ordinary : 0 ≤ slot) :
    ∀ version ∈ facts.reaching slot, graph.Owns ⟨slot, version⟩ := by
  intro version member
  rcases (visited.joins slot version).1 member with ⟨source, edge, brings⟩ | seed
  · exact mapped.owns_justified regular ordinary
      (justified_of_brought regular usage settling justified edge ordinary brings)
  · exact mapped.seeds name slot ordinary version seed

/-- The visits of a node are ready to be performed. -/
private theorem ready (mapped : Mapped context before graph) (regular : context.body.Regular)
    (usage : context.config.has .usageVersions = true) (settling : Settling context dirty before)
    (justified : AllJustified context.body before) (growing : Growing context before) :
    Ready context.body.arena log middle.version (entered before name facts) graph := by
  have inArena {entry : Visit × Facts} (member : entry ∈ log) {target : VariableSite}
      (visits : entry.1.site? = some target) :=
    context.body.sitesIn_course name entry.1 (visited.place_mem member) target visits
  refine ⟨fun entry member target visits =>
    ⟨inArena member visits, regular.ordinary_of_visit (visited.place_mem member) visits⟩, ?_, ?_⟩
  · intro earlier entry later split target visits version reaches
    have member : entry ∈ log := split ▸ List.mem_append_right _ List.mem_cons_self
    have ordinary := regular.ordinary_of_visit (visited.place_mem member) visits
    have arrivals := visited.done.arrivals target.slot ordinary
    rw [split, List.map_append, List.map_cons] at arrivals
    rcases Course.written_of_arrival arrivals.symm reaches with enters | writes
    · exact .inl (visited.owns_entering mapped regular usage settling justified ordinary version
        enters)
    · rcases writes with ⟨place, inside, site, found, slot, written⟩
      rw [List.map_map] at inside
      rcases List.mem_map.1 inside with ⟨other, earlierMember, rfl⟩
      exact .inr ⟨other, earlierMember, site, found, slot, written⟩
  · intro entry member target visits versioned
    have inCourse := visited.place_mem member
    have ordinary := regular.ordinary_of_visit (visited.place_mem member) visits
    cases entering : before.tables.inFacts[name]? with
    | none =>
        refine absurd (mapped.untouched name entering _ ?_) versioned
        exact Course.mem_sites_of_visit inCourse visits
    | some stored =>
        have arrives : (entry.1, entry.2.reaching target.slot) ∈
            (context.body.course name).arrivals before.version target.slot
              (facts.reaching target.slot) := by
          rw [Course.arrivals_congr (visited.version_again regular settling usage entering),
            funext visited.version_after, ← visited.done.arrivals target.slot ordinary]
          exact List.mem_map_of_mem member
        rcases Course.arrivals_mono (visited.growing_entering growing entering ordinary) arrives
          with ⟨earlier, arrived, subset⟩
        exact ⟨earlier, mapped.drawn name stored entering target.slot ordinary _ arrived target
          visits rfl, subset⟩

/-- A visit of a node keeps the graph up to date. -/
private theorem mapped (mapped : Mapped context before graph) (regular : context.body.Regular)
    (usage : context.config.has .usageVersions = true) (settling : Settling context dirty before)
    (justified : AllJustified context.body before) (growing : Growing context before) :
    ∃ next, Mapped context after next := by
  have single : ((log.map Prod.fst).flatMap Visit.written).Nodup := by
    rw [visited.done.visits]
    exact regular.unshared.nodup_sites name
  have charted : Charted (entered before name facts) graph :=
    mapped.charted.of_last rfl fun _ => Nat.le_refl _
  have distinct : Distinct context.body.arena (entered before name facts) :=
    mapped.distinct.of_same (fun _ => rfl) fun _ => Nat.le_refl _
  rcases visited.done.performs.draws usage single
    ⟨settling.fields.next, settling.fields.given⟩ charted distinct
    (visited.ready mapped regular usage settling justified growing) with
    ⟨next, chartedMiddle, distinctMiddle, draws⟩
  have elsewhere {other : NodeId} (different : other ≠ name) :
      ∀ expression ∈ (context.body.course other).sites,
        after.version expression = before.version expression :=
    fun expression member =>
      visited.version_other (regular.unshared.sites_apart different expression member)
  refine ⟨next, ?_, ?_, ?_, ?_, ?_⟩
  · refine chartedMiddle.of_last ?_ fun slot => Nat.le_of_eq (visited.last_after slot).symm
    rw [visited.left.tables]
  · exact distinctMiddle.of_same visited.version_after fun slot =>
      Nat.le_of_eq (visited.last_after slot).symm
  · intro other absent expression member
    rcases visited.ne_of_unvisited absent with ⟨different, unvisited⟩
    rw [elsewhere different expression member]
    exact mapped.untouched other unvisited expression member
  · intro other slot ordinary version seed
    rw [visited.seeded_after] at seed
    exact (mapped.seeds other slot ordinary version seed).imp (draws.has _ _) (draws.has _ _)
  · refine visited.forall_stored ?_ ?_
    · intro slot ordinary arrival arrives target visits same
      rw [funext visited.version_after] at arrives ⊢
      rw [← visited.done.arrivals slot ordinary] at arrives
      rcases List.mem_map.1 arrives with ⟨entry, member, rfl⟩
      subst same
      exact draws.drawn entry member target visits
    · intro other stored different entering slot ordinary arrival arrives target visits same
      rw [Course.arrivals_congr (elsewhere different)] at arrives
      have inCourse := Course.mem_visits_of_arrival arrives
      have site := Course.mem_sites_of_visit inCourse visits
      have kept := elsewhere different _ site
      have versioned := settling.versioned regular usage entering site
      have drawn := mapped.drawn other stored entering slot ordinary arrival arrives target visits
        same
      rw [← kept, visited.version_after] at drawn versioned
      rw [visited.version_after]
      refine drawn.of_spares (draws.spares _ fun entry member written found => ?_)
      rw [← same]
      refine distinctMiddle.key_ne
        (context.body.sitesIn_course other arrival.1 inCourse target visits)
        (context.body.sitesIn_course name entry.1 (visited.place_mem member) written found)
        (fun equal => ?_) versioned
      apply regular.unshared.sites_apart different _ site
      rw [equal]
      exact Course.mem_sites_of_visit (visited.place_mem member) found

end Visited

end RunM

/-! ## Runs -/

private theorem Mapped.of_aside {context : Context} {before after : RunState} {graph : VersionGraph}
    (mapped : Mapped context before graph) (aside : Aside before after) :
    ∃ next, Mapped context after next := by
  rcases aside.graph graph mapped.charted.stored with ⟨next, stored, similar⟩
  have version (expression : ExprId) := congrFun aside.version expression
  have last (slot : Slot) := Nat.le_of_eq (congrFun aside.last slot).symm
  refine ⟨next, ?_, mapped.distinct.of_same version last, ?_, ?_, ?_⟩
  · exact mapped.charted.of_identity stored last (similar.sound mapped.charted.sound)
      similar.identity
  · rw [aside.inFacts, aside.version]
    exact mapped.untouched
  · intro node slot ordinary version seed
    rw [aside.seeded] at seed
    have spares := similar.spares ⟨slot, version⟩
    exact (mapped.seeds node slot ordinary version seed).imp (spares.has _ _) (spares.has _ _)
  · rw [aside.inFacts, aside.version]
    intro name facts entering slot ordinary arrival arrives target visits same
    exact (mapped.drawn name facts entering slot ordinary arrival arrives target visits
      same).of_spares (similar.spares _)

/-- What runs with usage versions keep. -/
structure Surveyed (context : Context) (state : RunState) : Prop where
  growing : Growing context state
  justified : AllJustified context.body state
  mapped : ∃ graph, Mapped context state graph

theorem RunM.invariant_surveyed {context : Context} (regular : context.body.Regular)
    (usage : context.config.has .usageVersions = true) : Invariant context (Surveyed context) where
  visit := by
    intro live dirty node name facts log outcome changed before middle after found settling surveyed
      visited
    rcases surveyed with ⟨growing, justified, graph, mapped⟩
    exact ⟨(invariant_growing regular usage).visit found settling growing visited,
      (invariant_justified regular usage).visit found settling justified visited,
      visited.mapped mapped regular usage settling justified growing⟩
  aside := by
    intro before after surveyed aside
    rcases surveyed with ⟨growing, justified, graph, mapped⟩
    exact ⟨(invariant_growing regular usage).aside growing aside,
      (invariant_justified regular usage).aside justified aside, mapped.of_aside aside⟩

/-! ## Seeds -/

/-- The versions of variables that the facts hold have nodes. -/
def VersionGraph.Knows (graph : VersionGraph) (facts : Facts) : Prop :=
  ∀ slot : Slot, 0 ≤ slot → ∀ version ∈ facts.reaching slot, graph.Owns ⟨slot, version⟩

/-- No node was visited yet, and the seeds have nodes. -/
structure Sown (state : RunState) : Prop where
  unvisited : Unvisited state
  graph : ∃ graph, Charted state graph ∧
    ∀ (node : NodeId) (facts : Facts), state.tables.seeds[node]? = some facts → graph.Knows facts

theorem Sown.surveyed {context : Context} {state : RunState} (sown : Sown state) :
    Surveyed context state := by
  rcases sown with ⟨unvisited, graph, charted, seeds⟩
  refine ⟨.of_unvisited unvisited.inFacts, Versioner.allJustified_of_unvisited unvisited, graph,
    charted, .of_unvisited unvisited.version, fun _ _ expression _ => unvisited.version expression,
    fun node slot ordinary version seed => ?_, fun name facts entering => ?_⟩
  · rcases Tables.mem_seeded.1 seed with ⟨facts, stored, reaches⟩
    exact seeds node facts stored slot ordinary version reaches
  · exact absurd entering unvisited.not_entering

namespace RunM

variable {context : Context}

private theorem seedVersion_charted {statement : StatementId} {facts result : Facts} {slot : Slot}
    {state final : RunState} {graph : VersionGraph}
    (run : seedVersion context statement facts slot state = .ok result final)
    (charted : Charted state graph) (knows : graph.Knows facts) :
    final.tables.seeds = state.tables.seeds ∧ ∃ next, Charted final next ∧ next.Knows result ∧
      ∀ key origin, graph.Has key origin → next.Has key origin := by
  unfold seedVersion at run
  rw [bind_eq (mint_apply _ _ _ _), bind_eq (editGraph_apply _ _)] at run
  rcases pure_ok run with ⟨rfl, minted⟩
  have last := state.last_mint context.body.statements slot slot (some statement)
  rw [if_pos rfl] at last
  have ensured : Charted final (graph.ensure ⟨slot, state.last slot + 1⟩ .definition).1 ∧
      ∀ other, VersionGraph.Spares other graph
        (graph.ensure ⟨slot, state.last slot + 1⟩ .definition).1 := by
    rw [minted]
    exact charted.ensured _ _ (congrArg (Option.map _) charted.stored)
      (fun other => last_le_mint state context.body.statements slot other (some statement))
      fun _ => Nat.le_of_eq last.symm
  have has := (ensured.2 ⟨0, 0⟩).has
  have seeds : final.tables.seeds = state.tables.seeds := by
    rw [minted]
    rfl
  refine ⟨seeds, _, ensured.1, fun other ordinary version member => ?_, has⟩
  rw [Facts.reaching_pin] at member
  split at member
  · next same =>
      rcases VersionSet.mem_singleton.1 member with rfl
      subst same
      have unknown := charted.fresh ordinary (Nat.lt_succ_self (state.last other))
      have added := (VersionGraph.ensure_unknown .definition none unknown).2
      exact .inl ⟨graph.size, (added.identity graph.size).trans (if_pos rfl)⟩
  · exact (knows other ordinary version member).imp (has _ _) (has _ _)

theorem preserves_sown (context : Context) (entry : NodeId) :
    Preserves Sown (seeding context entry) := by
  refine preserves_seeding (fun state facts => ∀ graph, state.tables.graph = some graph →
    graph.Knows facts) ?_ ?_ ?_ entry
  · intro state sown graph stored slot ordinary version member
    rw [Facts.reaching_empty] at member
    exact absurd member (VersionSet.not_mem_empty version)
  · intro statement facts slot state value final sown knows run
    rcases sown with ⟨unvisited, graph, charted, seeds⟩
    rcases seedVersion_charted run charted (knows graph charted.stored) with
      ⟨same, next, chartedNext, knowsNext, has⟩
    refine ⟨⟨unvisited.of_quiet (quietly_seedVersion _ _ _ _ _ _ _ run), next, chartedNext, ?_⟩, ?_⟩
    · intro node entered stored slot ordinary version member
      rw [same] at stored
      exact (seeds node entered stored slot ordinary version member).imp (has _ _) (has _ _)
    · intro other stored
      rw [chartedNext.stored] at stored
      cases stored
      exact knowsNext
  · intro node facts state final sown knows run
    rcases sown with ⟨unvisited, graph, charted, seeds⟩
    cases run
    refine ⟨⟨unvisited.inFacts, unvisited.outFacts, unvisited.negativeFacts, unvisited.version,
      unvisited.merged, ⟨unvisited.fields.next, unvisited.fields.given⟩⟩, graph,
      charted.of_last rfl fun _ => Nat.le_refl _, fun other entered stored => ?_⟩
    rw [ExtTreeMap.getElem?_insert] at stored
    split at stored
    · cases stored
      exact knows graph charted.stored
    · exact seeds other entered stored

end RunM

/-! ## Valid configurations -/

/-- A valid configuration has a version graph if it has a feature that writes to it. -/
theorem Config.has_versionGraph_of_needing {config : Config} (valid : config.validate = .ok ())
    {feature : Feature} (needs : feature ∈ needingGraph) (on : config.has feature = true) :
    config.has .versionGraph = true := by
  unfold validate fault? at valid
  cases missing : needingGraph.find?
      (fun feature => config.has feature && !config.has .versionGraph) with
  | some feature =>
      rw [missing] at valid
      exact nomatch valid
  | none =>
      have graph := List.find?_eq_none.1 missing feature needs
      rw [on, Bool.true_and] at graph
      simpa using graph

/-- A valid configuration with usage versions has a version graph. -/
theorem Config.has_versionGraph {config : Config} (valid : config.validate = .ok ())
    (usage : config.has .usageVersions = true) : config.has .versionGraph = true :=
  has_versionGraph_of_needing valid (by decide) usage

/-- A valid configuration without usage versions has a phi table. -/
theorem Config.has_phiTable {config : Config} (valid : config.validate = .ok ())
    (plain : config.has .usageVersions = false) : config.has .phiTable = true := by
  unfold validate fault? at valid
  rw [plain] at valid
  cases phi : config.has .phiTable with
  | true => rfl
  | false =>
      rw [phi] at valid
      split at valid
      · exact nomatch valid
      · next whole =>
          split at whole
          · exact nomatch whole
          · exact nomatch whole

theorem Versioner.sown_start {config : Config} (body : Body) (valid : config.validate = .ok ())
    (usage : config.has .usageVersions = true) : Sown (start config body) := by
  have graph := Config.has_versionGraph valid usage
  refine ⟨unvisited_start config body, {}, ⟨?_, VersionGraph.sound_empty, ?_⟩, ?_⟩
  · unfold start Tables.fresh Tables.renew
    exact if_pos graph
  · rintro key origin ⟨position, found⟩
    exact nomatch found
  · intro node facts stored
    exact nomatch ExtTreeMap.getElem?_empty.symm.trans stored

end SlotVersioning
