import SlotVersioning.Proofs.Graph.Gathering
import SlotVersioning.Proofs.Graph.Leading
import SlotVersioning.Proofs.Pass.Sequence
import SlotVersioning.Proofs.Shape.Runs
import SlotVersioning.Proofs.Trace.Plain

/-!
# What the dominators cover

With usage versions the value of a version comes from an older one, so that the edges lead back to a
version without predecessors. The exception is a late definition: a read that nothing reached on its
first visit defined its variable, and later merged what came to reach it, which may all be younger.
So the dominators of a live round cover all versions just when the roots lead to all late
definitions (`Versioner.covers_of_run`).
-/

namespace SlotVersioning

open Std

namespace VersionGraph

variable {graph : VersionGraph} {known : Slot → Nat} {reads : VersionKey → Prop}

/-- The version was defined by a read, and several versions were merged into it. -/
structure Late (graph : VersionGraph) (key : VersionKey) : Prop where
  defined : graph.origin? key = some .definition
  several : 2 ≤ (graph.contributors key).length

/-- A root or a late definition leads to the version. -/
def Traced (graph : VersionGraph) (key : VersionKey) : Prop :=
  ∃ start, (start ∈ graph.roots ∨ graph.Late start) ∧ graph.Leads start key

theorem Traced.onward {source target : VersionKey} (traced : graph.Traced source)
    (leads : graph.Leads source target) : graph.Traced target := by
  rcases traced with ⟨start, kind, before⟩
  exact ⟨start, kind, before.trans leads⟩

theorem traced_of_alone {position : Nat} {key : VersionKey} {origin : VersionOrigin}
    (found : graph.identity? position = some (key, origin))
    (alone : graph.predecessorsAt position = []) : graph.Traced key :=
  ⟨key, .inl (mem_roots.2 ⟨position, origin, found, alone⟩), .refl⟩

/-! ## Flow leads onward -/

/-- A version with predecessors has something that flows into it. -/
private theorem Shaped.exists_flow (shaped : graph.Shaped known reads) {position : Nat}
    (linked : graph.predecessorsAt position ≠ []) :
    ∃ source, graph.FlowsTo source position := by
  rcases List.exists_mem_of_ne_nil _ linked with ⟨predecessor, edge⟩
  rcases shaped.sound.level predecessor position edge with ⟨⟨other, kind⟩, -, there, -⟩
  by_cases isInput : kind = .phiInput
  · subst isInput
    rcases (shaped.input predecessor other there).source with ⟨source, only, -⟩
    have carries : source ∈ graph.predecessorsAt predecessor := by
      rw [only]
      exact List.mem_singleton_self source
    rcases shaped.sound.level source predecessor carries with ⟨⟨carried, created⟩, -, atSource, -⟩
    refine ⟨carried, predecessor, edge, ?_⟩
    rw [broughtBy?_input ((isPhiInputAt_iff there).2 rfl), carriedAt_eq, only, List.head?_cons,
      Option.bind_some, atSource]
    rfl
  · exact ⟨other, predecessor, edge, broughtBy?_plain there isInput⟩

section

variable {position : Nat} {key : VersionKey} {origin : VersionOrigin}
  (found : graph.identity? position = some (key, origin))

include found

/-- What flows into a version leads to it, perhaps over a phi input. -/
private theorem Sound.leads_of_flowsTo (sound : graph.Sound) {source : VersionKey}
    (flows : graph.FlowsTo source position) : graph.Leads source key := by
  rcases flows with ⟨predecessor, edge, brings⟩
  rcases sound.level predecessor position edge with ⟨⟨other, kind⟩, -, atPredecessor, -⟩
  have last := sound.leads_of_edge edge atPredecessor found
  unfold broughtBy? at brings
  split at brings
  · rw [carriedAt_eq] at brings
    rcases Option.bind_eq_some_iff.1 brings with ⟨first, head, named⟩
    rcases Option.map_eq_some_iff.1 named with ⟨⟨_, created⟩, atFirst, rfl⟩
    exact (sound.leads_of_edge (List.mem_of_head? head) atFirst atPredecessor).trans last
  · rw [atPredecessor] at brings
    cases brings
    exact last

/-- A version into which several versions flow merges several. -/
private theorem Shaped.several_contributors (shaped : graph.Shaped known reads)
    (plain : origin ≠ .phiInput) {reaching : VersionSet} (several : 2 ≤ reaching.cardinality)
    (flows : ∀ version ∈ reaching, graph.FlowsTo ⟨key.slot, version⟩ position) :
    2 ≤ (graph.contributors key).length := by
  have merging := shaped.merging_of_flows found plain several flows
  have contributes {version : Version} (member : version ∈ reaching) :
      (⟨key.slot, version⟩ : VersionKey) ∈ graph.contributors key := by
    rcases flows version member with ⟨predecessor, edge, brings⟩
    have isInput := merging.inputs predecessor edge
    rw [broughtBy?_input isInput] at brings
    rw [(shaped.sound.listed_at found).2.2]
    exact List.mem_filterMap.2 ⟨predecessor, List.mem_filter.2 ⟨edge, isInput⟩, brings⟩
  rcases VersionSet.exists_two_of_several several with ⟨left, atLeft, right, atRight, different⟩
  have first := contributes atLeft
  have second := contributes atRight
  match listed : graph.contributors key with
  | [] =>
      rw [listed] at first
      exact nomatch first
  | [only] =>
      rw [listed, List.mem_singleton] at first second
      exact absurd (congrArg VersionKey.version (first.trans second.symm)) different
  | _ :: _ :: rest => exact Nat.le_add_left 2 rest.length

end

/-! ## Chains of versions -/

section

variable (shaped : graph.Shaped known reads)
  (records : ∀ key, reads key → ∃ reaching, Wired graph key reaching)

include shaped records

/-- Nothing flows into a phantom, because no read has its version. -/
private theorem Shaped.traced_of_phantom {key : VersionKey} (haunts : graph.Has key .phantom) :
    graph.Traced key := by
  rcases haunts with ⟨position, found⟩
  refine traced_of_alone found (Decidable.byContradiction fun linked => ?_)
  rcases shaped.wired position key .phantom found linked with ⟨-, phantom | isRead⟩
  · exact nomatch phantom
  · rcases records key isRead with ⟨reaching, wired⟩
    exact nomatch wired.owns.origin shaped.sound ⟨position, found⟩

/-- A version that is no phi input is a root, or late, or an older version flows into it. -/
private theorem Shaped.traced_of_plain {slot : Slot} (version : Version) :
    ∀ position origin, graph.identity? position = some (⟨slot, version⟩, origin) →
      origin ≠ .phiInput → graph.Traced ⟨slot, version⟩ := by
  induction version using Nat.strongRecOn with
  | _ version induction =>
      intro position origin found plain
      by_cases alone : graph.predecessorsAt position = []
      · exact traced_of_alone found alone
      have isRead := (shaped.wired position _ origin found alone).2.resolve_left plain
      rcases records _ isRead with ⟨reaching, wired⟩
      cases wired with
      | flowing place created atPlace kind reached older flows =>
          cases (shaped.sound.indexed _ _ _ atPlace).symm.trans (shaped.sound.indexed _ _ _ found)
          rcases kind with rfl | ⟨rfl, several⟩
          · -- What reached a read first is older than its version.
            rcases older rfl with ⟨source, member, less⟩
            have brings := flows source member
            rcases shaped.plain_source found
              (mem_sourcesAt.2 ⟨⟨slot, source⟩, rfl, brings⟩) with
              ⟨created, ⟨start, atStart⟩, noInput⟩
            exact (induction source less start created atStart noInput).onward
              (shaped.sound.leads_of_flowsTo found brings)
          · refine ⟨_, .inr ⟨shaped.sound.origin?_of_has ⟨position, atPlace⟩, ?_⟩, .refl⟩
            exact shaped.several_contributors found plain several flows
      | defining place atPlace few phantoms =>
          cases (shaped.sound.indexed _ _ _ atPlace).symm.trans (shaped.sound.indexed _ _ _ found)
          rcases shaped.exists_flow alone with ⟨source, brings⟩
          exact (shaped.traced_of_phantom records (phantoms source brings)).onward
            (shaped.sound.leads_of_flowsTo found brings)

/-- A root or a late definition leads to every version. -/
private theorem Shaped.traced {key : VersionKey} (member : key ∈ graph.keys) :
    graph.Traced key := by
  rcases mem_keys.1 member with ⟨origin, position, found⟩
  by_cases isInput : origin = .phiInput
  · subst isInput
    rcases (shaped.input position key found).source with ⟨source, only, plain⟩
    have edge : source ∈ graph.predecessorsAt position := by
      rw [only]
      exact List.mem_singleton_self source
    rcases shaped.sound.level source position edge with ⟨⟨carried, created⟩, -, atSource, -⟩
    refine (shaped.traced_of_plain records carried.version source created atSource ?_).onward
      (shaped.sound.leads_of_edge edge atSource found)
    rintro rfl
    exact Bool.eq_false_iff.1 plain ((isPhiInputAt_iff atSource).2 rfl)
  · exact shaped.traced_of_plain records key.version position origin found isInput

end

end VersionGraph

/-! ## Whole runs -/

/-- The version graph after a run with usage versions and a live round, and what its dominators
cover. -/
structure RunResult.Covers (result : RunResult) (graph : VersionGraph) : Prop where
  stored : result.versioner.tables.graph = some graph
  traced : ∀ key ∈ graph.keys, graph.Traced key
  /-- A version dominates itself when a root leads to it. -/
  itself : ∀ key ∈ graph.keys,
    graph.dominates key key = .ok true ↔ ∃ root ∈ graph.roots, graph.Leads root key
  /-- All versions dominate themselves when roots lead to the late definitions. -/
  covered : (∀ key ∈ graph.keys, graph.dominates key key = .ok true) ↔
    ∀ start, graph.Late start → ∃ root ∈ graph.roots, graph.Leads root start

/-- A read of a settled run has a record of what reaches it. -/
private theorem Mapped.exists_wired {context : Context} {state : RunState} {graph : VersionGraph}
    (mapped : Mapped context state graph) (settled : Settled context state)
    (regular : context.body.Regular) {key : VersionKey}
    (isRead : context.body.ReadAs state.version key) :
    ∃ reaching, Wired graph key reaching := by
  rcases isRead with ⟨place, target, ⟨name, member⟩, reads, visits, -, rfl⟩
  rcases settled.everywhere name (Body.lt_size_of_visits member) with ⟨facts, entering⟩
  rcases Course.exists_arrival member (facts.reaching target.slot) with ⟨arriving, arrives⟩
  exact ⟨arriving, (mapped.drawn name facts entering target.slot
    (regular.ordinary_of_visit member visits) _ arrives target visits rfl).wired reads⟩

namespace Versioner

variable {versioner : Versioner} {body : Body}

/-- After a live round the dominators are those of the version graph. -/
private theorem dominated_of_run (live : versioner.config.has .liveRound = true)
    (success : (versioner.run body).outcome = .ok ()) {graph : VersionGraph}
    (stored : (versioner.run body).versioner.tables.graph = some graph) {key : VersionKey}
    (known : key ∈ graph.keys) : graph.Dominated := by
  cases found : body.graph.entry with
  | none =>
      rcases run_ok success with ⟨-, valid, -, -⟩
      rcases run_of_noEntry versioner valid found with ⟨final, -, aside, result⟩
      have nodes := aside.nodes
      rw [result] at stored
      rw [show final.tables.graph = some graph from stored, Option.map_some] at nodes
      rcases Option.map_eq_some_iff.1 nodes.symm with ⟨first, begun, same⟩
      have fresh : first = {} := by
        unfold start Tables.fresh Tables.renew at begun
        rcases Option.ite_none_right_eq_some.1 begun with ⟨-, same⟩
        exact (Option.some.inj same).symm
      unfold VersionGraph.keys at known
      rw [← same, fresh] at known
      exact nomatch known
  | some entry =>
      rcases parts_of_run success found with ⟨seeded, total, settled, final, parts⟩
      rcases RunM.liveRound_dominated (RunM.countPass_apply settled) (parts.live live) with
        ⟨after, -, events, -, rfl⟩
      rw [parts.result] at stored
      rcases Option.map_eq_some_iff.1 stored with ⟨before, -, rfl⟩
      exact before.dominated_computeDominators

/-- With usage versions and a live round, a root or a late definition leads to every version, and
the versions to which roots lead are those that dominate themselves. -/
theorem covers_of_run (valid : versioner.config.validate = .ok ())
    (usage : versioner.config.has .usageVersions = true)
    (live : versioner.config.has .liveRound = true) (regular : body.Regular)
    (success : (versioner.run body).outcome = .ok ()) :
    ∃ graph, (versioner.run body).Covers graph := by
  rcases upheld_of_run (upholds_shaped regular.usedOnce regular.ordinary usage)
    (fun state begins => begins.entering.kept.imp fun accounts =>
      ⟨accounts, begins.shaped valid usage _⟩) success with ⟨final, result, kept⟩
  rcases kept.holds.2 with ⟨graph, stored, shaped⟩
  rcases settled_result regular success (RunM.invariant_surveyed regular usage)
    (sown_start body valid usage).surveyed
    (fun entry seeded seeds _ => (RunM.preserves_sown _ entry _ _ _
      (sown_start body valid usage) seeds).surveyed) with
    ⟨state, settled, ⟨-, -, other, mapped⟩, leaves⟩
  have ends : (versioner.run body).Leaves body final := result ▸ leaves_finish _ _ _ _
  have charted := mapped.charted.stored
  rw [← leaves.tables, ends.tables, stored] at charted
  cases charted
  -- Both final states have the versions with which the run ends.
  have records (key : VersionKey) (isRead : body.ReadAs final.version key) :
      ∃ reaching, Wired graph key reaching :=
    mapped.exists_wired settled regular (isRead.later fun name expression member _ =>
      (leaves.version name expression member).symm.trans (ends.version name expression member))
  have known : (versioner.run body).versioner.tables.graph = some graph := ends.tables ▸ stored
  have itself (key : VersionKey) (member : key ∈ graph.keys) :=
    shaped.sound.dominates_self_iff (dominated_of_run live success known member) member
  refine ⟨graph, known, fun key member => shaped.traced records member, itself, ?_⟩
  constructor
  · intro covered start late
    have member := VersionGraph.mem_keys.2 ⟨_, shaped.sound.has_of_origin late.defined⟩
    exact (itself start member).1 (covered start member)
  · intro reached key member
    apply (itself key member).2
    rcases shaped.traced records member with ⟨start, isRoot | late, leads⟩
    · exact ⟨start, isRoot, leads⟩
    · rcases reached start late with ⟨root, isRoot, before⟩
      exact ⟨root, isRoot, before.trans leads⟩

/-- What `covers_of_run` says of `orbiting`, whose first version is a late definition. -/
theorem covers_orbiting :
    ∃ graph, (Config.usage.versioner.run .orbiting).Covers graph ∧ graph.Late ⟨0, 1⟩ := by
  rcases covers_of_run (show Config.usage.versioner.config.validate = .ok () from rfl)
      (show Config.usage.versioner.config.has _ = true from rfl)
      (show Config.usage.versioner.config.has _ = true from rfl) Body.regular_orbiting
      success_orbiting with ⟨graph, covers⟩
  have merged := merged_orbiting
  rw [covers.stored] at merged
  rcases Prod.mk.inj (Option.some.inj merged) with ⟨defined, contributors⟩
  exact ⟨graph, covers, defined, Nat.le_of_eq (congrArg List.length contributors).symm⟩

/-- The first read of `orbiting` defines its variable, and in the end merges the versions of the
other reads, which follow it; so no version is a root, and none dominates itself. -/
theorem root_lost :
    ¬ ∀ (versioner : Versioner) (body : Body), versioner.config.validate = .ok () →
      versioner.config.has .usageVersions = true → versioner.config.has .liveRound = true →
      body.Regular → (versioner.run body).outcome = .ok () →
      ∀ graph, (versioner.run body).versioner.tables.graph = some graph → ∀ key ∈ graph.keys,
        (∃ root ∈ graph.roots, graph.Leads root key) ∧ graph.dominates key key = .ok true := by
  intro claim
  have covered := claim Config.usage.versioner .orbiting rfl rfl rfl Body.regular_orbiting
    success_orbiting
  have rootless : (Config.usage.versioner.run .orbiting).versioner.tables.graph.map
      (fun graph => (graph.roots, graph.keys.contains ⟨0, 1⟩)) = some ([], true) := by
    decide +kernel
  rcases Option.map_eq_some_iff.1 rootless with ⟨graph, stored, parts⟩
  rcases Prod.mk.inj parts with ⟨noRoots, contains⟩
  rcases (covered graph stored _ (List.contains_iff_mem.1 contains)).1 with ⟨root, member, -⟩
  rw [noRoots] at member
  exact nomatch member

end Versioner

end SlotVersioning
