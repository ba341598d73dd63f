import SlotVersioning.Proofs.Trace.Survey

/-!
# Flow in the version graph

With usage versions, what is current when an execution comes to a read flows into the version of
the read. The exception is a read that nothing reached on its first visit, so that it defined its
variable: if in the end one version reaches it, that version does not flow into it
(`Versioner.flows_iff`).
-/

namespace SlotVersioning

open Std

namespace RunResult

/-- The version graph has an edge between the versions, or merges the first into the second. -/
def Flows (result : RunResult) (source key : VersionKey) : Prop :=
  ∃ graph, result.versioner.tables.graph = some graph ∧
    (source ∈ graph.predecessors key ∨ source ∈ graph.contributors key)

/-- The version at the site came into being as a definition, but in the end the given version
reaches the visit, and no other. -/
def Overlooks (result : RunResult) (body : Body) (node : NodeId) (place : Visit)
    (target : VariableSite) (version : Version) : Prop :=
  (∃ graph, result.versioner.tables.graph = some graph ∧
    graph.origin? ⟨target.slot, result.version target.expression⟩ = some .definition) ∧
  (place, {version}) ∈ (body.course node).arrivals result.version target.slot
    (result.versioner.tables.entering node target.slot)

end RunResult

/-- What reaches a recorded read flows into its version, unless the read defined its variable and
nothing else reaches it. -/
private theorem Wired.listed_iff {graph : VersionGraph} {key : VersionKey} {reaching : VersionSet}
    (wired : Wired graph key reaching) (sound : graph.Sound) {version : Version}
    (member : version ∈ reaching) (owns : graph.Owns ⟨key.slot, version⟩) :
    ⟨key.slot, version⟩ ∈ graph.predecessors key ∨ ⟨key.slot, version⟩ ∈ graph.contributors key ↔
      ¬ (graph.origin? key = some .definition ∧ reaching = {version}) := by
  have plain := owns.not_phiInput sound
  cases wired with
  | flowing position origin found created reached older flows =>
      apply iff_of_true ((sound.flowsTo_iff_listed found plain).1 (flows version member))
      rintro ⟨defined, rfl⟩
      rw [sound.origin?_of_has ⟨position, found⟩] at defined
      rcases created with rfl | ⟨rfl, several⟩
      · exact nomatch defined
      · rw [VersionSet.cardinality_singleton] at several
        exact absurd several (by decide)
  | defining position found few phantoms =>
      refine iff_of_false (fun listed => ?_) (not_not_intro
        ⟨sound.origin?_of_has ⟨position, found⟩, ?_⟩)
      · have flows := (sound.flowsTo_iff_listed found plain).2 listed
        exact nomatch owns.origin sound (phantoms _ flows)
      · rcases reaching.cases_cardinality with rfl | ⟨only, rfl⟩ | several
        · exact absurd member (VersionSet.not_mem_empty version)
        · rw [VersionSet.mem_singleton.1 member]
        · exact absurd several (Nat.not_le_of_lt few)

/-- What is current in an execution has a node. -/
private theorem Mapped.owns_current {context : Context} {state : RunState} {graph : VersionGraph}
    (mapped : Mapped context state graph) (settled : Settled context state)
    (regular : context.body.Regular) (usage : context.config.has .usageVersions = true)
    {start node : NodeId} {initial : Current} {earlier : List Visit} {place : Visit}
    (comes : context.body.Comes start node earlier place)
    (starts : ∀ slot, Course.Within initial slot (state.tables.seeded start slot)) {slot : Slot}
    (ordinary : 0 ≤ slot) {version : Version}
    (current : initial.after state.version earlier slot = some version) :
    graph.Owns ⟨slot, version⟩ := by
  rcases Course.written_of_after current with entered | writes
  · exact mapped.seeds start slot ordinary version (starts slot version entered)
  · rcases writes with ⟨other, member, site, visits, rfl, rfl⟩
    rcases comes.visits_mem member with ⟨name, inCourse⟩
    rcases settled.everywhere name (Body.lt_size_of_visits inCourse) with ⟨facts, entering⟩
    have versioned := settled.versioned regular usage entering
      (Course.mem_sites_of_visit inCourse visits)
    exact mapped.owns_site regular inCourse visits versioned

namespace Versioner

variable {versioner : Versioner} {body : Body}

/-- With usage versions, what is current when an execution comes to a read flows into the version of
the read, unless the read defined its variable and nothing else reaches it in the end. -/
theorem flows_iff (valid : versioner.config.validate = .ok ())
    (usage : versioner.config.has .usageVersions = true) (regular : body.Regular)
    (success : (versioner.run body).outcome = .ok ()) {start node : NodeId} {initial : Current}
    (starts : (versioner.run body).Starts start initial) {earlier : List Visit} {place : Visit}
    (comes : body.Comes start node earlier place) {target : VariableSite}
    (visits : place.site? = some target) (reads : place.isRead = true) {version : Version}
    (current : initial.after (versioner.run body).version earlier target.slot = some version) :
    (versioner.run body).Flows ⟨target.slot, version⟩
        ⟨target.slot, (versioner.run body).version target.expression⟩ ↔
      ¬ (versioner.run body).Overlooks body node place target version := by
  rcases settled_result regular success (RunM.invariant_surveyed regular usage)
    (sown_start body valid usage).surveyed
    (fun entry seeded seeds _ => (RunM.preserves_sown _ entry _ _ _
      (sown_start body valid usage) seeds).surveyed) with
    ⟨state, settled, ⟨-, -, graph, mapped⟩, leaves⟩
  have ordinary := regular.ordinary_of_visit comes.mem_visits visits
  unfold RunResult.Starts at starts
  rw [leaves.after comes] at current
  rw [leaves.tables] at starts
  have owns := mapped.owns_current settled regular usage comes starts ordinary current
  rcases settled.comes regular comes visits starts with
    ⟨facts, arriving, entering, arrives, -, within⟩
  have wired {reaching : VersionSet}
      (reached : (place, reaching) ∈ (body.course node).arrivals state.version target.slot
        (facts.reaching target.slot)) :=
    (mapped.drawn node facts entering target.slot ordinary _ reached target visits rfl).wired reads
  unfold RunResult.Flows RunResult.Overlooks
  rw [leaves.tables, leaves.at_comes comes visits, mapped.charted.stored,
    Tables.entering_of_stored entering, Course.arrivals_congr (leaves.version node)]
  simp only [Option.some.injEq, exists_eq_left']
  constructor
  · rintro listed ⟨defined, alone⟩
    exact ((wired alone).listed_iff mapped.charted.sound (VersionSet.mem_singleton.2 rfl) owns).1
      listed ⟨defined, rfl⟩
  · intro seen
    apply ((wired arrives).listed_iff mapped.charted.sound (within version current) owns).2
    rintro ⟨defined, rfl⟩
    exact seen ⟨defined, arrives⟩

/-- What is current when the read of `rereading` comes again is what the assignment wrote. -/
theorem current_rereading :
    Current.after (Config.usage.versioner.run .rereading).version (fun _ => none)
      [.read ⟨0, 0, none⟩, .assign ⟨1, 0, none⟩ .nothing] 0 = some 2 := by
  decide +kernel

/-- What `flows_iff` says of the read in `rereading`. -/
theorem flows_iff_rereading :
    (Config.usage.versioner.run .rereading).Flows ⟨0, 2⟩
        ⟨0, (Config.usage.versioner.run .rereading).version 0⟩ ↔
      ¬ (Config.usage.versioner.run .rereading).Overlooks .rereading 0 (.read ⟨0, 0, none⟩)
        ⟨0, 0, none⟩ 2 := by
  exact flows_iff (show Config.usage.versioner.config.validate = .ok () from rfl)
    (show Config.usage.versioner.config.has _ = true from rfl) Body.regular_rereading
    success_rereading (RunResult.starts_none _ 0) Body.comes_rereading rfl rfl current_rereading

/-- In the loop of `rereading` the version that the assignment wrote is current when the read comes
again, but does not flow into its version. -/
theorem flow_lost :
    ¬ ∀ (versioner : Versioner) (body : Body), versioner.config.validate = .ok () →
      versioner.config.has .usageVersions = true → body.Regular →
      (versioner.run body).outcome = .ok () →
      ∀ (start node : NodeId) (initial : Current), (versioner.run body).Starts start initial →
      ∀ (earlier : List Visit) (place : Visit), body.Comes start node earlier place →
      ∀ target, place.site? = some target → place.isRead = true →
      ∀ version, initial.after (versioner.run body).version earlier target.slot = some version →
        version ≠ (versioner.run body).version target.expression →
        (versioner.run body).Flows ⟨target.slot, version⟩
          ⟨target.slot, (versioner.run body).version target.expression⟩ := by
  intro claim
  have final : (Config.usage.versioner.run .rereading).version 0 = 1 := by decide +kernel
  have flows := claim Config.usage.versioner .rereading rfl rfl Body.regular_rereading
    success_rereading 0 0 (fun _ => none) (RunResult.starts_none _ 0) _ _ Body.comes_rereading
    ⟨0, 0, none⟩ rfl rfl 2 current_rereading
  dsimp only at flows
  rw [final] at flows
  rcases flows (by decide) with ⟨graph, stored, listed⟩
  have nothing : (Config.usage.versioner.run .rereading).versioner.tables.graph.map
      (fun graph => graph.predecessors ⟨0, 1⟩ ++ graph.contributors ⟨0, 1⟩) = some [] := by
    decide +kernel
  rw [stored] at nothing
  have none : graph.predecessors ⟨0, 1⟩ ++ graph.contributors ⟨0, 1⟩ = [] :=
    Option.some.inj nothing
  exact absurd (List.mem_append.2 listed) (none ▸ List.not_mem_nil)

end Versioner

end SlotVersioning
