import SlotVersioning.Proofs.Graph.Gathering
import SlotVersioning.Proofs.Rest.Books
import SlotVersioning.Proofs.Run.Rewiring
import SlotVersioning.Proofs.Run.Stable
import SlotVersioning.Proofs.Shape.Steps

/-!
# Idle visits

A visit is idle when it leaves everything as it was, but for the live facts when these are recorded
(`Idle`). It is idle when its place rests (`Visit.Rests`): the version written there, the phi table,
the version graph, the phantoms, the copies and the field slots already say what it would write
(`Visit.act_idle`).
-/

namespace SlotVersioning

open Std VersionGraph

/-- The version graph with all live facts forgotten. -/
def VersionGraph.withoutLive (graph : VersionGraph) : VersionGraph :=
  { graph with nodes := graph.nodes.map fun node => { node with live := none } }

/-- The tables with all live facts forgotten. -/
def Tables.withoutLive (tables : Tables) : Tables := tables.editGraph VersionGraph.withoutLive

private theorem VersionGraph.similar_withoutLive (graph : VersionGraph) :
    Similar graph graph.withoutLive where
  identity := fun position => by simp [withoutLive, identity?, Function.comp_def]
  position := fun _ => rfl
  predecessors := fun position => by simp [withoutLive, predecessorsAt, Function.comp_def]
  successors := fun position => by simp [withoutLive, successorsAt, Function.comp_def]

private theorem VersionGraph.withoutLive_withLive (graph : VersionGraph) (key : VersionKey)
    (facts : Facts) : (graph.withLive key facts).withoutLive = graph.withoutLive := by
  unfold withLive
  split
  · next position found =>
      unfold withoutLive editAt
      dsimp only
      congr 1
      refine Array.ext_getElem? fun index => ?_
      rw [Array.getElem?_map, Array.getElem?_map, Array.getElem?_modify]
      split
      · rw [Option.map_map]
        rfl
      · rfl
  · rfl

/-! ## Idle actions -/

/-- Nothing changed but what was reported, and the live facts if these are recorded. -/
structure Idle (live : Bool) (before after : RunState) : Prop where
  versions : after.versions = before.versions
  tables : after.tables.withoutLive = before.tables.withoutLive
  dead : live = false → after.tables = before.tables

namespace Idle

variable {live : Bool} {before middle after : RunState}

theorem refl (live : Bool) (state : RunState) : Idle live state state :=
  ⟨rfl, rfl, fun _ => rfl⟩

theorem trans (first : Idle live before middle) (second : Idle live middle after) :
    Idle live before after where
  versions := second.versions.trans first.versions
  tables := second.tables.trans first.tables
  dead := fun off => (second.dead off).trans (first.dead off)

theorem of_tables (versions : after.versions = before.versions)
    (tables : after.tables = before.tables) : Idle live before after :=
  ⟨versions, by rw [tables], fun _ => tables⟩

variable (idle : Idle live before after)

include idle

/-- What is read off the tables without regard to live facts is the same. -/
theorem same {α : Type} (get : Tables → α) (blind : ∀ tables, get tables.withoutLive = get tables) :
    get after.tables = get before.tables := by
  rw [← blind, ← blind before.tables, idle.tables]

theorem version : after.version = before.version := by
  funext expression
  unfold RunState.version
  rw [idle.versions]

theorem merged : after.tables.merged? = before.tables.merged? :=
  idle.same Tables.merged? fun _ => rfl

private theorem last : after.last = before.last := by
  funext slot
  exact idle.same (fun tables => tables.lastVersions.getD slot 0) fun _ => rfl

theorem fieldSlot : after.fieldSlot? = before.fieldSlot? := by
  funext expression
  exact idle.same (fun tables => tables.fields.bind fun fields => fields[expression]?) fun _ => rfl

theorem books : after.Books before.tables where
  phantoms := idle.same Tables.phantoms fun _ => rfl
  fields := idle.same Tables.fields fun _ => rfl
  copies := idle.same Tables.copies fun _ => rfl

theorem graph {graph : VersionGraph} (stored : before.tables.graph = some graph) :
    ∃ next, after.tables.graph = some next ∧ Similar graph next := by
  have same := congrArg Tables.graph idle.tables
  change after.tables.graph.map withoutLive = before.tables.graph.map withoutLive at same
  rw [stored, Option.map_some] at same
  rcases Option.map_eq_some_iff.1 same with ⟨next, nextStored, equal⟩
  refine ⟨next, nextStored, (similar_withoutLive graph).trans ?_⟩
  rw [← equal]
  exact (similar_withoutLive next).symm

theorem shaped {reads : VersionKey → Prop} (shaped : before.Shaped reads) : after.Shaped reads := by
  rcases shaped with ⟨graph, stored, shaped⟩
  rcases idle.graph stored with ⟨next, nextStored, similar⟩
  refine ⟨next, nextStored, ?_⟩
  rw [idle.last]
  exact shaped.of_similar similar

end Idle

namespace RunM

theorem recordLive_idle (site : Site) (key : VersionKey) (facts : Facts) (state : RunState) :
    ∃ final, recordLive site key facts state = .ok () final ∧ Idle site.live state final := by
  unfold recordLive
  cases live : site.live with
  | false => exact ⟨state, rfl, .refl _ _⟩
  | true =>
      rw [if_pos rfl]
      refine ⟨_, editGraph_apply _ _, rfl, ?_, fun off => nomatch off⟩
      unfold Tables.withoutLive Tables.editGraph
      dsimp only
      rw [Option.map_map]
      congr 2
      funext graph
      exact graph.withoutLive_withLive key facts

end RunM

/-! ## Merges at rest -/

/-- The version of the phantom that is recorded for a key. -/
def RunState.phantom? (state : RunState) (key : VersionKey) : Option Version :=
  (state.tables.phantom? key).map VersionKey.version

theorem KeepsBooks.phantomVersion {before after : RunState} (books : KeepsBooks before after)
    {key : VersionKey} {version : Version} (known : before.phantom? key = some version) :
    after.phantom? key = some version := by
  rcases Option.map_eq_some_iff.1 known with ⟨phantom, recorded, rfl⟩
  exact Option.map_eq_some_iff.2 ⟨phantom, books.phantom key phantom recorded, rfl⟩

/-- Just the versions flow into the version of the key, and its phantom if it has one. -/
def RunState.Gathers (state : RunState) (key : VersionKey) (reaching : VersionSet) : Prop :=
  ∃ graph position, state.tables.graph = some graph ∧
    graph.Gathers (state.phantom? key) key reaching position

namespace RunM

variable {site : Site} {target : VariableSite} {facts : Facts} {state : RunState}
  {reads : VersionKey → Prop}

/-- Several versions that are gathered already are merged without any change. -/
theorem mergeInto_same {key : VersionKey} {sources : VersionSet} (shaped : state.Shaped reads)
    (gathers : state.Gathers key sources) (several : 2 ≤ sources.cardinality) :
    mergeInto site key sources state = .ok () state := by
  rcases shaped with ⟨graph, stored, shaped⟩
  rcases gathers with ⟨found, position, same, gathers⟩
  obtain rfl : graph = found := Option.some.inj (stored.symm.trans same)
  rcases gathers.found with ⟨origin, placed, -⟩
  have pruned := gathers.pruned shaped several
    (VersionGraph.wants sources ((state.tables.phantom? key).map VersionKey.version))
    (fun version member => VersionGraph.wants_iff.2 (.inl member))
    (fun version isPhantom => VersionGraph.wants_iff.2 (.inr isPhantom))
  exact mergeInto_idle stored (shaped.sound.indexed position key origin placed)
    (Prod.ext pruned.1 rfl) pruned.2

end RunM

end SlotVersioning
