import SlotVersioning.Proofs.Trace.Execution

/-!
# Soundness without usage versions

Without usage versions a read has the version that is current in every execution that comes to it,
or a merged version into which that one was merged (`Versioner.read_current`).
-/

namespace SlotVersioning

open Std

/-- A stable read of versions that include the given one has that version or merges it. -/
private theorem Stable.reads {config : Config} {versions : ExprId → Version}
    {merged : VersionKey → Option VersionSet} {target : VariableSite} {reaching : VersionSet}
    (stable : Stable config versions merged true target reaching)
    (plain : config.has .usageVersions = false) {version : Version} (member : version ∈ reaching) :
    versions target.expression = version ∨
      ∃ sources, merged ⟨target.slot, versions target.expression⟩ = some sources ∧
        version ∈ sources := by
  rcases reaching.cases_cardinality with rfl | ⟨only, rfl⟩ | several
  · exact absurd member (VersionSet.not_mem_empty version)
  · rcases VersionSet.mem_singleton.1 member with rfl
    exact .inl (stable.adopted plain rfl version rfl)
  · rcases stable.joined plain rfl several with ⟨-, sources, found, subset⟩
    exact .inr ⟨sources, found, subset version member⟩

namespace Versioner

variable {versioner : Versioner} {body : Body}

/-- A successful run ends with the tables and the versions of a settled state. -/
theorem settled_result {motive : RunState → Prop} (regular : body.Regular)
    (success : (versioner.run body).outcome = .ok ())
    (invariant : RunM.Invariant { config := versioner.config, body } motive)
    (begins : motive (start versioner.config body))
    (seeds : ∀ entry seeded, RunM.seeding { config := versioner.config, body } entry
      (start versioner.config body) = .ok () seeded → Unvisited seeded → motive seeded) :
    ∃ state, Settled { config := versioner.config, body } state ∧ motive state ∧
      (versioner.run body).Leaves body state := by
  rcases settled_of_run regular success invariant begins seeds with
    ⟨state, settled, holds, result⟩
  rw [result]
  exact ⟨state, settled, holds, leaves_finish _ _ _ _⟩

/-- Without usage versions, a read that an execution comes to has the version that is current, or a
merged version into which the current version was merged. -/
theorem read_current (plain : versioner.config.has .usageVersions = false)
    (regular : body.Regular) (success : (versioner.run body).outcome = .ok ())
    {start node : NodeId} {initial : Current} (starts : (versioner.run body).Starts start initial)
    {earlier : List Visit} {place : Visit} (comes : body.Comes start node earlier place)
    {target : VariableSite} (visits : place.site? = some target) (reads : place.isRead = true)
    {version : Version}
    (current : initial.after (versioner.run body).version earlier target.slot = some version) :
    (versioner.run body).version target.expression = version ∨
      ∃ sources, (versioner.run body).versioner.tables.merged?
          ⟨target.slot, (versioner.run body).version target.expression⟩ = some sources ∧
        version ∈ sources := by
  rcases settled_result regular success (RunM.Invariant.trivial _) True.intro
    (fun _ _ _ _ => True.intro) with ⟨state, settled, -, leaves⟩
  unfold RunResult.Starts at starts
  rw [leaves.after comes] at current
  rw [leaves.tables] at starts ⊢
  rw [leaves.at_comes comes visits]
  rcases settled.comes regular comes visits starts with
    ⟨facts, arriving, -, -, stable, within⟩
  rw [reads] at stable
  exact stable.reads plain (within version current)

/-- After the first time round, the read of `rereading` has the version of the assignment. -/
theorem read_current_rereading :
    (Config.plain.versioner.run .rereading).version 0 = 2 ∨
      ∃ sources, (Config.plain.versioner.run .rereading).versioner.tables.merged?
          ⟨0, (Config.plain.versioner.run .rereading).version 0⟩ = some sources ∧
        2 ∈ sources :=
  read_current (show Config.plain.versioner.config.has _ = false from rfl) Body.regular_rereading
    (by decide +kernel) (RunResult.starts_none _ 0) Body.comes_rereading rfl rfl (by decide +kernel)

end Versioner

end SlotVersioning
