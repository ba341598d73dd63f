import SlotVersioning.Proofs.Body.Unversioned

/-!
# How runs begin

A run begins with the tables that the last one left, after it reset them, and with the versions that
are left in the arena (`Versioner.version_begin`), after it cleared them. Nothing of either stays:
reset tables are as they were before anything was found out (`Tables.reset_eq_fresh`), and a cleared
arena is the arena without its versions (`Arena.clearVersions_eq`). So the state in which a run
begins does not depend on what the versioner ran on before, and of the versions that the body had
only their number is reported (`Versioner.run_of_valid`).
-/

namespace SlotVersioning

/-- Whatever an earlier run left in any of the tables, a reset leaves nothing of it. -/
theorem Tables.reset_eq_fresh (tables : Tables) (config : Config) :
    tables.reset config = fresh config := rfl

namespace Versioner

variable {versioner : Versioner} {body : Body} {fault : Fault}

/-- The state in which the runs of a body begin. -/
def start (config : Config) (body : Body) : RunState where
  tables := .fresh config
  events :=
    match body.arena.versionedCount with
    | 0 => []
    | stale + 1 => [.versionsDiscarded (stale + 1)]

/-- Before anything is evaluated, the versions are those that are left in the arena. -/
theorem version_begin (tables : Tables) (arena : Arena) (stale : Nat) (expression : ExprId) :
    (begin tables arena stale).version expression =
      ((arena.access? expression).map VariableAccess.version).getD 0 :=
  arena.getD_storedVersions expression

/-- A reset and a clearing leave the same state, whatever there was. -/
private theorem begin_eq_start (tables : Tables) (config : Config) (body : Body) :
    begin (tables.reset config) body.unversioned.arena body.arena.versionedCount =
      start config body := by
  unfold begin Body.unversioned
  rw [Arena.storedVersions_unversioned, Tables.reset_eq_fresh]
  rfl

/-- The result of a run of a valid body that ended so. -/
def concluded (config : Config) (body : Body) : EStateM.Result Fault RunState Unit → RunResult
  | .ok _ state => finish config body state (.ok ())
  | .error fault state => finish config body state (.error fault)

private theorem finish_unversioned (config : Config) (body : Body) (state : RunState)
    (outcome : Except Fault Unit) :
    finish config body.unversioned state outcome = finish config body state outcome := by
  unfold finish Body.unversioned Arena.unversioned
  rw [Arena.withVersions_withVersions]

/-- A body that is refused keeps its versions. -/
theorem run_of_invalid (invalid : body.validate = .error fault) :
    versioner.run body =
      { versioner := { config := versioner.config, tables := .fresh versioner.config }, body
        outcome := .error fault, events := [] } := by
  unfold run
  rw [invalid]
  rfl

/-- Any other body is versioned as if it had no versions. -/
theorem run_of_valid (valid : body.validate = .ok ()) :
    versioner.run body = concluded versioner.config body
      (RunM.versionAll { config := versioner.config, body } (start versioner.config body)) := by
  have cleared : RunM.versionAll { config := versioner.config, body := body.unversioned } =
      RunM.versionAll { config := versioner.config, body } :=
    RunM.versionAll_unversioned { config := versioner.config, body }
  unfold run
  rw [valid, Arena.clearVersions_eq]
  dsimp only
  rw [show { body with arena := body.arena.unversioned } = body.unversioned from rfl, cleared,
    show body.arena.unversioned = body.unversioned.arena from rfl, begin_eq_start]
  cases RunM.versionAll { config := versioner.config, body } (start versioner.config body) with
  | ok value state => exact finish_unversioned _ _ _ _
  | error fault state => exact finish_unversioned _ _ _ _

end Versioner

end SlotVersioning
