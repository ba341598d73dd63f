import SlotVersioning.Versioning.Pass

/-!
# Versioners

A versioner has a valid configuration and versions one body after another. Each run resets the
tables of the last one, which stay readable until then. A body that refers to something that is not
there is refused before anything of it changes; otherwise the versions that it had are cleared first.
-/

namespace SlotVersioning

structure Versioner where
  config : Config
  tables : Tables

/-- What a run leaves behind, whether or not it succeeds. -/
structure RunResult where
  versioner : Versioner
  body : Body
  outcome : Except Fault Unit
  events : List Event

namespace Versioner

/-- A versioner that has not run; the configuration has to be valid. -/
def create (config : Config) : Except Fault Versioner := do
  config.validate
  return { config, tables := ({} : Tables).reset config }

/-- The state before anything is evaluated: what is left in the tables, and the versions that are
left in the arena. The number of versions that were cleared is reported. -/
def begin (tables : Tables) (arena : Arena) (stale : Nat) : RunState where
  tables := tables
  versions := arena.storedVersions
  events :=
    match stale with
    | 0 => []
    | stale + 1 => [.versionsDiscarded (stale + 1)]

def finish (config : Config) (body : Body) (state : RunState) (outcome : Except Fault Unit) :
    RunResult where
  versioner := { config, tables := state.tables }
  body :=
    { body with
      arena := body.arena.withVersions fun expression => state.versions.getD expression 0 }
  outcome := outcome
  events := state.events.reverse

/-- Resets the tables, refuses a body that is not valid, clears the versions of any other body, and
versions it. -/
def run (versioner : Versioner) (body : Body) : RunResult :=
  let config := versioner.config
  let tables := versioner.tables.reset config
  match body.validate with
  | .error fault => { versioner := { config, tables }, body, outcome := .error fault, events := [] }
  | .ok () =>
      let (arena, stale) := body.arena.clearVersions
      let cleared := { body with arena }
      match RunM.versionAll { config, body := cleared } (begin tables arena stale) with
      | .ok () state => finish config cleared state (.ok ())
      | .error fault state => finish config cleared state (.error fault)

end Versioner

/-- Versions each body on its own, in order; a fault in one does not affect the others. -/
def versionBodies (config : Config) (bodies : List Body) : List (Except Fault RunResult) :=
  bodies.map fun body => do
    let result := (← Versioner.create config).run body
    result.outcome
    return result

end SlotVersioning
