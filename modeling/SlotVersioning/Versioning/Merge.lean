import SlotVersioning.VersionGraph.Merge
import SlotVersioning.Versioning.Run

/-!
# Phis and phantoms

With usage versions, a read that several versions reach is wired to all of them. A phantom is the
version that an incremented variable has afterwards; it contributes to the version that was
incremented, and it stays a contributor however often that version is wired anew.
-/

namespace SlotVersioning

namespace RunM

/-- Mints a phi input through which `source` flows into `key`, whose node is at `target`. -/
def addPhiInput (site : Site) (key : VersionKey) (target : Nat) (source : Version) :
    RunM Unit := do
  let input ← mint site.tree key.slot (some site.statement)
  editGraph fun graph => graph.addInput ⟨key.slot, source⟩ ⟨key.slot, input⟩ target
  report (.phiInputMinted ⟨key.slot, input⟩ source key)

/-- Wires `key` so that exactly `sources`, and its phantom if it has one already, flow into it. The
inputs of versions that flowed in before are kept. -/
def mergeInto (site : Site) (key : VersionKey) (sources : VersionSet) : RunM Unit := do
  let before ← tables
  match before.graph with
  | none => throw (.graphRequired .usageVersions)
  | some graph =>
      let phantom := (before.phantom? key).map VersionKey.version
      let (graph, target) := graph.ensure key .use
      let (graph, wired) := graph.pruneInputs target fun source =>
        sources.contains source || phantom == some source
      editTables fun tables => { tables with graph := some graph }
      (sources.toList.filter fun source => !wired.contains source).forM
        (addPhiInput site key target)

/-- Mints the phantom of `key` and lets it flow into `key` beside what already does. -/
def addPhantom (site : Site) (key : VersionKey) : RunM VersionKey := do
  let phantom : VersionKey := ⟨key.slot, ← mint site.tree key.slot none⟩
  match (← tables).graph with
  | none => throw (.graphRequired .phantomIncrements)
  | some graph =>
      let (graph, _) := graph.ensure phantom .phantom
      let (graph, target) := graph.ensure key .use
      editTables fun tables => { tables with graph := some graph }
      report (.phantomMinted phantom key)
      mergeInto site key (insert phantom.version (graph.sourcesAt target))
      return phantom

/-- The phantom of `key` is recorded, unless phantoms are not. -/
def ensurePhantom (site : Site) (key : VersionKey) : RunM Unit := do
  if ((← tables).phantom? key).isNone then
    let phantom ← addPhantom site key
    editTables fun tables =>
      { tables with phantoms := tables.phantoms.map fun phantoms => phantoms.insert key phantom }

end RunM

end SlotVersioning
