import SlotVersioning.Config
import SlotVersioning.Statement.Traversal
import SlotVersioning.VersionGraph.Dominance

/-!
# Tables

What a run finds out about a body, besides the versions that it writes. A table that belongs to a
feature is there exactly when the feature is on.
-/

namespace SlotVersioning

open Std

structure Tables where
  inFacts : ExtTreeMap NodeId Facts := ∅
  /-- Facts after every visited node where its last test held. -/
  outFacts : ExtTreeMap NodeId Facts := ∅
  /-- Facts after a node with a negative branch where its last test did not hold. -/
  negativeFacts : ExtTreeMap NodeId Facts := ∅
  /-- Facts that enter at a node from outside: parameters and caught exceptions. -/
  seeds : ExtTreeMap NodeId Facts := ∅
  lastVersions : ExtTreeMap Slot Version := ∅
  /-- Merged versions with the versions that flow into them. -/
  phi : Option (ExtTreeMap VersionKey VersionSet) := none
  /-- Versions with the innermost statement that protects their definition. -/
  ranges : Option (ExtTreeMap VersionKey StatementId) := none
  /-- Versions of increment targets with their phantoms. -/
  phantoms : Option (ExtTreeMap VersionKey VersionKey) := none
  graph : Option VersionGraph := none
  fields : Option (ExtTreeMap ExprId Slot) := none
  /-- Versions that copy a variable or a field, with their source. -/
  copies : Option (ExtTreeMap VersionKey VersionKey) := none
  nextFieldSlot : Slot := -1
  passes : Nat := 0

namespace Tables

/-! ## Starting anew -/

/-- Forgets all facts and all numbering. -/
def clear (tables : Tables) : Tables :=
  { tables with inFacts := ∅, outFacts := ∅, negativeFacts := ∅, seeds := ∅, lastVersions := ∅ }

/-- An empty table for every feature that is on, and none for a feature that is off. -/
def renew (tables : Tables) (config : Config) : Tables :=
  { tables with
    phi := if config.has .phiTable then some ∅ else none
    ranges := if config.has .protectedRanges then some ∅ else none
    phantoms := if config.has .phantomIncrements then some ∅ else none
    graph := if config.has .versionGraph then some {} else none
    fields := if config.has .fieldVersions then some ∅ else none
    copies := if config.has .copies then some ∅ else none }

/-- Starts both counters again. -/
def rewind (tables : Tables) : Tables := { tables with nextFieldSlot := -1, passes := 0 }

/-- Tables of an earlier run, made ready for the next one. -/
def reset (tables : Tables) (config : Config) : Tables := (tables.clear.renew config).rewind

/-- The tables before anything was found out. -/
def fresh (config : Config) : Tables := ({} : Tables).renew config

/-! ## Reading -/

/-- The table of a feature, refused while the feature is off. -/
def require {α : Type} (feature : Feature) : Option α → Except Fault α
  | some table => .ok table
  | none => .error (.featureOff feature)

def versionGraph (tables : Tables) : Except Fault VersionGraph := require .versionGraph tables.graph

def lastVersion? (tables : Tables) (slot : Slot) : Option Version := tables.lastVersions[slot]?

def phantom? (tables : Tables) (key : VersionKey) : Option VersionKey :=
  tables.phantoms.bind fun phantoms => phantoms[key]?

/-- Facts recorded at a known version by the live round, empty when there are none. -/
def live? (tables : Tables) (key : VersionKey) : Except Fault (Option Facts) :=
  (VersionGraph.liveAt? · key) <$> tables.versionGraph

/-! ## Writing -/

/-- Numbers the next version of `slot`. Inside a protected statement the version remembers it,
unless the version belongs to no statement. -/
def mint (tables : Tables) (tree : StatementTree) (slot : Slot) (statement : Option StatementId) :
    Tables × Version :=
  let version := tables.lastVersions.getD slot 0 + 1
  let ranges := match statement.bind tree.protector? with
    | some range => tables.ranges.map fun ranges => ranges.insert ⟨slot, version⟩ range
    | none => tables.ranges
  ({ tables with lastVersions := tables.lastVersions.insert slot version, ranges }, version)

def editGraph (tables : Tables) (edit : VersionGraph → VersionGraph) : Tables :=
  { tables with graph := tables.graph.map edit }

/-- The slot of a field access. The first request takes the next negative slot, whose only version
is one. -/
def slotOfField (tables : Tables) (expression : ExprId) : Tables × Slot :=
  match tables.fields.bind fun fields => fields[expression]? with
  | some slot => (tables, slot)
  | none =>
      let slot := tables.nextFieldSlot
      ({ tables with
          nextFieldSlot := slot - 1
          fields := tables.fields.map fun fields => fields.insert expression slot
          graph := tables.graph.map fun graph => (graph.ensure ⟨slot, 1⟩ .field).1 }, slot)

end Tables

end SlotVersioning
