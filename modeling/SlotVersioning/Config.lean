import SlotVersioning.Fault

/-!
# Configuration

A configuration selects features and sets two limits. `Config.validate` accepts exactly the
configurations whose features fit together and that allow at least one pass.
-/

namespace SlotVersioning

structure Config where
  features : FeatureSet
  maxPasses : Nat := 1000
  /-- How many nested finally exits may be resolved for one edge. -/
  maxFinallyDepth : Nat := 64
deriving DecidableEq, Repr

namespace Config

/-- One version per definition; merges go to the phi table. -/
def plain : Config where
  features := .ofList [.phiTable, .fieldVersions, .blockLocalFields]

/-- One version per definition and per read; merges go to the version graph. -/
def usage : Config where
  features := .ofList (Feature.all.filter (· ≠ .phiTable))

instance : Inhabited Config := ⟨plain⟩

def has (config : Config) (feature : Feature) : Bool := config.features.contains feature

def enable (config : Config) (features : List Feature) : Config :=
  { config with features := config.features ∪ .ofList features }

def disable (config : Config) (features : List Feature) : Config :=
  { config with features := config.features \ .ofList features }

/-- The features that write to the version graph, in the order in which they are checked. -/
def needingGraph : List Feature := [.liveRound, .usageVersions, .phantomIncrements]

/-- The first reason, if any, why the configuration cannot be honoured. -/
def fault? (config : Config) : Option Fault :=
  match needingGraph.find? fun feature => config.has feature && !config.has .versionGraph with
  | some feature => some (.graphRequired feature)
  | none =>
      if !config.has .usageVersions && !config.has .phiTable then some .mergesUnrecorded
      else if config.maxPasses = 0 then some .noPasses
      else none

def validate (config : Config) : Except Fault Unit :=
  match config.fault? with
  | some fault => .error fault
  | none => .ok ()

example : plain.validate = .ok () := rfl
example : usage.validate = .ok () := rfl
example : (plain.enable [.liveRound]).fault? = some (.graphRequired .liveRound) := rfl

end Config

end SlotVersioning
