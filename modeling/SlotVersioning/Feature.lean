/-!
# Features

The optional parts of a versioning run. A `FeatureSet` is one word with a bit per feature, in the
order of `Feature.all`.
-/

namespace SlotVersioning

inductive Feature
  /-- Every read becomes a version of its own. -/
  | usageVersions
  /-- Reads that several versions reach are recorded in the phi table. -/
  | phiTable
  /-- Field accesses are versioned through negative slots. -/
  | fieldVersions
  /-- The target of an increment gets a phantom version for its new value. -/
  | phantomIncrements
  /-- Versions are linked in the version graph. -/
  | versionGraph
  /-- One more pass records live facts, and dominators are computed. -/
  | liveRound
  /-- Copies of a variable or a field into a variable are recorded. -/
  | copies
  /-- Field slots do not leave their basic block. -/
  | blockLocalFields
  /-- Every version remembers the innermost protected statement around it. -/
  | protectedRanges
deriving DecidableEq, Repr

namespace Feature

def all : List Feature :=
  [usageVersions, phiTable, fieldVersions, phantomIncrements, versionGraph, liveRound,
    copies, blockLocalFields, protectedRanges]

theorem mem_all (feature : Feature) : feature ∈ all := by
  cases feature <;> decide

def bit : Feature → Nat
  | usageVersions => 0
  | phiTable => 1
  | fieldVersions => 2
  | phantomIncrements => 3
  | versionGraph => 4
  | liveRound => 5
  | copies => 6
  | blockLocalFields => 7
  | protectedRanges => 8

example : all.map bit = List.range 9 := rfl

def name : Feature → String
  | usageVersions => "INCREMENT_ON_USAGE"
  | phiTable => "SIMPLE_PHI"
  | fieldVersions => "TRACK_FIELD_VARS"
  | phantomIncrements => "TRACK_PHANTOM_INCREMENTS"
  | versionGraph => "TRACK_VERSION_GRAPH"
  | liveRound => "LIVE_VARIABLE_ROUND"
  | copies => "TRACK_DIRECT_ASSIGNMENTS"
  | blockLocalFields => "BLOCK_FIELD_PROPAGATION"
  | protectedRanges => "PROTECTED_RANGES"

end Feature

structure FeatureSet where
  word : BitVec 9
deriving DecidableEq, Repr

namespace FeatureSet

def contains (features : FeatureSet) (feature : Feature) : Bool :=
  features.word.getLsbD feature.bit

def ofList (features : List Feature) : FeatureSet :=
  ⟨features.foldl (fun word feature => word ||| BitVec.twoPow 9 feature.bit) 0⟩

def toList (features : FeatureSet) : List Feature := Feature.all.filter features.contains

def union (left right : FeatureSet) : FeatureSet := ⟨left.word ||| right.word⟩

def sdiff (left right : FeatureSet) : FeatureSet := ⟨left.word &&& ~~~right.word⟩

instance : EmptyCollection FeatureSet := ⟨ofList []⟩
instance : Union FeatureSet := ⟨union⟩
instance : SDiff FeatureSet := ⟨sdiff⟩

/-- Whether every feature of `required` is in `features`. -/
def includes (features required : FeatureSet) : Bool :=
  required.word &&& ~~~features.word == 0

/-! ## Membership -/

theorem bit_lt (feature : Feature) : feature.bit < 9 := by
  cases feature <;> decide

theorem bit_inj {left right : Feature} : left.bit = right.bit ↔ left = right := by
  cases left <;> cases right <;> decide

@[simp] theorem contains_union (left right : FeatureSet) (feature : Feature) :
    (left ∪ right).contains feature = (left.contains feature || right.contains feature) :=
  BitVec.getLsbD_or

@[simp] theorem contains_sdiff (left right : FeatureSet) (feature : Feature) :
    (left \ right).contains feature = (left.contains feature && !right.contains feature) := by
  change (left.word &&& ~~~right.word).getLsbD feature.bit = _
  simp [contains, bit_lt]

@[simp] theorem contains_ofList (features : List Feature) (feature : Feature) :
    (ofList features).contains feature = decide (feature ∈ features) := by
  suffices general : ∀ start : BitVec 9,
      (features.foldl (fun word feature => word ||| BitVec.twoPow 9 feature.bit) start).getLsbD
        feature.bit = (decide (feature ∈ features) || start.getLsbD feature.bit) by
    simpa [ofList, contains] using general 0
  induction features with
  | nil => simp
  | cons head tail induction =>
      intro start
      rw [List.foldl_cons, induction]
      simp [bit_lt, bit_inj, Bool.or_comm, Bool.or_left_comm, Bool.or_assoc]

end FeatureSet

end SlotVersioning
