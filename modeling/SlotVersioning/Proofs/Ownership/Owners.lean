import SlotVersioning.Proofs.Graph.Nodes
import SlotVersioning.Proofs.Run.Stable

/-!
# Owners of versions

Every version of a variable is numbered for one owner: something that enters from outside, a site
that keeps a version of its own, a merged version of the phi table, a phantom or a phi input. In a
state that keeps its `Ledger`, no version has two owners, all of them were numbered, and what is
written could also be held by facts. A version that was just numbered is `Free`, and may be given to
a new owner.
-/

namespace SlotVersioning

open VersionGraph

inductive Owner
  /-- The position among all that enters. -/
  | seed (index : Nat)
  | site (expression : ExprId)
  | merged (key : VersionKey)
  /-- The phantom of an incremented version. -/
  | phantom (key : VersionKey)
  | input (key : VersionKey)
deriving DecidableEq, Repr

namespace Tables

/-- The version is that of a phi input. -/
def HasInput (tables : Tables) (key : VersionKey) : Prop :=
  ∃ graph, tables.graph = some graph ∧ graph.Has key .phiInput

end Tables

/-- Who may own versions, besides what the tables of a run list. -/
structure Claimants where
  arena : Arena
  /-- The slots that enter from outside, in the order in which their versions are numbered. -/
  arrivals : List Slot
  /-- The variables whose versions belong to them. -/
  keeps : ExprId → Prop

/-- The owner holds the version, given the tables and the versions that are written. What enters has
the versions of its slot that come first. -/
def Claimants.Holds (claimants : Claimants) (tables : Tables) (version : ExprId → Nat) :
    Owner → VersionKey → Prop
  | .seed index, key => claimants.arrivals[index]? = some key.slot ∧
      key.version = (claimants.arrivals.take (index + 1)).count key.slot
  | .site expression, key => claimants.keeps expression ∧ version expression ≠ 0 ∧
      ∃ target, claimants.arena.site? expression = some target ∧
        key = ⟨target.slot, version expression⟩
  | .merged merged, key => key = merged ∧ (tables.merged? merged).isSome
  | .phantom incremented, key => tables.phantom? incremented = some key
  | .input input, key => key = input ∧ tables.HasInput input

namespace RunState

/-- A version that facts may hold: it was numbered, and is no phi input. -/
structure Admits (state : RunState) (slot : Slot) (version : Nat) : Prop where
  positive : 1 ≤ version
  numbered : version ≤ state.last slot
  plain : ¬ state.tables.HasInput ⟨slot, version⟩

/-- Facts that hold versions of variables only that they may hold. -/
def Admitted (state : RunState) (facts : Facts) : Prop :=
  ∀ slot, 0 ≤ slot → ∀ version ∈ facts.reaching slot, state.Admits slot version

namespace Admitted

variable {state : RunState} {facts left right : Facts}

theorem empty (state : RunState) : state.Admitted ∅ := by
  intro slot _ version member
  rw [Facts.reaching_empty] at member
  exact absurd member (VersionSet.not_mem_empty version)

theorem union (first : state.Admitted left) (second : state.Admitted right) :
    state.Admitted (left ∪ right) := by
  intro slot ordinary version member
  rw [Facts.reaching_union, VersionSet.mem_union] at member
  exact member.elim (first slot ordinary version) (second slot ordinary version)

theorem of_subset (admitted : state.Admitted right)
    (subset : ∀ slot, ∀ version ∈ left.reaching slot, version ∈ right.reaching slot) :
    state.Admitted left :=
  fun slot ordinary version member =>
    admitted slot ordinary version (subset slot version member)

theorem withoutFields (admitted : state.Admitted facts) : state.Admitted facts.withoutFields := by
  refine admitted.of_subset fun slot version member => ?_
  rw [Facts.reaching_withoutFields] at member
  split at member
  · exact member
  · exact absurd member (VersionSet.not_mem_empty version)

theorem pin (admitted : state.Admitted facts) {slot : Slot} {version : Nat}
    (good : 0 ≤ slot → state.Admits slot version) : state.Admitted (facts.pin slot version) := by
  intro other ordinary found member
  rw [Facts.reaching_pin] at member
  split at member
  · next same =>
      subst same
      rw [VersionSet.mem_singleton] at member
      exact member ▸ good ordinary
  · exact admitted other ordinary found member

end Admitted

end RunState

namespace Claimants

variable (claimants : Claimants)

/-- The owner holds the version in this state. -/
def Owns (state : RunState) (owner : Owner) (key : VersionKey) : Prop :=
  claimants.Holds state.tables state.version owner key

structure Ledger (state : RunState) : Prop where
  unique : ∀ first second key, claimants.Owns state first key → claimants.Owns state second key →
    first = second
  numbered : ∀ owner key, claimants.Owns state owner key →
    1 ≤ key.version ∧ key.version ≤ state.last key.slot
  written : ∀ expression target, claimants.arena.site? expression = some target →
    state.version expression ≠ 0 → state.Admits target.slot (state.version expression)
  negative : state.FieldsNegative
  live : ∀ graph facts, state.tables.graph = some graph → graph.Records facts →
    state.Admitted facts

/-- A version that was numbered and has no owner yet. -/
structure Free (state : RunState) (key : VersionKey) : Prop where
  positive : 1 ≤ key.version
  numbered : key.version ≤ state.last key.slot
  unowned : ∀ owner, ¬ claimants.Owns state owner key

/-- Versions that get an owner were not numbered before. -/
structure Advances (before after : RunState) : Prop where
  last : ∀ slot, before.last slot ≤ after.last slot
  owned : ∀ owner key, claimants.Owns after owner key →
    claimants.Owns before owner key ∨ before.last key.slot < key.version

variable {claimants} {first before middle after : RunState} {owner : Owner} {key : VersionKey}

/-! ## Steps that give nothing away -/

namespace Advances

theorem refl (state : RunState) : claimants.Advances state state :=
  ⟨fun _ => Nat.le_refl _, fun _ _ owns => .inl owns⟩

theorem trans (left : claimants.Advances before middle) (right : claimants.Advances middle after) :
    claimants.Advances before after where
  last := fun slot => Nat.le_trans (left.last slot) (right.last slot)
  owned := by
    intro owner key owns
    rcases right.owned owner key owns with old | new
    · exact left.owned owner key old
    · exact .inr (Nat.lt_of_le_of_lt (left.last key.slot) new)

theorem admits (advances : claimants.Advances before after) {slot : Slot} {version : Nat}
    (admits : before.Admits slot version) : after.Admits slot version where
  positive := admits.positive
  numbered := Nat.le_trans admits.numbered (advances.last slot)
  plain := by
    intro isInput
    rcases advances.owned (.input ⟨slot, version⟩) ⟨slot, version⟩ ⟨rfl, isInput⟩ with old | new
    · exact admits.plain old.2
    · exact absurd new (Nat.not_lt_of_le admits.numbered)

theorem admitted (advances : claimants.Advances before after) {facts : Facts}
    (admitted : before.Admitted facts) : after.Admitted facts :=
  fun slot ordinary version member => advances.admits (admitted slot ordinary version member)

theorem free (advances : claimants.Advances before after) (free : claimants.Free before key) :
    claimants.Free after key where
  positive := free.positive
  numbered := Nat.le_trans free.numbered (advances.last key.slot)
  unowned := by
    intro owner owns
    rcases advances.owned owner key owns with old | new
    · exact free.unowned owner old
    · exact absurd new (Nat.not_lt_of_le free.numbered)

end Advances

/-- Nobody owns more than before, and numbers only grow. -/
structure Narrows (claimants : Claimants) (before after : RunState) : Prop where
  last : ∀ slot, before.last slot ≤ after.last slot
  owned : ∀ owner key, claimants.Owns after owner key → claimants.Owns before owner key

theorem Narrows.advances (narrows : claimants.Narrows before after) :
    claimants.Advances before after :=
  ⟨narrows.last, fun owner key owns => .inl (narrows.owned owner key owns)⟩

/-- While versions, the phi table and the phantoms stay, only phi inputs find new owners. -/
theorem owned_of_same (versions : after.versions = before.versions)
    (phi : after.tables.phi = before.tables.phi)
    (phantoms : after.tables.phantoms = before.tables.phantoms)
    (owns : claimants.Owns after owner key) :
    claimants.Owns before owner key ∨ owner = .input key ∧ after.tables.HasInput key := by
  cases owner with
  | seed index => exact .inl owns
  | site expression =>
      unfold Owns Holds RunState.version at owns
      rw [versions] at owns
      exact .inl owns
  | merged merged =>
      obtain ⟨equal, known⟩ := owns
      rw [Tables.merged?_congr phi] at known
      exact .inl ⟨equal, known⟩
  | phantom incremented =>
      exact .inl ((Tables.phantom?_congr phantoms incremented).symm.trans owns)
  | input input =>
      obtain ⟨rfl, isInput⟩ := owns
      exact .inr ⟨rfl, isInput⟩

theorem narrows_of_same (versions : after.versions = before.versions)
    (phi : after.tables.phi = before.tables.phi)
    (phantoms : after.tables.phantoms = before.tables.phantoms)
    (inputs : ∀ key, after.tables.HasInput key → before.tables.HasInput key)
    (last : ∀ slot, before.last slot ≤ after.last slot) : claimants.Narrows before after where
  last := last
  owned := by
    intro owner key owns
    rcases owned_of_same versions phi phantoms owns with old | ⟨rfl, isInput⟩
    · exact old
    · exact ⟨rfl, inputs key isInput⟩

theorem Ledger.narrow (ledger : claimants.Ledger before)
    (narrows : claimants.Narrows before after) (versions : after.versions = before.versions)
    (negative : after.FieldsNegative)
    (live : ∀ graph facts, after.tables.graph = some graph → graph.Records facts →
      (∃ stored, before.tables.graph = some stored ∧ stored.Records facts) ∨
        before.Admitted facts) : claimants.Ledger after where
  unique := fun first second key left right =>
    ledger.unique first second key (narrows.owned _ _ left) (narrows.owned _ _ right)
  numbered := by
    intro owner key owns
    obtain ⟨positive, bounded⟩ := ledger.numbered owner key (narrows.owned owner key owns)
    exact ⟨positive, Nat.le_trans bounded (narrows.last key.slot)⟩
  written := by
    intro expression target found versioned
    unfold RunState.version at versioned ⊢
    rw [versions] at versioned ⊢
    exact narrows.advances.admits (ledger.written expression target found versioned)
  negative := negative
  live := by
    intro graph facts stored recorded
    apply narrows.advances.admitted
    rcases live graph facts stored recorded with ⟨old, found, before⟩ | admitted
    · exact ledger.live old facts found before
    · exact admitted

/-! ## A version finds its owner -/

/-- A version that nobody owns is given to one owner, and nothing else changes hands. -/
theorem Ledger.claim (ledger : claimants.Ledger before)
    (unowned : ∀ other, ¬ claimants.Owns before other key) (positive : 1 ≤ key.version)
    (numbered : key.version ≤ after.last key.slot)
    (last : ∀ slot, before.last slot ≤ after.last slot)
    (owned : ∀ other held, claimants.Owns after other held →
      claimants.Owns before other held ∨ other = owner ∧ held = key)
    (written : ∀ expression target, claimants.arena.site? expression = some target →
      after.version expression ≠ 0 → after.Admits target.slot (after.version expression))
    (negative : after.FieldsNegative)
    (live : ∀ graph facts, after.tables.graph = some graph → graph.Records facts →
      after.Admitted facts) : claimants.Ledger after where
  unique := by
    intro left right held leftOwns rightOwns
    rcases owned left held leftOwns with leftOld | ⟨rfl, rfl⟩
    · rcases owned right held rightOwns with rightOld | ⟨rfl, rfl⟩
      · exact ledger.unique left right held leftOld rightOld
      · exact absurd leftOld (unowned left)
    · rcases owned right held rightOwns with rightOld | ⟨rfl, -⟩
      · exact absurd rightOld (unowned right)
      · rfl
  numbered := by
    intro other held owns
    rcases owned other held owns with old | ⟨rfl, rfl⟩
    · obtain ⟨least, bounded⟩ := ledger.numbered other held old
      exact ⟨least, Nat.le_trans bounded (last held.slot)⟩
    · exact ⟨positive, numbered⟩
  written := written
  negative := negative
  live := live

end Claimants

end SlotVersioning
