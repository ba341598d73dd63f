import SlotVersioning.Proofs.Pass.Retaining
import SlotVersioning.Proofs.Phi.Sharing

/-!
# Versions that come to be alone

Without usage versions a read adopts the version that alone reaches it. So it can lose its own
version only where a version comes to be alone. That one version or none is left of a set is passed
on from what enters a node to what reaches its reads and leaves it, but for reads that became merged
versions meanwhile (`relatesSites_heldAlone`).
-/

namespace SlotVersioning

/-- What holds no other version than this one is what it was. -/
def HeldAlone (version : Version) (before after : VersionSet) : Prop :=
  (∀ other ∈ after, other = version) → before = after

/-- A site of the slot became a merged version, and it has this one. -/
def MergesUnder (body : Body) (before after : RunState) (slot : Slot) (version : Version) : Prop :=
  ∃ node place target, body.Reads node place target ∧ target.slot = slot ∧
    after.version target.expression = version ∧ ¬ before.Merged target ∧ after.Merged target

theorem Joinable.heldAlone (version : Version) : Joinable (HeldAlone version) where
  empty := fun _ => rfl
  union := by
    intro left right otherLeft otherRight leftRelated rightRelated alone
    rw [leftRelated fun other member => alone other (VersionSet.mem_union.2 (.inl member)),
      rightRelated fun other member => alone other (VersionSet.mem_union.2 (.inr member))]

namespace HeldAlone

variable {version : Version} {before after : VersionSet}

private theorem singleton (held : HeldAlone version before {version}) : before = {version} :=
  held fun _ member => VersionSet.mem_singleton.1 member

private theorem empty (held : HeldAlone version before ∅) : before = ∅ :=
  held fun other member => absurd member (VersionSet.not_mem_empty other)

private theorem of_singletons {left right : Version} (same : right = version → left = right) :
    HeldAlone version {left} {right} := by
  intro alone
  rw [same (alone right (VersionSet.mem_singleton.2 rfl))]

/-- What came to be alone stays what it is while it is alone, unless it is lost altogether. -/
theorem of_changed {first second third : VersionSet} (changed : ¬ HeldAlone version first second)
    (lasted : (∃ other, other ∈ first) → ∃ other, other ∈ second)
    (lasts : (∃ other, other ∈ second) → ∃ other, other ∈ third) :
    HeldAlone version second third := by
  intro alone
  rcases Classical.not_imp.1 changed with ⟨aloneBefore, differs⟩
  have inhabited : ∃ other, other ∈ second := by
    by_contra nothing
    apply differs
    apply VersionSet.ext
    intro other
    exact iff_of_false (fun member => nothing (lasted ⟨other, member⟩))
      fun member => nothing ⟨other, member⟩
  have same {set : VersionSet} (only : ∀ other ∈ set, other = version)
      (inside : ∃ other, other ∈ set) : set = {version} := by
    apply VersionSet.ext
    intro other
    rw [VersionSet.mem_singleton]
    refine ⟨only other, ?_⟩
    rintro rfl
    rcases inside with ⟨held, member⟩
    exact only held member ▸ member
  rw [same aloneBefore inhabited, same alone (lasts inhabited)]

end HeldAlone

variable {context : Context} {middle after : RunState} {dirty dirtyAfter : DirtyNodes}

/-- A site keeps its version when that did not come to be alone there, unless it became a merged
version. -/
theorem version_of_heldAlone (regular : context.body.Regular)
    (plain : context.config.has .usageVersions = false) (turn : Turn context middle after)
    (settling : Settling context dirty middle) (settlingAfter : Settling context dirtyAfter after)
    {node : NodeId} {place : Visit} {target : VariableSite} {left right : VersionSet}
    (before : ReachesAt context.body middle.tables middle.version node place target left)
    (now : ReachesAt context.body after.tables after.version node place target right)
    (held : HeldAlone (after.version target.expression) left right) :
    after.version target.expression = middle.version target.expression ∨
      place.isRead = true ∧ ¬ middle.Merged target ∧ after.Merged target := by
  have known := Body.lt_size_of_visit now.mem_visits
  have ordinary := regular.ordinary_of_visit now.mem_visits now.visits
  have stable : Stable context.config middle.version middle.tables.merged? place.isRead target
      left := by
    rcases before with ⟨facts, stored, arrives, visits⟩
    exact settling.stable node facts stored target.slot ordinary _ arrives target visits rfl
  cases turn.renewal node known place target right now ordinary with
  | adopts only reads alone version =>
      rw [version, alone] at held
      rw [version]
      exact .inl (stable.adopted plain reads only held.singleton).symm
  | keeps _ _ kept => exact .inl kept
  | mints owns eligible fresh bounded =>
      -- A site without a version is a read, and several versions reach it now.
      have reads : place.isRead = true ∧ 2 ≤ right.cardinality := by
        rcases eligible with unversioned | ⟨reads, several, -⟩
        · have reads : place.isRead = true := by
            by_contra writes
            have owned := stable.owned (.inr (.inl (Bool.eq_false_iff.2 writes)))
            exact owned unversioned
          rcases VersionSet.cases_cardinality right with rfl | ⟨only, rfl⟩ | several
          · exact absurd unversioned (stable.owned (.inr (.inr held.empty)))
          · exact absurd ⟨reads, only, rfl⟩ owns
          · exact ⟨reads, several⟩
        · exact ⟨reads, several⟩
      have here : ReadAt context.body after target right := ⟨node, place, now, reads.1⟩
      refine .inr ⟨reads.1, fun merged => ?_, here.merged reads.2 regular plain settlingAfter⟩
      rcases eligible with unversioned | ⟨-, -, unmerged⟩
      · exact merged.versioned unversioned
      · exact merged.merged unmerged

/-- At a node where the version did not come to be alone, it did not at any of its sites, unless
one became a merged version under it. -/
theorem relatesSites_heldAlone (regular : context.body.Regular)
    (plain : context.config.has .usageVersions = false) (turn : Turn context middle after)
    (settling : Settling context dirty middle) (settlingAfter : Settling context dirtyAfter after)
    {slot : Slot} {version : Version}
    (noMerges : ¬ MergesUnder context.body middle after slot version) {node : NodeId}
    {facts later : Facts} (stored : middle.tables.inFacts[node]? = some facts)
    (storedLater : after.tables.inFacts[node]? = some later) :
    Course.RelatesSites (HeldAlone version) middle.version after.version slot
      ((context.body.course node).arrivals middle.version slot (facts.reaching slot))
      ((context.body.course node).arrivals after.version slot (later.reaching slot)) := by
  intro place left right arrives arrivesLater held target visits same
  subst same
  apply HeldAlone.of_singletons
  rintro rfl
  rcases version_of_heldAlone regular plain turn settling settlingAfter
    ⟨facts, stored, arrives, visits⟩ ⟨later, storedLater, arrivesLater, visits⟩ held with
    kept | ⟨reads, unmerged, merged⟩
  · exact kept.symm
  · have inCourse := Course.mem_visits_of_arrival arrives
    exact absurd ⟨node, place, target, ⟨inCourse, visits, reads⟩, rfl, rfl, unmerged, merged⟩
      noMerges

end SlotVersioning
