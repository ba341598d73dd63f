import Mathlib.Data.List.Perm.Subperm
import Mathlib.Data.List.Nodup
import SlotVersioning.Facts.Lemmas

/-!
# Facts in order

Facts are below others when every version that reaches a slot reaches it there too. What a run does
to facts keeps this order, slot by slot.

`Facts.pairs` lists the facts as slots with a version each. More facts have more pairs, so facts
that only grow and stay within a list of pairs grow no more often than the list is long.
-/

namespace SlotVersioning

namespace Facts

instance : HasSubset Facts :=
  ⟨fun left right => ∀ slot, ∀ version ∈ left.reaching slot, version ∈ right.reaching slot⟩

variable {left right : Facts}

theorem subset_refl (facts : Facts) : facts ⊆ facts := fun _ _ member => member

theorem empty_subset (facts : Facts) : ∅ ⊆ facts := by
  intro slot version member
  rw [reaching_empty] at member
  exact absurd member (VersionSet.not_mem_empty version)

/-! ## Operations keep the order -/

section SubsetAt

/-- The order of facts, for one version of one slot. -/
def SubsetAt (left : Facts) (slot : Slot) (version : Version) (right : Facts) : Prop :=
  version ∈ left.reaching slot → version ∈ right.reaching slot

variable {slot : Slot} {version : Version}

theorem union_subsetAt_union {otherLeft otherRight : Facts}
    (first : left.SubsetAt slot version right)
    (second : otherLeft.SubsetAt slot version otherRight) :
    (left ∪ otherLeft).SubsetAt slot version (right ∪ otherRight) := by
  intro member
  rw [reaching_union, VersionSet.mem_union] at member ⊢
  exact member.imp first second

theorem pin_subsetAt_pin (subset : left.SubsetAt slot version right) (pinned : Slot)
    (only : Version) : (left.pin pinned only).SubsetAt slot version (right.pin pinned only) := by
  intro member
  by_cases same : slot = pinned
  · rw [reaching_pin, if_pos same] at member ⊢
    exact member
  · rw [reaching_pin, if_neg same] at member ⊢
    exact subset member

theorem withoutFields_subsetAt_withoutFields (subset : left.SubsetAt slot version right) :
    left.withoutFields.SubsetAt slot version right.withoutFields := by
  intro member
  by_cases ordinary : 0 ≤ slot
  · rw [reaching_withoutFields, if_pos ordinary] at member ⊢
    exact subset member
  · rw [reaching_withoutFields, if_neg ordinary] at member ⊢
    exact member

end SubsetAt

theorem pin_pin (facts : Facts) (slot : Slot) (version : Version) :
    (facts.pin slot version).pin slot version = facts.pin slot version := by
  apply ext
  intro other
  simp only [reaching_pin]
  split <;> rfl

/-! ## Facts as pairs -/

/-- The slots, each with one version that reaches it. -/
def pairs (facts : Facts) : List (Slot × Version) :=
  facts.slots.flatMap fun slot => (facts.reaching slot).toList.map (slot, ·)

theorem mem_pairs {facts : Facts} {slot : Slot} {version : Version} :
    (slot, version) ∈ facts.pairs ↔ version ∈ facts.reaching slot := by
  have listed : version ∈ facts.reaching slot → slot ∈ facts.slots := by
    intro member
    rw [mem_slots]
    intro empty
    rw [empty] at member
    exact VersionSet.not_mem_empty version member
  unfold pairs
  simp only [List.mem_flatMap, List.mem_map, Prod.mk.injEq, VersionSet.mem_toList]
  constructor
  · rintro ⟨_, _, _, member, rfl, rfl⟩
    exact member
  · intro member
    exact ⟨slot, listed member, version, member, rfl, rfl⟩

theorem nodup_pairs (facts : Facts) : facts.pairs.Nodup := by
  have slots : facts.slots.Nodup := facts.slots_ascending.imp fun less => Int.ne_of_lt less
  unfold pairs
  rw [List.nodup_flatMap]
  constructor
  · intro slot _
    apply List.Nodup.map fun _ _ equal => (Prod.mk.inj equal).2
    exact (facts.reaching slot).toList_ascending.imp fun less => Nat.ne_of_lt less
  · apply slots.imp
    intro slot other different pair inSlot inOther
    rcases List.mem_map.1 inSlot with ⟨_, -, rfl⟩
    rcases List.mem_map.1 inOther with ⟨_, -, equal⟩
    exact different (Prod.mk.inj equal).1.symm

theorem pairs_subset (subset : left ⊆ right) : left.pairs ⊆ right.pairs := by
  rintro ⟨slot, version⟩ member
  rw [mem_pairs] at member ⊢
  exact subset slot version member

theorem length_pairs_le_of_subset {facts : Facts} {list : List (Slot × Version)}
    (subset : facts.pairs ⊆ list) : facts.pairs.length ≤ list.length :=
  (facts.nodup_pairs.subperm subset).length_le

/-- Facts with as many pairs as some below them are the same. -/
theorem eq_of_length_pairs (subset : left ⊆ right)
    (length : right.pairs.length ≤ left.pairs.length) : left = right := by
  have same := (left.nodup_pairs.subperm (pairs_subset subset)).perm_of_length_le length
  apply ext
  intro slot
  apply VersionSet.ext
  intro version
  rw [← mem_pairs, ← mem_pairs]
  exact same.mem_iff

end Facts

end SlotVersioning
