import Mathlib.Data.List.Forall2
import SlotVersioning.Proofs.Course.Carry

/-!
# Courses at two times

What a course carries at one time is compared with what it carries at another. A relation between
version sets that joins respect is passed on from what enters a course to all that reaches its
visits and leaves it, if the versions written at its sites are related (`Course.relates`).
-/

namespace SlotVersioning

/-- A relation between what reaches a slot at two times that joins respect. -/
structure Joinable (related : VersionSet → VersionSet → Prop) : Prop where
  empty : related ∅ ∅
  union : ∀ {left right otherLeft otherRight}, related left otherLeft →
    related right otherRight → related (left ∪ right) (otherLeft ∪ otherRight)

namespace Joinable

/-- What was there is still there. -/
theorem member (version : Version) :
    Joinable fun before after => version ∈ before → version ∈ after where
  empty := fun inside => inside
  union := by
    intro left right otherLeft otherRight leftRelated rightRelated inside
    rw [VersionSet.mem_union] at inside ⊢
    exact inside.imp leftRelated rightRelated

theorem flip {related : VersionSet → VersionSet → Prop} (joinable : Joinable related) :
    Joinable fun before after => related after before :=
  ⟨joinable.empty, joinable.union⟩

/-- Where something was there still is something. -/
theorem inhabited :
    Joinable fun before after => (∃ version, version ∈ before) → ∃ version, version ∈ after where
  empty := fun inside => inside
  union := by
    rintro left right otherLeft otherRight leftRelated rightRelated ⟨version, inside⟩
    rcases VersionSet.mem_union.1 inside with atLeft | atRight
    · rcases leftRelated ⟨version, atLeft⟩ with ⟨other, found⟩
      exact ⟨other, VersionSet.mem_union.2 (.inl found)⟩
    · rcases rightRelated ⟨version, atRight⟩ with ⟨other, found⟩
      exact ⟨other, VersionSet.mem_union.2 (.inr found)⟩

variable {related : VersionSet → VersionSet → Prop}

/-- Unions of related sets are related. -/
theorem joined {α : Type} (joinable : Joinable related) {sources : List α}
    {brings others : α → VersionSet} {seed : VersionSet} (seeds : related seed seed)
    (each : ∀ source ∈ sources, related (brings source) (others source))
    {before after : VersionSet}
    (joinsBefore : ∀ version,
      version ∈ before ↔ (∃ source ∈ sources, version ∈ brings source) ∨ version ∈ seed)
    (joinsAfter : ∀ version,
      version ∈ after ↔ (∃ source ∈ sources, version ∈ others source) ∨ version ∈ seed) :
    related before after := by
  have union (list : List α) (values : α → VersionSet) (version : Version) :
      version ∈ list.foldr (fun source joined => values source ∪ joined) seed ↔
        (∃ source ∈ list, version ∈ values source) ∨ version ∈ seed := by
    induction list with
    | nil => simp
    | cons head tail induction =>
        rw [List.foldr_cons, VersionSet.mem_union, induction, ← or_assoc]
        simp
  have same (values : α → VersionSet) {set : VersionSet}
      (joins : ∀ version,
        version ∈ set ↔ (∃ source ∈ sources, version ∈ values source) ∨ version ∈ seed) :
      set = sources.foldr (fun source joined => values source ∪ joined) seed :=
    VersionSet.ext fun version => (joins version).trans (union sources values version).symm
  rw [same brings joinsBefore, same others joinsAfter]
  clear joinsBefore joinsAfter same
  induction sources with
  | nil => exact seeds
  | cons head tail induction =>
      apply joinable.union (each head List.mem_cons_self)
      exact induction fun source member => each source (List.mem_cons_of_mem _ member)

end Joinable

/-- What is listed is related to something on the other side. -/
theorem exists_of_forall₂ {α β : Type} {related : α → β → Prop} {left : List α} {right : List β}
    (each : List.Forall₂ related left right) {entry : α} (member : entry ∈ left) :
    ∃ other ∈ right, related entry other := by
  induction each with
  | nil => exact nomatch member
  | @cons head other tail others holds rest induction =>
      rcases List.mem_cons.1 member with rfl | later
      · exact ⟨other, List.mem_cons_self, holds⟩
      · rcases induction later with ⟨found, listed, holds⟩
        exact ⟨found, List.mem_cons_of_mem _ listed, holds⟩

namespace Course

variable {related : VersionSet → VersionSet → Prop} {versions others : ExprId → Version}
  {slot : Slot}

/-- The versions written at the sites of the slot are related where what reaches them is. -/
def RelatesSites (related : VersionSet → VersionSet → Prop) (versions others : ExprId → Version)
    (slot : Slot) (before after : List (Visit × VersionSet)) : Prop :=
  ∀ place left right, (place, left) ∈ before → (place, right) ∈ after → related left right →
    ∀ target, place.site? = some target → target.slot = slot →
      related {versions target.expression} {others target.expression}

theorem RelatesSites.mono {before after fewer lesser : List (Visit × VersionSet)}
    (sites : RelatesSites related versions others slot before after)
    (first : ∀ entry ∈ fewer, entry ∈ before) (second : ∀ entry ∈ lesser, entry ∈ after) :
    RelatesSites related versions others slot fewer lesser :=
  fun place left right leftMember rightMember =>
    sites place left right (first _ leftMember) (second _ rightMember)

/-- All that leaves a course is related at the two times, and all that reaches its visits. -/
theorem relates (joinable : Joinable related) {course : Course} {reaching later : VersionSet}
    (entering : related reaching later)
    (sites : RelatesSites related versions others slot
      (course.arrivals versions slot reaching) (course.arrivals others slot later)) :
    (∀ outcome, related (course.carry versions slot reaching outcome)
      (course.carry others slot later outcome)) ∧
    List.Forall₂ (fun left right => left.1 = right.1 ∧ related left.2 right.2)
      (course.arrivals versions slot reaching) (course.arrivals others slot later) := by
  induction course generalizing reaching later with
  | free => exact ⟨fun _ => entering, .nil⟩
  | settled fixed =>
      refine ⟨fun outcome => ?_, .nil⟩
      unfold carry
      split
      · exact entering
      · exact joinable.empty
  | stuck => exact ⟨fun _ => joinable.empty, .nil⟩
  | visit place =>
      refine ⟨fun _ => ?_, .cons ⟨rfl, entering⟩ .nil⟩
      unfold carry Visit.carry
      cases visits : place.site? with
      | none => exact entering
      | some target =>
          dsimp only
          split
          · next same =>
              exact sites place reaching later (List.mem_singleton.2 rfl) (List.mem_singleton.2 rfl)
                entering target visits same
          · exact entering
  | chain first rest firstInduction restInduction =>
      have before := firstInduction entering (sites.mono
        (fun _ member => List.mem_append_left _ member)
        fun _ member => List.mem_append_left _ member)
      have after := restInduction (joinable.union (before.1 true) (before.1 false)) (sites.mono
        (fun _ member => List.mem_append_right _ member)
        fun _ member => List.mem_append_right _ member)
      exact ⟨after.1, List.rel_append before.2 after.2⟩
  | test condition onTrue onFalse conditionInduction trueInduction falseInduction =>
      have tested := conditionInduction entering (sites.mono
        (fun _ member => List.mem_append_left _ member)
        fun _ member => List.mem_append_left _ member)
      have held := trueInduction (tested.1 true) (sites.mono
        (fun _ member => List.mem_append_right _ (List.mem_append_left _ member))
        fun _ member => List.mem_append_right _ (List.mem_append_left _ member))
      have failed := falseInduction (tested.1 false) (sites.mono
        (fun _ member => List.mem_append_right _ (List.mem_append_right _ member))
        fun _ member => List.mem_append_right _ (List.mem_append_right _ member))
      refine ⟨fun outcome => joinable.union (held.1 outcome) (failed.1 outcome), ?_⟩
      exact List.rel_append tested.2 (List.rel_append held.2 failed.2)

end Course

end SlotVersioning
