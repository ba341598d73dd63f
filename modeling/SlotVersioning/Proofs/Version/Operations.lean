import Mathlib.Data.Finset.Sort
import Mathlib.Order.Bounds.Defs
import SlotVersioning.Proofs.Sequences
import SlotVersioning.Proofs.Version.Enumeration
import SlotVersioning.Version.Key

/-!
# Version sets as finite sets

A version set stands for the finite set of its members (`members`). Every operation does to the
members what the operation on finite sets does, on both sides of the border between the dense word
and the overflow part, and reports a change exactly when they change. So whatever sequence of
operations built them, version sets in registers stand for the finite sets that the same sequence
builds, and are equal exactly when those are (`refines_finsets`).
-/

namespace SlotVersioning

open Std

namespace VersionSet

variable {set other : VersionSet} {version : Version}

/-! ## Members -/

def members (set : VersionSet) : Finset Version := set.toList.toFinset

@[simp] theorem mem_members : version ∈ set.members ↔ version ∈ set := by
  rw [members, List.mem_toFinset, mem_toList]

theorem members_inj : set.members = other.members ↔ set = other := by
  constructor
  · intro same
    exact ext fun version => by rw [← mem_members, same, mem_members]
  · rintro rfl
    rfl

@[simp] theorem members_empty : (∅ : VersionSet).members = ∅ := rfl

@[simp] theorem members_add : (set.add version).1.members = insert version set.members := by
  ext
  simp [mem_add]

@[simp] theorem members_discard : (set.discard version).1.members = set.members.erase version := by
  ext
  simp [mem_discard]

@[simp] theorem members_absorb : (set.absorb other).1.members = set.members ∪ other.members := by
  ext
  simp [mem_absorb]

@[simp] theorem members_restrict :
    (set.restrict other).1.members = set.members ∩ other.members := by
  ext
  simp [mem_restrict]

@[simp] theorem members_exclude : (set.exclude other).1.members = set.members \ other.members := by
  ext
  simp [mem_exclude]

@[simp] theorem members_ofList (versions : List Version) :
    (ofList versions).members = versions.toFinset := by
  ext
  simp

@[simp] theorem members_singleton (version : Version) :
    ({version} : VersionSet).members = {version} := by
  ext
  simp

/-! ## Observations -/

theorem toList_eq_sort (set : VersionSet) : set.toList = set.members.sort (· ≤ ·) := by
  refine set.toList_ascending.eq_of_mem_iff set.members.sortedLT_sort.pairwise fun version => ?_
  rw [mem_toList, Finset.mem_sort, mem_members]

private theorem cardinality_eq_card (set : VersionSet) : set.cardinality = set.members.card := by
  rw [cardinality_eq, toList_eq_sort, Finset.length_sort]

/-- The version that is handed out first is the smallest member. -/
private theorem first?_eq_some_iff :
    set.first? = some version ↔ version ∈ set ∧ ∀ other ∈ set, version ≤ other := by
  have ascending := set.toList_ascending
  simp only [← mem_toList]
  rw [first?_eq]
  generalize set.toList = versions at ascending ⊢
  cases versions with
  | nil => simp
  | cons head tail =>
      rw [List.pairwise_cons] at ascending
      rw [List.head?_cons, Option.some.injEq]
      constructor
      · rintro rfl
        refine ⟨List.mem_cons_self, fun other member => ?_⟩
        rcases List.mem_cons.1 member with rfl | later
        · exact Nat.le_refl _
        · exact Nat.le_of_lt (ascending.1 other later)
      · rintro ⟨member, least⟩
        rcases List.mem_cons.1 member with rfl | later
        · rfl
        · exact absurd (ascending.1 version later) (Nat.not_lt.2 (least head List.mem_cons_self))

theorem mem_largeMembers : version ∈ set.largeMembers ↔ version ∈ set ∧ denseBound ≤ version := by
  constructor
  · exact fun member => ⟨mem_iff.2 (.inr member), denseBound_le_of_mem_largeMembers member⟩
  · rintro ⟨member, large⟩
    refine (mem_iff.1 member).resolve_left fun bit => ?_
    exact Bool.false_ne_true ((getLsbD_eq_false large).symm.trans bit)

/-- There is an overflow part when there is a large member, and it holds the large members. -/
private theorem overflow_eq_some_iff {large : ExtTreeSet Nat} :
    set.overflow = some large ↔ (∃ version ∈ set, denseBound ≤ version) ∧
      ∀ version, version ∈ large ↔ version ∈ set ∧ denseBound ≤ version := by
  simp only [← mem_largeMembers]
  cases stored : set.overflow with
  | none =>
      have bare : set.largeMembers = ∅ := by rw [largeMembers, stored, Option.getD_none]
      simp [bare]
  | some kept =>
      have same : set.largeMembers = kept := by rw [largeMembers, stored, Option.getD_some]
      rw [same, Option.some.injEq]
      constructor
      · rintro rfl
        refine ⟨?_, fun _ => Iff.rfl⟩
        by_contra nothing
        refine set.overflow_nonempty kept stored (ExtTreeSet.ext_mem fun version => ?_)
        exact iff_of_false (fun member => nothing ⟨version, member⟩) ExtTreeSet.not_mem_empty
      · rintro ⟨-, each⟩
        exact ExtTreeSet.ext_mem fun version => (each version).symm

/-! ## Sequences of operations -/

/-- What can be done to a version set in a register; an operand is another register. -/
inductive Operation
  | empty
  | singleton (version : Version)
  | collect (versions : List Version)
  | add (version : Version)
  | discard (version : Version)
  | absorb (operand : Nat)
  | restrict (operand : Nat)
  | exclude (operand : Nat)

/-- An edited version set with its report. -/
def reported (result : VersionSet × Bool) : VersionSet × Option Bool := (result.1, some result.2)

/-- The new version set, and what is reported. -/
def Operation.perform (registers : Nat → VersionSet) (set : VersionSet) :
    Operation → VersionSet × Option Bool
  | empty => (∅, none)
  | singleton version => ({version}, none)
  | collect versions => (ofList versions, none)
  | add version => reported (set.add version)
  | discard version => reported (set.discard version)
  | absorb operand => reported (set.absorb (registers operand))
  | restrict operand => reported (set.restrict (registers operand))
  | exclude operand => reported (set.exclude (registers operand))

/-- An edited finite set, and whether the edit changed it. -/
def edited (before after : Finset Version) : Finset Version × Option Bool :=
  (after, some (after ≠ before))

/-- The same operation on finite sets. -/
def Operation.describe (registers : Nat → Finset Version) (members : Finset Version) :
    Operation → Finset Version × Option Bool
  | empty => (∅, none)
  | singleton version => ({version}, none)
  | collect versions => (versions.toFinset, none)
  | add version => edited members (insert version members)
  | discard version => (members.erase version, some (version ∈ members))
  | absorb operand => edited members (members ∪ registers operand)
  | restrict operand => edited members (members ∩ registers operand)
  | exclude operand => edited members (members \ registers operand)

private theorem edited_members {result : VersionSet × Bool} {after : Finset Version}
    (members : result.1.members = after) (report : result.2 = true ↔ result.1 ≠ set) :
    edited set.members after = (reported result).map VersionSet.members id := by
  have changed : result.2 = decide (after ≠ set.members) := by
    rw [Bool.eq_iff_iff, report, decide_eq_true_iff, ← members, Ne, Ne, members_inj]
  rw [edited, ← changed, ← members]
  rfl

private theorem add_changes : (set.add version).2 = true ↔ (set.add version).1 ≠ set := by
  rw [add_report, ← not_iff_not, not_not, not_not]
  constructor
  · intro member
    refine ext fun other => mem_add.trans (or_iff_right_of_imp ?_)
    rintro rfl
    exact member
  · intro same
    exact same ▸ mem_add.2 (.inl rfl)

private theorem Operation.describe_members (registers : Nat → VersionSet) (set : VersionSet)
    (operation : Operation) :
    operation.describe (members ∘ registers) set.members =
      (operation.perform registers set).map members id := by
  cases operation with
  | empty => rfl
  | singleton version => exact congrArg (·, none) (members_singleton version).symm
  | collect versions => exact congrArg (·, none) (members_ofList versions).symm
  | add version => exact edited_members members_add add_changes
  | discard version =>
      have present : (set.discard version).2 = decide (version ∈ set.members) := by
        rw [Bool.eq_iff_iff, discard_report, decide_eq_true_iff, mem_members]
      rw [describe, ← present, ← members_discard]
      rfl
  | absorb operand => exact edited_members members_absorb absorb_report
  | restrict operand => exact edited_members members_restrict restrict_report
  | exclude operand => exact edited_members members_exclude exclude_report

/-- The version sets after a sequence of operations on empty registers, and the reports. -/
def built (operations : List (Nat × Operation)) : (Nat → VersionSet) × List (Option Bool) :=
  Registers.run Operation.perform operations fun _ => ∅

/-- The finite sets after the same sequence, and their reports. -/
def described (operations : List (Nat × Operation)) :
    (Nat → Finset Version) × List (Option Bool) :=
  Registers.run Operation.describe operations fun _ => ∅

private theorem described_eq (operations : List (Nat × Operation)) :
    described operations = ((members ∘ (built operations).1), (built operations).2) := by
  have start : (fun _ => ∅ : Nat → Finset Version) = members ∘ fun _ => ∅ :=
    funext fun _ => members_empty.symm
  rw [described, start, Registers.run_view members id Operation.describe_members, List.map_id_fun]
  rfl

/-- Everything that a version set tells is what the finite set tells. -/
structure Denotes (set : VersionSet) (members : Finset Version) : Prop where
  contains : ∀ version, set.contains version = true ↔ version ∈ members
  enumeration : ∀ versions, set.cursor.Yields versions ↔ versions = members.sort (· ≤ ·)
  cardinality : set.cardinality = members.card
  first : ∀ version, set.first? = some version ↔ IsLeast (members : Set Version) version
  isEmpty : set.isEmpty = true ↔ members = ∅
  overflow : ∀ large, set.overflow = some large ↔
    (∃ version ∈ members, denseBound ≤ version) ∧
      ∀ version, version ∈ large ↔ version ∈ members ∧ denseBound ≤ version

private theorem denotes_members (set : VersionSet) : set.Denotes set.members where
  contains := fun _ => mem_members.symm
  enumeration := fun _ => by rw [yields_iff, toList_eq_sort]
  cardinality := set.cardinality_eq_card
  first := fun _ => by simp only [first?_eq_some_iff, ← mem_members]; rfl
  isEmpty := by rw [isEmpty_iff, ← members_inj, members_empty]
  overflow := fun _ => by simp only [overflow_eq_some_iff, ← mem_members]

/-- Version sets behave as the finite sets that the same operations build, report the same changes,
compare like them, and have one representation for each of them. -/
theorem refines_finsets (operations others : List (Nat × Operation)) (register operand : Nat) :
    (built operations).2 = (described operations).2 ∧
      ((built operations).1 register).Denotes ((described operations).1 register) ∧
      (((built operations).1 register).isSubset ((built others).1 operand) = true ↔
        (described operations).1 register ⊆ (described others).1 operand) ∧
      ((built operations).1 register = (built others).1 operand ↔
        (described operations).1 register = (described others).1 operand) := by
  rw [described_eq, described_eq]
  refine ⟨rfl, denotes_members _, ?_, members_inj.symm⟩
  simp only [isSubset_iff, ← mem_members]
  rfl

end VersionSet

end SlotVersioning
