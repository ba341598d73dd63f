import SlotVersioning.Version.Set.Basic

/-!
# Version sets and their members

Every operation on version sets, described by membership. The reports of the editing operations are
true exactly when the set changed or, for `discard`, when the member was there; the observations
are those of the ascending list of members.
-/

namespace SlotVersioning

open Std

namespace VersionSet

/-! ## Membership after an edit -/

theorem mem_packed {dense : BitVec denseBound} {large : ExtTreeSet Nat}
    {bounded : ∀ version ∈ large, denseBound ≤ version} {version : Nat} :
    version ∈ packed dense large bounded ↔ dense.getLsbD version = true ∨ version ∈ large := by
  rw [mem_iff, packed_dense, packed_largeMembers]

theorem not_mem_largeMembers {set : VersionSet} {version : Nat} (small : version < denseBound) :
    version ∉ set.largeMembers := fun member =>
  absurd (denseBound_le_of_mem_largeMembers member) (by omega)

theorem getLsbD_eq_false {set : VersionSet} {version : Nat} (large : denseBound ≤ version) :
    set.dense.getLsbD version = false := BitVec.getLsbD_of_ge _ _ large

/-- Another dense word leaves the large members as they are. -/
theorem mem_withDense {set : VersionSet} {dense : BitVec denseBound} {version : Nat} :
    version ∈ { set with dense } ↔ dense.getLsbD version = true ∨ version ∈ set.largeMembers :=
  mem_iff

theorem mem_add {set : VersionSet} {version other : Nat} :
    other ∈ (set.add version).1 ↔ other = version ∨ other ∈ set := by
  unfold add
  split
  · next small =>
      rw [mem_withDense, mem_iff, BitVec.getLsbD_or, BitVec.getLsbD_twoPow]
      by_cases equal : other = version
      · subst equal
        simp [small]
      · have different : version ≠ other := fun reversed => equal reversed.symm
        simp [equal, different]
  · rw [mem_iff, mem_iff]
    change _ ∨ other ∈ set.largeMembers.insert version ↔ _
    rw [ExtTreeSet.mem_insert, Std.compare_eq_iff_eq]
    by_cases equal : other = version
    · subst equal
      simp
    · have different : version ≠ other := fun reversed => equal reversed.symm
      simp [equal, different]

theorem add_report {set : VersionSet} {version : Nat} :
    (set.add version).2 = true ↔ version ∉ set := by
  unfold add
  split
  · next small => simp [mem_iff, not_mem_largeMembers small]
  · next large =>
      simp [mem_iff, getLsbD_eq_false (Nat.le_of_not_lt large), ← ExtTreeSet.contains_iff_mem]

theorem mem_discard {set : VersionSet} {version other : Nat} :
    other ∈ (set.discard version).1 ↔ other ≠ version ∧ other ∈ set := by
  unfold discard
  split
  · next small =>
      rw [mem_withDense, mem_iff, BitVec.getLsbD_and, BitVec.getLsbD_not, BitVec.getLsbD_twoPow]
      by_cases equal : version = other
      · subst equal
        simp [small, not_mem_largeMembers small]
      · have different : other ≠ version := fun reversed => equal reversed.symm
        by_cases otherSmall : other < denseBound
        · simp [equal, different, otherSmall]
        · simp [different, getLsbD_eq_false (Nat.le_of_not_lt otherSmall)]
  · next large =>
      rw [mem_packed, mem_iff, ExtTreeSet.mem_erase, Ne, Std.compare_eq_iff_eq]
      by_cases equal : version = other
      · subst equal
        simp [getLsbD_eq_false (Nat.le_of_not_lt large)]
      · have different : other ≠ version := fun reversed => equal reversed.symm
        simp [equal, different]

theorem discard_report {set : VersionSet} {version : Nat} :
    (set.discard version).2 = true ↔ version ∈ set := by
  unfold discard
  split
  · next small => simp [mem_iff, not_mem_largeMembers small]
  · next large => simp [mem_iff, getLsbD_eq_false (Nat.le_of_not_lt large)]

theorem mem_absorb {set other : VersionSet} {version : Nat} :
    version ∈ (set.absorb other).1 ↔ version ∈ set ∨ version ∈ other := by
  simp only [absorb]
  split
  · next stored =>
      have bare : version ∉ other.largeMembers := by simp [largeMembers, stored]
      rw [mem_withDense, mem_iff, mem_iff, BitVec.getLsbD_or, Bool.or_eq_true]
      grind
  · next theirs stored =>
      have large : other.largeMembers = theirs := by simp [largeMembers, stored]
      rw [mem_iff, mem_iff, mem_iff, large]
      change _ ∨ version ∈ (gather _ _ _).1 ↔ _
      rw [BitVec.getLsbD_or, Bool.or_eq_true, mem_gather, ExtTreeSet.mem_toList]
      grind

theorem mem_restrict {set other : VersionSet} {version : Nat} :
    version ∈ (set.restrict other).1 ↔ version ∈ set ∧ version ∈ other := by
  simp only [restrict]
  rw [mem_packed, mem_iff, mem_iff, BitVec.getLsbD_and, ExtTreeSet.mem_filter, Bool.and_eq_true]
  by_cases small : version < denseBound
  · simp [not_mem_largeMembers small]
  · simp [getLsbD_eq_false (Nat.le_of_not_lt small)]

theorem mem_exclude {set other : VersionSet} {version : Nat} :
    version ∈ (set.exclude other).1 ↔ version ∈ set ∧ version ∉ other := by
  simp only [exclude]
  rw [mem_packed, mem_iff, mem_iff, BitVec.getLsbD_and, BitVec.getLsbD_not,
    ExtTreeSet.mem_filter, Bool.and_eq_true]
  by_cases small : version < denseBound
  · simp [not_mem_largeMembers small, small]
  · simp [getLsbD_eq_false (Nat.le_of_not_lt small), ← ExtTreeSet.contains_iff_mem]

/-! ## Membership in the algebra of sets -/

@[simp] theorem mem_insert {set : VersionSet} {version other : Nat} :
    other ∈ (insert version set : VersionSet) ↔ other = version ∨ other ∈ set := mem_add

@[simp] theorem mem_singleton {version other : Nat} :
    other ∈ ({version} : VersionSet) ↔ other = version := by
  change other ∈ (insert version ∅ : VersionSet) ↔ _
  simp

@[simp] theorem mem_union {left right : VersionSet} {version : Nat} :
    version ∈ left ∪ right ↔ version ∈ left ∨ version ∈ right := mem_absorb

@[simp] theorem mem_inter {left right : VersionSet} {version : Nat} :
    version ∈ left ∩ right ↔ version ∈ left ∧ version ∈ right := mem_restrict

@[simp] theorem mem_sdiff {left right : VersionSet} {version : Nat} :
    version ∈ left \ right ↔ version ∈ left ∧ version ∉ right := mem_exclude

@[simp] theorem mem_ofList {versions : List Nat} {version : Nat} :
    version ∈ ofList versions ↔ version ∈ versions := by
  suffices general : ∀ start : VersionSet,
      version ∈ versions.foldl (fun set version => insert version set) start ↔
        version ∈ versions ∨ version ∈ start by
    simpa [ofList] using general ∅
  induction versions with
  | nil => simp
  | cons head tail induction =>
      intro start
      rw [List.foldl_cons, induction, mem_insert, List.mem_cons]
      grind

/-! ## The list of members -/

@[simp] theorem mem_toList {set : VersionSet} {version : Nat} :
    version ∈ set.toList ↔ version ∈ set := by
  rw [toList, mem_iff, List.mem_append, List.mem_filter, List.mem_range, ExtTreeSet.mem_toList]
  constructor
  · rintro (⟨_, bit⟩ | member)
    · exact .inl bit
    · exact .inr member
  · rintro (bit | member)
    · refine .inl ⟨?_, bit⟩
      by_cases small : version < denseBound
      · exact small
      · rw [getLsbD_eq_false (Nat.le_of_not_lt small)] at bit
        simp at bit
    · exact .inr member

theorem toList_ascending (set : VersionSet) : set.toList.Pairwise (· < ·) := by
  rw [toList, List.pairwise_append]
  refine ⟨List.pairwise_lt_range.filter _, ?_, ?_⟩
  · exact ExtTreeSet.ordered_toList.imp fun less => Nat.compare_eq_lt.1 less
  · intro small smallMember large largeMember
    have := List.mem_range.1 (List.mem_filter.1 smallMember).1
    have := denseBound_le_of_mem_largeMembers (ExtTreeSet.mem_toList.1 largeMember)
    omega

theorem cardinality_eq (set : VersionSet) : set.cardinality = set.toList.length := by
  simp [cardinality, toList, List.countP_eq_length_filter]

theorem isEmpty_iff {set : VersionSet} : set.isEmpty = true ↔ set = ∅ := by
  constructor
  · intro holds
    simp only [VersionSet.isEmpty, Bool.and_eq_true, beq_iff_eq,
      Option.isNone_iff_eq_none] at holds
    exact ext_parts holds.1 (by simp [largeMembers, holds.2, empty_def, packed])
  · intro equal
    subst equal
    rfl

theorem isSubset_iff {set other : VersionSet} :
    set.isSubset other = true ↔ ∀ version ∈ set, version ∈ other := by
  rw [isSubset, Bool.and_eq_true, beq_iff_eq, List.all_eq_true]
  constructor
  · rintro ⟨dense, large⟩ version member
    rcases mem_iff.1 member with bit | member
    · have clear := congrArg (fun word => word.getLsbD version) dense
      simp only [BitVec.getLsbD_and, BitVec.getLsbD_not, bit, Bool.true_and] at clear
      rw [mem_iff]
      by_cases small : version < denseBound
      · simp_all
      · rw [getLsbD_eq_false (Nat.le_of_not_lt small)] at bit
        simp at bit
    · exact mem_def.2 (large version (ExtTreeSet.mem_toList.2 member))
  · intro subset
    constructor
    · refine BitVec.eq_of_getLsbD_eq fun version small => ?_
      have here := subset version
      rw [mem_iff, mem_iff] at here
      have absent : version ∉ other.largeMembers := not_mem_largeMembers small
      simp only [BitVec.getLsbD_and, BitVec.getLsbD_not]
      cases bit : set.dense.getLsbD version <;> simp_all
    · intro version member
      exact mem_def.1 (subset version (mem_iff.2 (.inr (ExtTreeSet.mem_toList.1 member))))

/-! ## Reports -/

theorem gather_report {large : ExtTreeSet Nat} {changed : Bool} {versions : List Nat} :
    (gather large changed versions).2 = true ↔
      changed = true ∨ ∃ version ∈ versions, version ∉ large := by
  unfold gather
  induction versions generalizing large changed with
  | nil => simp
  | cons head tail induction =>
      rw [List.foldl_cons, induction]
      simp only [Bool.or_eq_true, Bool.not_eq_true', ← Bool.not_eq_true,
        ExtTreeSet.contains_iff_mem, ExtTreeSet.mem_insert, Std.compare_eq_iff_eq, List.mem_cons]
      grind

/-- A set changes in its dense word or in its large members. -/
theorem ne_iff_parts {left right : VersionSet} :
    left ≠ right ↔ left.dense ≠ right.dense ∨ left.largeMembers ≠ right.largeMembers := by
  constructor
  · intro different
    by_cases dense : left.dense = right.dense
    · exact .inr fun large => different (ext_parts dense large)
    · exact .inl dense
  · rintro parts rfl
    exact parts.elim (· rfl) (· rfl)

theorem absorb_report {set other : VersionSet} :
    (set.absorb other).2 = true ↔ (set.absorb other).1 ≠ set := by
  rw [ne_iff_parts]
  simp only [absorb]
  split
  · simp [largeMembers]
  · next theirs stored =>
      change (gather _ _ _).2 = true ↔ _ ∨ (gather _ _ _).1 ≠ _
      rw [gather_report, bne_iff_ne]
      refine or_congr_right ⟨?_, fun differs => ?_⟩
      · rintro ⟨version, new, absent⟩ same
        exact absent (same ▸ mem_gather.2 (.inr new))
      · refine Classical.byContradiction fun none => differs (ExtTreeSet.ext_mem fun version => ?_)
        refine mem_gather.trans (or_iff_left_of_imp fun new => ?_)
        exact Classical.byContradiction fun absent => none ⟨version, new, absent⟩

/-- Filtering reports a change by the number of members that are left. -/
theorem filter_report {large : ExtTreeSet Nat} {keeps : Nat → Bool} :
    ((large.filter keeps).size != large.size) = true ↔ large.filter keeps ≠ large := by
  rw [bne_iff_ne, Ne, Ne, ExtTreeSet.size_filter_eq_size_iff, ExtTreeSet.filter_eq_self_iff]

theorem restrict_report {set other : VersionSet} :
    (set.restrict other).2 = true ↔ (set.restrict other).1 ≠ set := by
  rw [ne_iff_parts]
  simp only [restrict, packed_dense, packed_largeMembers]
  rw [Bool.or_eq_true, bne_iff_ne, filter_report]

theorem exclude_report {set other : VersionSet} :
    (set.exclude other).2 = true ↔ (set.exclude other).1 ≠ set := by
  rw [ne_iff_parts]
  simp only [exclude, packed_dense, packed_largeMembers]
  rw [Bool.or_eq_true, bne_iff_ne, filter_report]

end VersionSet

end SlotVersioning
