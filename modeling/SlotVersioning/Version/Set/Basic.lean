import Std.Data.ExtTreeSet

/-!
# Version sets

A `VersionSet` is a finite set of version numbers. Members below `VersionSet.denseBound` are bits of
one machine word; larger members live in an overflow part that exists only while it holds a member.
The fields keep that shape, so two sets with the same members are equal (`VersionSet.ext`), however
they were built.

The editing operations `add`, `discard`, `absorb`, `restrict` and `exclude` return the edited set
together with a report, and are related to membership by one lemma each.
-/

namespace SlotVersioning

open Std

/-- The number of version numbers that fit the dense word. -/
def VersionSet.denseBound : Nat := 64

structure VersionSet where
  dense : BitVec VersionSet.denseBound
  overflow : Option (ExtTreeSet Nat)
  overflow_nonempty : ∀ large, overflow = some large → large ≠ ∅
  overflow_large : ∀ large, overflow = some large → ∀ version ∈ large,
    VersionSet.denseBound ≤ version
deriving DecidableEq

namespace VersionSet

/-! ## Membership -/

def largeMembers (set : VersionSet) : ExtTreeSet Nat := set.overflow.getD ∅

def contains (set : VersionSet) (version : Nat) : Bool :=
  if version < denseBound then set.dense.getLsbD version else set.largeMembers.contains version

instance : Membership Nat VersionSet where
  mem set version := set.contains version = true

instance (version : Nat) (set : VersionSet) : Decidable (version ∈ set) :=
  inferInstanceAs (Decidable (set.contains version = true))

theorem mem_def {version : Nat} {set : VersionSet} :
    version ∈ set ↔ set.contains version = true := Iff.rfl

theorem denseBound_le_of_mem_largeMembers {set : VersionSet} {version : Nat}
    (member : version ∈ set.largeMembers) : denseBound ≤ version := by
  unfold largeMembers at member
  cases overflow : set.overflow with
  | none => simp [overflow] at member
  | some large =>
      rw [overflow] at member
      exact set.overflow_large large overflow version member

theorem mem_iff {version : Nat} {set : VersionSet} :
    version ∈ set ↔ set.dense.getLsbD version = true ∨ version ∈ set.largeMembers := by
  rw [mem_def, contains]
  by_cases small : version < denseBound
  · have absent : version ∉ set.largeMembers := fun member =>
      absurd (denseBound_le_of_mem_largeMembers member) (by omega)
    simp [small, absent]
  · have clear : set.dense.getLsbD version = false :=
      BitVec.getLsbD_of_ge _ _ (by omega)
    simp [small, clear, ExtTreeSet.contains_iff_mem]

/-! ## Construction -/

/-- The overflow part for the given large members, absent when there are none. -/
def packed (dense : BitVec denseBound) (large : ExtTreeSet Nat)
    (bounded : ∀ version ∈ large, denseBound ≤ version) : VersionSet where
  dense := dense
  overflow := if large = ∅ then none else some large
  overflow_nonempty := by
    intro stored equal
    split at equal <;> simp_all
  overflow_large := by
    intro stored equal
    split at equal <;> simp_all

@[simp] theorem packed_dense (dense : BitVec denseBound) (large : ExtTreeSet Nat)
    (bounded : ∀ version ∈ large, denseBound ≤ version) :
    (packed dense large bounded).dense = dense := rfl

@[simp] theorem packed_largeMembers (dense : BitVec denseBound) (large : ExtTreeSet Nat)
    (bounded : ∀ version ∈ large, denseBound ≤ version) :
    (packed dense large bounded).largeMembers = large := by
  unfold largeMembers packed
  split <;> simp_all

theorem ext_parts {left right : VersionSet} (dense : left.dense = right.dense)
    (large : left.largeMembers = right.largeMembers) : left = right := by
  obtain ⟨leftDense, leftOverflow, leftNonempty, _⟩ := left
  obtain ⟨rightDense, rightOverflow, rightNonempty, _⟩ := right
  cases leftOverflow <;> cases rightOverflow <;> simp_all [largeMembers]

/-- Sets with the same members are equal. -/
theorem ext {left right : VersionSet} (same : ∀ version, version ∈ left ↔ version ∈ right) :
    left = right := by
  refine ext_parts (BitVec.eq_of_getLsbD_eq fun version small => ?_)
    (ExtTreeSet.ext_mem fun version => ?_)
  · have here := same version
    rw [mem_def, mem_def, contains, contains, if_pos small, if_pos small] at here
    exact Bool.eq_iff_iff.2 here
  · by_cases small : version < denseBound
    · constructor <;> intro member <;>
        exact absurd (denseBound_le_of_mem_largeMembers member) (by omega)
    · have here := same version
      rw [mem_def, mem_def, contains, contains, if_neg small, if_neg small] at here
      simpa [ExtTreeSet.contains_iff_mem] using here

theorem denseBound_le_of_mem_empty (version : Nat) (member : version ∈ (∅ : ExtTreeSet Nat)) :
    denseBound ≤ version :=
  absurd member ExtTreeSet.not_mem_empty

def empty : VersionSet := packed (BitVec.zero denseBound) ∅ denseBound_le_of_mem_empty

instance : EmptyCollection VersionSet := ⟨empty⟩
instance : Inhabited VersionSet := ⟨∅⟩

theorem empty_def : (∅ : VersionSet) =
    packed (BitVec.zero denseBound) ∅ denseBound_le_of_mem_empty := rfl

@[simp] theorem not_mem_empty (version : Nat) : version ∉ (∅ : VersionSet) := by
  simp [mem_iff, empty_def]

def isSubset (set other : VersionSet) : Bool :=
  set.dense &&& ~~~other.dense == 0 && set.largeMembers.toList.all other.contains

/-! ## Editing -/

/-- The set with one more member, and whether that member is new. -/
def add (set : VersionSet) (version : Nat) : VersionSet × Bool :=
  if small : version < denseBound then
    ({ set with dense := set.dense ||| BitVec.twoPow _ version }, !set.dense.getLsbD version)
  else
    ({ dense := set.dense
       overflow := some (set.largeMembers.insert version)
       overflow_nonempty := by
        rintro _ ⟨rfl⟩ isEmpty
        exact ExtTreeSet.insert_ne_empty isEmpty
       overflow_large := by
        rintro _ ⟨rfl⟩ other member
        rcases ExtTreeSet.mem_insert.1 member with equal | old
        · rw [Std.compare_eq_iff_eq] at equal
          omega
        · exact denseBound_le_of_mem_largeMembers old },
      !set.largeMembers.contains version)

/-- The set without one member, and whether that member was there. -/
def discard (set : VersionSet) (version : Nat) : VersionSet × Bool :=
  if version < denseBound then
    ({ set with dense := set.dense &&& ~~~BitVec.twoPow _ version }, set.dense.getLsbD version)
  else
    (packed set.dense (set.largeMembers.erase version) fun _ member =>
      denseBound_le_of_mem_largeMembers (ExtTreeSet.mem_of_mem_erase member),
      set.largeMembers.contains version)

/-- The large members with the listed ones, inserted one after the other; it is reported when one of
them is new. -/
def gather (large : ExtTreeSet Nat) (changed : Bool) (versions : List Nat) :
    ExtTreeSet Nat × Bool :=
  versions.foldl (fun (large, changed) version =>
    (large.insert version, changed || !large.contains version)) (large, changed)

theorem mem_gather {large : ExtTreeSet Nat} {changed : Bool} {versions : List Nat}
    {version : Nat} :
    version ∈ (gather large changed versions).1 ↔ version ∈ large ∨ version ∈ versions := by
  unfold gather
  induction versions generalizing large changed with
  | nil => simp
  | cons head tail induction =>
      rw [List.foldl_cons, induction, ExtTreeSet.mem_insert, Std.compare_eq_iff_eq, List.mem_cons]
      grind

/-- The union, and whether it differs from `set`. -/
def absorb (set other : VersionSet) : VersionSet × Bool :=
  let dense := set.dense ||| other.dense
  let changed := dense != set.dense
  match stored : other.overflow with
  | none => ({ set with dense }, changed)
  | some theirs =>
      let ours := gather set.largeMembers changed theirs.toList
      ({ dense
         overflow := some ours.1
         overflow_nonempty := by
          rintro _ ⟨rfl⟩ isEmpty
          refine other.overflow_nonempty theirs stored (ExtTreeSet.ext_mem fun version => ?_)
          have absent : version ∉ ours.1 := isEmpty ▸ ExtTreeSet.not_mem_empty
          rw [mem_gather, not_or, ExtTreeSet.mem_toList] at absent
          exact iff_of_false absent.2 ExtTreeSet.not_mem_empty
         overflow_large := by
          rintro _ ⟨rfl⟩ version member
          rcases mem_gather.1 member with old | new
          · exact denseBound_le_of_mem_largeMembers old
          · exact other.overflow_large theirs stored version (ExtTreeSet.mem_toList.1 new) },
        ours.2)

/-- The intersection, and whether it differs from `set`. -/
def restrict (set other : VersionSet) : VersionSet × Bool :=
  let dense := set.dense &&& other.dense
  let large := set.largeMembers.filter other.largeMembers.contains
  (packed dense large fun _ member =>
      denseBound_le_of_mem_largeMembers (ExtTreeSet.mem_of_mem_filter member),
    dense != set.dense || large.size != set.largeMembers.size)

/-- The difference, and whether it differs from `set`. -/
def exclude (set other : VersionSet) : VersionSet × Bool :=
  let dense := set.dense &&& ~~~other.dense
  let large := set.largeMembers.filter fun version => !other.largeMembers.contains version
  (packed dense large fun _ member =>
      denseBound_le_of_mem_largeMembers (ExtTreeSet.mem_of_mem_filter member),
    dense != set.dense || large.size != set.largeMembers.size)

instance : Insert Nat VersionSet := ⟨fun version set => (set.add version).1⟩
instance : Singleton Nat VersionSet := ⟨fun version => insert version ∅⟩
instance : Union VersionSet := ⟨fun left right => (left.absorb right).1⟩
instance : Inter VersionSet := ⟨fun left right => (left.restrict right).1⟩
instance : SDiff VersionSet := ⟨fun left right => (left.exclude right).1⟩

def ofList (versions : List Nat) : VersionSet :=
  versions.foldl (fun set version => insert version set) ∅

/-! ## Observation -/

def toList (set : VersionSet) : List Nat :=
  (List.range denseBound).filter (fun version => set.dense.getLsbD version) ++
    set.largeMembers.toList

def cardinality (set : VersionSet) : Nat :=
  (List.range denseBound).countP (fun version => set.dense.getLsbD version) +
    set.largeMembers.size

def isEmpty (set : VersionSet) : Bool :=
  set.dense == 0 && set.overflow.isNone

/-- A cursor hands out the members of a version set one at a time: the bits of the dense word, the
lowest one first, and then the members in the overflow part. -/
structure Cursor where
  dense : BitVec denseBound
  large : List Nat
deriving DecidableEq

/-- The cursor that has handed out nothing. -/
def cursor (set : VersionSet) : Cursor := ⟨set.dense, set.largeMembers.toList⟩

/-- The next member, and the cursor behind it. Taking one off the word turns its lowest bit off and
every bit below it on. -/
def Cursor.next? (cursor : Cursor) : Option (Nat × Cursor) :=
  if cursor.dense ≠ 0 then
    some (cursor.dense.ctz.toNat, { cursor with dense := cursor.dense &&& (cursor.dense - 1) })
  else
    match cursor.large with
    | [] => none
    | version :: rest => some (version, { cursor with large := rest })

/-- The version that is handed out first. -/
def first? (set : VersionSet) : Option Nat := set.cursor.next?.map Prod.fst

/-- The members in ascending order between braces, as in `{1, 4, 128}`. -/
protected def toString (set : VersionSet) : String :=
  "\x7b" ++ ", ".intercalate (set.toList.map toString) ++ "\x7d"

instance : ToString VersionSet := ⟨VersionSet.toString⟩

example : (ofList [4, 1, 128, 4]).toList = [1, 4, 128] := by decide
example : ofList [3] = ((ofList [3, 99]).discard 99).1 := by decide

end VersionSet

end SlotVersioning
