import Std.Data.ExtTreeMap

/-!
# Version keys

A *slot* is a local variable of a method body, numbered from zero. Field accesses borrow negative
slots. Every slot is split into *versions*, numbered from one; version zero means "not versioned".
A `VersionKey` names one version of one slot. Keys are ordered by slot first and version second,
and the order instances let keys index a `Std.ExtTreeMap`.
-/

namespace SlotVersioning

abbrev Slot := Int
abbrev Version := Nat

structure VersionKey where
  slot : Slot
  version : Version
deriving DecidableEq, Repr

namespace VersionKey

/-- Negative slots stand for field access sites. -/
def isField (key : VersionKey) : Bool := key.slot < 0

protected def toString (key : VersionKey) : String :=
  s!"({key.slot},{key.version})"

instance : ToString VersionKey := ⟨VersionKey.toString⟩

example : toString (VersionKey.mk (-2) 1) = "(-2,1)" := by decide

/-! ## Order -/

instance : Ord VersionKey where
  compare := compareLex (compareOn slot) (compareOn version)

theorem compare_def (left right : VersionKey) :
    compare left right =
      (compare left.slot right.slot).then (compare left.version right.version) := rfl

instance : Std.TransOrd VersionKey :=
  inferInstanceAs (Std.TransCmp (compareLex (compareOn slot) (compareOn version)))

instance : Std.LawfulEqOrd VersionKey where
  eq_of_compare {left right} equal := by
    rw [compare_def, Ordering.then_eq_eq] at equal
    obtain ⟨slots, versions⟩ := equal
    cases left
    cases right
    simp_all

/-- A key precedes another when its slot is smaller, or the slots agree and its version is. -/
def precedes (left right : VersionKey) : Bool := (compare left right).isLT

end VersionKey

end SlotVersioning
