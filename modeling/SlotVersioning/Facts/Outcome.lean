import SlotVersioning.Facts.Lemmas
import SlotVersioning.Fault

/-!
# Facts after a test

Evaluating a condition leaves two states behind: one for the paths on which it held and one for
those on which it did not. `OutcomeFacts` carries both. While they are one and the same the holder
is *joined*; the first write to one outcome splits it, and it stays split until it is joined again,
even when both outcomes happen to agree.
-/

namespace SlotVersioning

inductive OutcomeFacts
  | joined (facts : Facts)
  | split (onTrue onFalse : Facts)
deriving DecidableEq

namespace OutcomeFacts

instance : Inhabited OutcomeFacts := ⟨joined ∅⟩

/-! ## Reading -/

def isJoined : OutcomeFacts → Bool
  | joined _ => true
  | split _ _ => false

def ifTrue : OutcomeFacts → Facts
  | joined facts => facts
  | split onTrue _ => onTrue

def ifFalse : OutcomeFacts → Facts
  | joined facts => facts
  | split _ onFalse => onFalse

def branches (outcome : OutcomeFacts) : Facts × Facts := (outcome.ifTrue, outcome.ifFalse)

/-- The single facts of a joined holder; a split one refuses. -/
def single : OutcomeFacts → Except Fault Facts
  | joined facts => .ok facts
  | split _ _ => .error .splitFacts

/-- How many facts the holder stores. -/
def storedCount : OutcomeFacts → Nat
  | joined _ => 1
  | split _ _ => 2

def merged : OutcomeFacts → Facts
  | joined facts => facts
  | split onTrue onFalse => onTrue ∪ onFalse

/-! ## Editing -/

def join (outcome : OutcomeFacts) : OutcomeFacts := joined outcome.merged

def separate (outcome : OutcomeFacts) : OutcomeFacts := split outcome.ifTrue outcome.ifFalse

def setTrue (outcome : OutcomeFacts) (facts : Facts) : OutcomeFacts := split facts outcome.ifFalse

def setFalse (outcome : OutcomeFacts) (facts : Facts) : OutcomeFacts := split outcome.ifTrue facts

def editTrue (outcome : OutcomeFacts) (edit : Facts → Facts) : OutcomeFacts :=
  outcome.setTrue (edit outcome.ifTrue)

def editFalse (outcome : OutcomeFacts) (edit : Facts → Facts) : OutcomeFacts :=
  outcome.setFalse (edit outcome.ifFalse)

/-- Adds facts to the true outcome; adding nothing leaves a joined holder joined. -/
def mergeTrue (outcome : OutcomeFacts) (facts : Facts) : OutcomeFacts :=
  if facts.isEmpty then outcome else outcome.editTrue (· ∪ facts)

/-- Adds facts to the false outcome; adding nothing leaves a joined holder joined. -/
def mergeFalse (outcome : OutcomeFacts) (facts : Facts) : OutcomeFacts :=
  if facts.isEmpty then outcome else outcome.editFalse (· ∪ facts)

def negate : OutcomeFacts → OutcomeFacts
  | joined facts => joined facts
  | split onTrue onFalse => split onFalse onTrue

/-- Edits every stored facts once. -/
def editEach (outcome : OutcomeFacts) (edit : Facts → Facts) : OutcomeFacts :=
  match outcome with
  | joined facts => joined (edit facts)
  | split onTrue onFalse => split (edit onTrue) (edit onFalse)

/-! ## Outcomes after an edit -/

theorem merged_eq (outcome : OutcomeFacts) :
    outcome.merged = outcome.ifTrue ∪ outcome.ifFalse := by
  cases outcome with
  | joined facts =>
      exact Facts.ext fun slot => VersionSet.ext fun version => by simp [merged, ifTrue, ifFalse]
  | split => rfl

/-- The outcomes of a joined holder agree. -/
theorem ifTrue_eq_ifFalse {outcome : OutcomeFacts} (joined : outcome.isJoined = true) :
    outcome.ifTrue = outcome.ifFalse := by
  cases outcome with
  | joined => rfl
  | split => simp [isJoined] at joined

@[simp] theorem ifTrue_join (outcome : OutcomeFacts) : outcome.join.ifTrue = outcome.merged := rfl

@[simp] theorem ifFalse_join (outcome : OutcomeFacts) : outcome.join.ifFalse = outcome.merged := rfl

@[simp] theorem ifTrue_separate (outcome : OutcomeFacts) :
    outcome.separate.ifTrue = outcome.ifTrue := rfl

@[simp] theorem ifFalse_separate (outcome : OutcomeFacts) :
    outcome.separate.ifFalse = outcome.ifFalse := rfl

@[simp] theorem ifTrue_setTrue (outcome : OutcomeFacts) (facts : Facts) :
    (outcome.setTrue facts).ifTrue = facts := rfl

@[simp] theorem ifFalse_setTrue (outcome : OutcomeFacts) (facts : Facts) :
    (outcome.setTrue facts).ifFalse = outcome.ifFalse := rfl

@[simp] theorem ifTrue_setFalse (outcome : OutcomeFacts) (facts : Facts) :
    (outcome.setFalse facts).ifTrue = outcome.ifTrue := rfl

@[simp] theorem ifFalse_setFalse (outcome : OutcomeFacts) (facts : Facts) :
    (outcome.setFalse facts).ifFalse = facts := rfl

@[simp] theorem ifTrue_mergeTrue (outcome : OutcomeFacts) (facts : Facts) :
    (outcome.mergeTrue facts).ifTrue = outcome.ifTrue ∪ facts := by
  unfold mergeTrue
  split
  · next isEmpty =>
      rw [Facts.isEmpty_iff.1 isEmpty]
      exact Facts.ext fun slot => VersionSet.ext fun version => by simp
  · rfl

@[simp] theorem ifFalse_mergeTrue (outcome : OutcomeFacts) (facts : Facts) :
    (outcome.mergeTrue facts).ifFalse = outcome.ifFalse := by
  unfold mergeTrue
  split <;> rfl

@[simp] theorem ifTrue_mergeFalse (outcome : OutcomeFacts) (facts : Facts) :
    (outcome.mergeFalse facts).ifTrue = outcome.ifTrue := by
  unfold mergeFalse
  split <;> rfl

@[simp] theorem ifFalse_mergeFalse (outcome : OutcomeFacts) (facts : Facts) :
    (outcome.mergeFalse facts).ifFalse = outcome.ifFalse ∪ facts := by
  unfold mergeFalse
  split
  · next isEmpty =>
      rw [Facts.isEmpty_iff.1 isEmpty]
      exact Facts.ext fun slot => VersionSet.ext fun version => by simp
  · rfl

@[simp] theorem ifTrue_negate (outcome : OutcomeFacts) :
    outcome.negate.ifTrue = outcome.ifFalse := by
  cases outcome <;> rfl

@[simp] theorem ifFalse_negate (outcome : OutcomeFacts) :
    outcome.negate.ifFalse = outcome.ifTrue := by
  cases outcome <;> rfl

@[simp] theorem ifTrue_editEach (outcome : OutcomeFacts) (edit : Facts → Facts) :
    (outcome.editEach edit).ifTrue = edit outcome.ifTrue := by
  cases outcome <;> rfl

@[simp] theorem ifFalse_editEach (outcome : OutcomeFacts) (edit : Facts → Facts) :
    (outcome.editEach edit).ifFalse = edit outcome.ifFalse := by
  cases outcome <;> rfl

end OutcomeFacts

end SlotVersioning
