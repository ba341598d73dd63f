import Mathlib.Data.Bool.Basic
import Mathlib.Logic.Function.Basic
import SlotVersioning.Facts.Outcome

/-!
# Facts after a test as two independent facts

A holder of outcome facts stores them once while both outcomes share them. Read by outcome it is a
pair of independent facts all the same: every operation commutes with `OutcomeFacts.on`
(`Operation.on_perform`), and so does every sequence of them (`on_after`). Whether a holder is joined
is all that the pair does not show. A joined holder has equal outcomes, and one that is split stays
split until an operation joins it (`isJoined_after`).
-/

namespace SlotVersioning

namespace OutcomeFacts

/-- The facts on the paths on which the test had the given outcome. -/
def on (outcome : OutcomeFacts) : Bool → Facts
  | true => outcome.ifTrue
  | false => outcome.ifFalse

/-! ## Operations -/

/-- What can be done to a holder. `fill` makes a joined one, be it new or in place of the old, and a
change may make anything of the facts that it is given. -/
inductive Operation
  | fill (facts : Facts)
  | set (side : Bool) (facts : Facts)
  | merge (side : Bool) (facts : Facts)
  | edit (side : Bool) (change : Facts → Facts)
  | editEach (change : Facts → Facts)
  | negate
  | separate
  | join

namespace Operation

def perform (outcome : OutcomeFacts) : Operation → OutcomeFacts
  | fill facts => joined facts
  | set true facts => outcome.setTrue facts
  | set false facts => outcome.setFalse facts
  | merge true facts => outcome.mergeTrue facts
  | merge false facts => outcome.mergeFalse facts
  | edit true change => outcome.editTrue change
  | edit false change => outcome.editFalse change
  | editEach change => outcome.editEach change
  | negate => outcome.negate
  | separate => outcome.separate
  | join => outcome.join

/-- The same operation on two facts that are always stored apart. -/
def describe (pair : Bool → Facts) : Operation → Bool → Facts
  | fill facts => fun _ => facts
  | set side facts => Function.update pair side facts
  | merge side facts => Function.update pair side (pair side ∪ facts)
  | edit side change => Function.update pair side (change (pair side))
  | editEach change => fun side => change (pair side)
  | negate => fun side => pair !side
  | separate => pair
  | join => fun _ => pair true ∪ pair false

/-- The one outcome that the operation writes to. -/
def side? : Operation → Option Bool
  | set side _ | merge side _ | edit side _ => some side
  | _ => none

/-- Whether the holder is joined afterwards, whatever it was before. -/
def joins : Operation → Bool
  | fill _ | join => true
  | _ => false

theorem on_perform (outcome : OutcomeFacts) (operation : Operation) :
    (operation.perform outcome).on = operation.describe outcome.on := by
  funext side
  cases operation with
  | fill facts => cases side <;> rfl
  | set changed facts | edit changed facts => cases changed <;> cases side <;> rfl
  | merge changed facts => cases changed <;> cases side <;> simp [perform, describe, on]
  | editEach change | negate => cases side <;> simp [perform, describe, on]
  | separate => cases side <;> rfl
  | join => cases side <;> exact merged_eq outcome

/-- An operation that writes to one outcome leaves the other one alone. -/
private theorem describe_other {operation : Operation} {side : Bool}
    (writes : operation.side? = some side) (pair : Bool → Facts) :
    operation.describe pair (!side) = pair !side := by
  cases operation with
  | set changed | merge changed | edit changed =>
      obtain rfl := Option.some.inj writes
      exact Function.update_of_ne (Bool.not_ne_self changed) _ pair
  | fill | editEach | negate | separate | join => exact nomatch writes

private theorem isJoined_perform {outcome : OutcomeFacts} {operation : Operation}
    (split : outcome.isJoined = false) (keeps : operation.joins = false) :
    (operation.perform outcome).isJoined = false := by
  cases outcome with
  | joined => exact nomatch split
  | split onTrue onFalse =>
      cases operation with
      | fill | join => exact nomatch keeps
      | set side | edit side => cases side <;> rfl
      | merge side facts =>
          cases side
          · exact (apply_ite isJoined _ _ _).trans (ite_self _)
          · exact (apply_ite isJoined _ _ _).trans (ite_self _)
      | editEach | negate | separate => rfl

end Operation

/-! ## Sequences of operations -/

/-- The holder after a sequence of operations. -/
def after (start : OutcomeFacts) (operations : List Operation) : OutcomeFacts :=
  operations.foldl Operation.perform start

/-- The two facts after the same sequence. -/
def described (start : Bool → Facts) (operations : List Operation) : Bool → Facts :=
  operations.foldl Operation.describe start

theorem on_after (start : OutcomeFacts) (operations : List Operation) :
    (start.after operations).on = described start.on operations :=
  (List.foldl_hom on fun outcome operation => (operation.on_perform outcome).symm).symm

theorem isJoined_after {start : OutcomeFacts} (split : start.isJoined = false)
    (operations : List Operation) (keep : ∀ operation ∈ operations, operation.joins = false) :
    (start.after operations).isJoined = false := by
  induction operations generalizing start with
  | nil => exact split
  | cons operation rest induction =>
      rw [List.forall_mem_cons] at keep
      exact induction (Operation.isJoined_perform split keep.1) keep.2

/-- Everything that a holder tells about the facts is what the pair says. -/
structure Tells (outcome : OutcomeFacts) (pair : Bool → Facts) : Prop where
  ifTrue : outcome.ifTrue = pair true
  ifFalse : outcome.ifFalse = pair false
  branches : outcome.branches = (pair true, pair false)
  merged : outcome.merged = pair true ∪ pair false
  joined : outcome.isJoined = true → pair true = pair false

private theorem tells_on (outcome : OutcomeFacts) : outcome.Tells outcome.on where
  ifTrue := rfl
  ifFalse := rfl
  branches := rfl
  merged := outcome.merged_eq
  joined := ifTrue_eq_ifFalse

/-- A holder behaves as two facts that are always stored apart. What is written to one outcome does
not change the other, and a holder that is split stays so until it is joined or filled. -/
theorem simulates_pair (start : OutcomeFacts) (operations later : List Operation) :
    (start.after operations).Tells (described start.on operations) ∧
      (∀ operation side, operation.side? = some side →
        (start.after (operations ++ [operation])).on (!side) =
          (start.after operations).on !side) ∧
      ((start.after operations).isJoined = false →
        (∀ operation ∈ later, operation.joins = false) →
        (start.after (operations ++ later)).isJoined = false) := by
  refine ⟨?_, fun operation side writes => ?_, fun split keep => ?_⟩
  · rw [← on_after]
    exact tells_on _
  · rw [after, List.foldl_append]
    exact (congrFun (operation.on_perform _) _).trans (operation.describe_other writes _)
  · rw [after, List.foldl_append]
    exact isJoined_after split later keep

end OutcomeFacts

end SlotVersioning
