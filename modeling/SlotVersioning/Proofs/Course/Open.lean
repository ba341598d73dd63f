import SlotVersioning.Proofs.Course.Walk

/-!
# Courses that can be gone through

The course of a term that is not stuck can end with either outcome, and so can every condition in
it. So there is a way to every part of it.
-/

namespace SlotVersioning

namespace Course

/-- No part of the course is stuck. -/
def Unstuck : Course → Prop
  | free | settled _ | visit _ => True
  | stuck _ => False
  | chain first rest => first.Unstuck ∧ rest.Unstuck
  | test condition onTrue onFalse => condition.Unstuck ∧ onTrue.Unstuck ∧ onFalse.Unstuck

/-- The course can end with the outcome. -/
def Possible (course : Course) (outcome : Bool) : Prop := ∃ visits, course.Walk visits outcome

/-- What comes before any part of the course can lead there. -/
def Open : Course → Prop
  | free | settled _ | stuck _ | visit _ => True
  | chain first rest => first.Open ∧ rest.Open ∧ ∃ outcome, first.Possible outcome
  | test condition onTrue onFalse =>
      condition.Open ∧ onTrue.Open ∧ onFalse.Open ∧ ∀ outcome, condition.Possible outcome

/-- The course of a term can end with either outcome, and so can every condition in it. -/
structure WellOpen (course : Course) : Prop where
  opened : course.Open
  possible : ∀ outcome, course.Possible outcome

theorem wellOpen_free : WellOpen .free := ⟨trivial, fun outcome => ⟨[], .free outcome⟩⟩

theorem wellOpen_visit (place : Visit) : WellOpen (.visit place) :=
  ⟨trivial, fun outcome => ⟨[place], .visit place outcome⟩⟩

theorem WellOpen.chain {first rest : Course} (before : WellOpen first) (after : WellOpen rest) :
    WellOpen (.chain first rest) where
  opened := ⟨before.opened, after.opened, true, before.possible true⟩
  possible := by
    intro outcome
    rcases before.possible true with ⟨left, walk⟩
    rcases after.possible outcome with ⟨right, rest⟩
    exact ⟨left ++ right, .chain walk rest⟩

private theorem WellOpen.test {condition onTrue onFalse : Course} (tested : WellOpen condition)
    (trueOpen : onTrue.Open) (falseOpen : onFalse.Open)
    (either : ∀ outcome, onTrue.Possible outcome ∨ onFalse.Possible outcome) :
    WellOpen (.test condition onTrue onFalse) where
  opened := ⟨tested.opened, trueOpen, falseOpen, tested.possible⟩
  possible := by
    intro outcome
    rcases either outcome with ⟨right, after⟩ | ⟨right, after⟩
    · rcases tested.possible true with ⟨left, held⟩
      exact ⟨left ++ right, .onTrue held after⟩
    · rcases tested.possible false with ⟨left, failed⟩
      exact ⟨left ++ right, .onFalse failed after⟩

private theorem possible_settled (outcome : Bool) : (settled outcome).Possible outcome :=
  ⟨[], .settled outcome⟩

end Course

namespace Term

open Course

private theorem wellOpen_afterWrite (target : Term) : WellOpen target.afterWrite := by
  unfold afterWrite
  split
  · exact wellOpen_visit .clobber
  · exact wellOpen_free

theorem wellOpen_course (term : Term) (unstuck : term.course.Unstuck) : WellOpen term.course := by
  induction term with
  | nothing => exact wellOpen_free
  | missing | compound => exact unstuck.elim
  | header condition induction => exact induction unstuck
  | «variable» target => exact wellOpen_visit _
  | field expression receiver induction => exact (induction unstuck.1).chain (wellOpen_visit _)
  | assign target value targetInduction valueInduction =>
      unfold course at unstuck ⊢
      split at unstuck
      · exact (valueInduction unstuck.1).chain (wellOpen_visit _)
      · exact (targetInduction unstuck.1).chain
          ((valueInduction unstuck.2.1).chain (wellOpen_afterWrite target))
  | ternary condition onTrue onFalse conditionInduction trueInduction falseInduction =>
      have left := trueInduction unstuck.2.1
      exact (conditionInduction unstuck.1).test left.opened (falseInduction unstuck.2.2).opened
        fun outcome => .inl (left.possible outcome)
  | and left right leftInduction rightInduction =>
      have second := rightInduction unstuck.2.1
      exact (leftInduction unstuck.1).test second.opened trivial
        fun outcome => .inl (second.possible outcome)
  | or left right leftInduction rightInduction =>
      have second := rightInduction unstuck.2.2
      exact (leftInduction unstuck.1).test trivial second.opened
        fun outcome => .inr (second.possible outcome)
  | not operand induction =>
      refine (induction unstuck.1).test trivial trivial fun outcome => ?_
      cases outcome with
      | true => exact .inr (possible_settled true)
      | false => exact .inl (possible_settled false)
  | typeTest operand binding induction =>
      apply (induction unstuck.1).chain
      cases binding with
      | none => exact wellOpen_free
      | invalid expression => exact unstuck.2.elim
      | «variable» target =>
          have bound : (visit (.define target)).Possible true :=
            (wellOpen_visit _).possible true
          refine wellOpen_free.test ⟨trivial, trivial, true, bound⟩ trivial fun outcome => ?_
          cases outcome with
          | true => exact .inl ⟨[.define target], .chain (.visit _ true) (.settled true)⟩
          | false => exact .inr (possible_settled false)
  | increment target induction =>
      unfold course at unstuck ⊢
      split at unstuck
      · exact wellOpen_visit _
      · exact (induction unstuck.1).chain (wellOpen_afterWrite target)
  | chain first rest firstInduction restInduction =>
      exact (firstInduction unstuck.1).chain (restInduction unstuck.2)
  | clobber operands induction => exact (induction unstuck.1).chain (wellOpen_visit _)

end Term

end SlotVersioning
