import SlotVersioning.Proofs.Run.Inversion

/-!
# Courses

The course of a term is what its evaluation does, reduced to the places that it visits and the tests
between them. Every operator of a condition becomes a test with fixed outcomes: `a && b` tests `a`,
goes on with `b` where `a` held, and is false where it did not.

`evaluate_branches` is the main statement: evaluating a term is running its course.
-/

namespace SlotVersioning

/-- One place that an evaluation visits. -/
inductive Visit
  | read (target : VariableSite)
  | define (target : VariableSite)
  /-- A definition by an assignment from `value`. -/
  | assign (target : VariableSite) (value : Term)
  | increment (target : VariableSite)
  | field (expression : ExprId)
  /-- A call or a write to a field, after which no field is known. -/
  | clobber
deriving DecidableEq, Repr

inductive Course
  /-- Nothing is visited, and either outcome is possible. -/
  | free
  /-- Nothing is visited, and the outcome is fixed. -/
  | settled (outcome : Bool)
  /-- The evaluation cannot go on. -/
  | stuck (fault : Fault)
  | visit (place : Visit)
  /-- The outcome of the first part does not matter. -/
  | chain (first rest : Course)
  | test (condition onTrue onFalse : Course)
deriving DecidableEq, Repr

namespace Visit

/-- The variable that is visited. -/
def site? : Visit → Option VariableSite
  | read target | define target | assign target _ | increment target => some target
  | field _ | clobber => none

def isRead : Visit → Bool
  | read _ | increment _ => true
  | _ => false

/-- What a run does at a visit, given the facts before it. -/
def act (site : Site) : Visit → Facts → RunM Facts
  | read target, facts => RunM.read site target facts
  | define target, facts => RunM.define site target facts
  | assign target value, facts => do
      let facts ← RunM.define site target facts
      RunM.recordCopy target value
      return facts
  | increment target, facts => do
      RunM.incrementVariable site target (← RunM.read site target facts)
  | field expression, facts => do
      if site.config.has .fieldVersions then
        return facts.pin (← RunM.slotOfField expression) 1
      else
        return facts
  | clobber, facts => return RunM.clobberFields site facts

end Visit

namespace Course

/-- The facts where the outcome of a course is true, and those where it is false. -/
def run (site : Site) : Course → Facts → RunM (Facts × Facts)
  | free, facts => return (facts, facts)
  | settled true, facts => return (facts, ∅)
  | settled false, facts => return (∅, facts)
  | stuck fault, _ => throw fault
  | visit place, facts => do
      let facts ← place.act site facts
      return (facts, facts)
  | chain first rest, facts => do
      let before ← first.run site facts
      rest.run site (before.1 ∪ before.2)
  | test condition onTrue onFalse, facts => do
      let tested ← condition.run site facts
      let left ← onTrue.run site tested.1
      let right ← onFalse.run site tested.2
      return (left.1 ∪ right.1, left.2 ∪ right.2)

section

variable {site : Site} {facts : Facts} {result : Facts × Facts} {state final : RunState}

theorem run_visit_ok {place : Visit} (run : (visit place).run site facts state = .ok result final) :
    ∃ carried, place.act site facts state = .ok carried final ∧ result = (carried, carried) := by
  rcases RunM.bind_ok run with ⟨carried, middle, visited, run⟩
  rcases RunM.pure_ok run with ⟨rfl, rfl⟩
  exact ⟨carried, visited, rfl⟩

theorem run_chain_ok {first rest : Course}
    (run : (chain first rest).run site facts state = .ok result final) :
    ∃ between middle, first.run site facts state = .ok between middle ∧
      rest.run site (between.1 ∪ between.2) middle = .ok result final :=
  RunM.bind_ok run

/-- The true arm is run before the false one, also where the test cannot hold. -/
theorem run_test_ok {condition onTrue onFalse : Course}
    (run : (test condition onTrue onFalse).run site facts state = .ok result final) :
    ∃ tested second left third right, condition.run site facts state = .ok tested second ∧
      onTrue.run site tested.1 second = .ok left third ∧
      onFalse.run site tested.2 third = .ok right final ∧
      result = (left.1 ∪ right.1, left.2 ∪ right.2) := by
  rcases RunM.bind_ok run with ⟨tested, second, conditionRun, run⟩
  rcases RunM.bind_ok run with ⟨left, third, trueRun, run⟩
  rcases RunM.bind_ok run with ⟨right, last, falseRun, run⟩
  rcases RunM.pure_ok run with ⟨rfl, rfl⟩
  exact ⟨tested, second, left, third, right, conditionRun, trueRun, falseRun, rfl⟩

end

end Course

namespace Term

/-- What follows the evaluation of a written or updated operand that is no variable. -/
def afterWrite (target : Term) : Course :=
  if target.isField then .visit .clobber else .free

def course : Term → Course
  | .nothing => .free
  | .missing expression => .stuck (.unknownExpression expression)
  | .compound operator expression => .stuck (.compoundAssignment operator.symbol expression)
  | .header condition => condition.course
  | .variable target => .visit (.read target)
  | .field expression receiver => .chain receiver.course (.visit (.field expression))
  | .assign target value =>
      match target.site? with
      | some defined => .chain value.course (.visit (.assign defined value))
      | none => .chain target.course (.chain value.course target.afterWrite)
  | .ternary condition onTrue onFalse => .test condition.course onTrue.course onFalse.course
  | .and left right => .test left.course right.course (.settled false)
  | .or left right => .test left.course (.settled true) right.course
  | .not operand => .test operand.course (.settled false) (.settled true)
  | .typeTest operand binding =>
      .chain operand.course <|
        match binding with
        | .none => .free
        | .invalid expression => .stuck (.notVariable expression)
        | .variable target =>
            .test .free (.chain (.visit (.define target)) (.settled true)) (.settled false)
  | .increment target =>
      match target.site? with
      | some incremented => .visit (.increment incremented)
      | none => .chain target.course target.afterWrite
  | .chain first rest => .chain first.course rest.course
  | .clobber operands => .chain operands.course (.visit .clobber)

end Term

/-! ## Unions of facts -/

namespace Facts

@[simp] theorem union_self (facts : Facts) : facts ∪ facts = facts :=
  ext fun slot => VersionSet.ext fun version => by simp

@[simp] theorem union_empty (facts : Facts) : facts ∪ ∅ = facts :=
  ext fun slot => VersionSet.ext fun version => by simp

@[simp] theorem empty_union (facts : Facts) : ∅ ∪ facts = facts :=
  ext fun slot => VersionSet.ext fun version => by simp

private theorem union_comm (left right : Facts) : left ∪ right = right ∪ left :=
  ext fun slot => VersionSet.ext fun version => by simp [or_comm]

end Facts

/-! ## Evaluating a term -/

namespace OutcomeFacts

private theorem branches_joinArms (onTrue onFalse : OutcomeFacts) :
    (RunM.joinArms onTrue onFalse).branches =
      (onTrue.ifTrue ∪ onFalse.ifTrue, onTrue.ifFalse ∪ onFalse.ifFalse) := by
  cases onTrue with
  | joined left =>
      cases onFalse with
      | joined right => rfl
      | split onTrue onFalse => simp [RunM.joinArms, branches]
  | split => cases onFalse <;> simp [RunM.joinArms, branches]

private theorem branches_and (tested second : OutcomeFacts) :
    ((tested.setTrue second.ifTrue).mergeFalse second.ifFalse).branches =
      (second.ifTrue ∪ ∅, second.ifFalse ∪ tested.ifFalse) := by
  simp [branches, Facts.union_comm]

private theorem branches_or (tested second : OutcomeFacts) :
    ((tested.mergeTrue second.ifTrue).setFalse second.ifFalse).branches =
      (tested.ifTrue ∪ second.ifTrue, ∅ ∪ second.ifFalse) := by
  simp [branches]

private theorem branches_negate (tested : OutcomeFacts) :
    tested.negate.branches = (∅ ∪ tested.ifFalse, tested.ifTrue ∪ ∅) := by
  simp [branches]

end OutcomeFacts

namespace RunM

theorem eq_variable {term : Term} {target : VariableSite} (found : term.site? = some target) :
    term = .variable target := by
  cases term <;> simp_all [Term.site?]

private theorem run_afterWrite (site : Site) (target : Term) (facts : Facts) :
    target.afterWrite.run site facts =
      (pure (OutcomeFacts.joined
        (if target.isField then clobberFields site facts else facts)).branches :
        RunM (Facts × Facts)) := by
  unfold Term.afterWrite
  split <;> rfl

/-- Evaluating a term is running its course. -/
theorem evaluate_branches (site : Site) (term : Term) (facts : Facts) :
    OutcomeFacts.branches <$> evaluate site term (.joined facts) = term.course.run site facts := by
  induction term generalizing facts with
  | nothing => rfl
  | missing expression => rfl
  | compound operator expression => rfl
  | header condition induction =>
      rw [evaluate]
      exact induction facts
  | «variable» target =>
      simp only [evaluate, OutcomeFacts.single, ofExcept, Term.course, Course.run, Visit.act,
        map_eq_pure_bind, bind_assoc, pure_bind]
      rfl
  | field expression receiver induction =>
      simp only [evaluate, Term.course, Course.run, Visit.act, ← induction,
        OutcomeFacts.merged_eq, map_eq_pure_bind, bind_assoc, pure_bind]
      congr 1
      funext received
      split <;> rfl
  | assign target value targetInduction valueInduction =>
      cases found : target.site? with
      | some defined =>
          simp only [evaluate, Term.course, found, Course.run, Visit.act, ← valueInduction,
            OutcomeFacts.merged_eq, map_eq_pure_bind, bind_assoc, pure_bind]
          rfl
      | none =>
          simp only [evaluate, Term.course, found, Course.run, run_afterWrite, ← targetInduction,
            ← valueInduction, OutcomeFacts.merged_eq, OutcomeFacts.join, map_eq_pure_bind,
            bind_assoc, pure_bind]
          rfl
  | ternary condition onTrue onFalse conditionInduction trueInduction falseInduction =>
      simp only [evaluate, Term.course, Course.run, ← conditionInduction, ← trueInduction,
        ← falseInduction, map_eq_pure_bind, bind_assoc, pure_bind, OutcomeFacts.branches_joinArms]
      rfl
  | and left right leftInduction rightInduction =>
      simp only [evaluate, Term.course, Course.run, ← leftInduction, ← rightInduction,
        map_eq_pure_bind, bind_assoc, pure_bind, OutcomeFacts.branches_and]
      rfl
  | or left right leftInduction rightInduction =>
      simp only [evaluate, Term.course, Course.run, ← leftInduction, ← rightInduction,
        map_eq_pure_bind, bind_assoc, pure_bind, OutcomeFacts.branches_or]
      rfl
  | not operand induction =>
      simp only [evaluate, Term.course, Course.run, ← induction, map_eq_pure_bind, bind_assoc,
        pure_bind, OutcomeFacts.branches_negate]
      rfl
  | typeTest operand binding induction =>
      cases binding with
      | none =>
          simp only [evaluate, Term.course, Course.run, ← induction, OutcomeFacts.join,
            OutcomeFacts.merged_eq, map_eq_pure_bind, bind_assoc, pure_bind]
          rfl
      | invalid expression =>
          simp only [evaluate, Term.course, Course.run, ← induction, map_eq_pure_bind, bind_assoc,
            pure_bind]
          rfl
      | «variable» target =>
          simp only [evaluate, Term.course, Course.run, Visit.act, ← induction, OutcomeFacts.join,
            OutcomeFacts.merged_eq, map_eq_pure_bind, bind_assoc, pure_bind, Facts.union_self,
            Facts.union_empty, Facts.empty_union]
          rfl
  | increment target induction =>
      cases found : target.site? with
      | some incremented =>
          rcases eq_variable found with rfl
          simp only [evaluate, Term.site?, Term.course, Course.run, Visit.act, OutcomeFacts.single,
            ofExcept, OutcomeFacts.merged, map_eq_pure_bind, bind_assoc, pure_bind]
          rfl
      | none =>
          simp only [evaluate, Term.course, found, Course.run, run_afterWrite, ← induction,
            OutcomeFacts.merged_eq, map_eq_pure_bind, bind_assoc, pure_bind]
          rfl
  | chain first rest firstInduction restInduction =>
      simp only [evaluate, Term.course, Course.run, ← firstInduction, ← restInduction,
        OutcomeFacts.join, OutcomeFacts.merged_eq, map_eq_pure_bind, bind_assoc, pure_bind]
      rfl
  | clobber operands induction =>
      simp only [evaluate, Term.course, Course.run, Visit.act, ← induction,
        OutcomeFacts.merged_eq, map_eq_pure_bind, bind_assoc, pure_bind]
      rfl

end RunM

end SlotVersioning
