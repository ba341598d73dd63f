import SlotVersioning.Proofs.Course.Node
import SlotVersioning.Proofs.Pass.Rounds
import SlotVersioning.Proofs.Run.Assembled

/-!
# What passes are assembled from

Everything that happens in a round, and before the rounds, is assembled from elementary actions and
from faults other than that the passes ran out (`RunM.assembled_round`, `RunM.assembled_seeding`).
-/

namespace SlotVersioning

/-! ## Courses -/

/-- No part of the course is stuck because passes ran out. -/
def Course.Fresh : Course → Prop
  | free | settled _ | visit _ => True
  | stuck fault => fault.kind ≠ .notConverged
  | chain first rest => first.Fresh ∧ rest.Fresh
  | test condition onTrue onFalse => condition.Fresh ∧ onTrue.Fresh ∧ onFalse.Fresh

private theorem Term.fresh_course (term : Term) : term.course.Fresh := by
  have afterWrite (target : Term) : target.afterWrite.Fresh := by
    unfold Term.afterWrite
    split <;> trivial
  induction term with
  | nothing | «variable» => trivial
  | missing => exact (by decide : FaultKind.malformed ≠ .notConverged)
  | compound => exact (by decide : FaultKind.unsupportedExpression ≠ .notConverged)
  | header condition induction => exact induction
  | field expression receiver induction => exact ⟨induction, trivial⟩
  | assign target value targetInduction valueInduction =>
      unfold course
      split
      · exact ⟨valueInduction, trivial⟩
      · exact ⟨targetInduction, valueInduction, afterWrite target⟩
  | ternary condition onTrue onFalse conditionInduction trueInduction falseInduction =>
      exact ⟨conditionInduction, trueInduction, falseInduction⟩
  | and left right leftInduction rightInduction => exact ⟨leftInduction, rightInduction, trivial⟩
  | or left right leftInduction rightInduction => exact ⟨leftInduction, trivial, rightInduction⟩
  | not operand induction => exact ⟨induction, trivial, trivial⟩
  | typeTest operand binding induction =>
      refine ⟨induction, ?_⟩
      cases binding with
      | none => trivial
      | invalid expression => exact (by decide : FaultKind.malformed ≠ .notConverged)
      | «variable» target => exact ⟨trivial, ⟨trivial, trivial⟩, trivial⟩
  | increment target induction =>
      unfold course
      split
      · trivial
      · exact ⟨induction, afterWrite target⟩
  | chain first rest firstInduction restInduction => exact ⟨firstInduction, restInduction⟩
  | clobber operands induction => exact ⟨induction, trivial⟩

private theorem Body.fresh_nodeCourse (body : Body) (node : FlowNode) :
    (body.nodeCourse node).Fresh := by
  have chained (expressions : List ExprId) {course : Course} (fresh : course.Fresh) :
      (body.chainCourses course expressions).Fresh := by
    induction expressions generalizing course with
    | nil => exact fresh
    | cons head tail induction => exact induction ⟨fresh, Term.fresh_course _⟩
  unfold nodeCourse
  split
  · trivial
  · apply chained
    unfold firstCourse
    split
    · trivial
    · exact Term.fresh_course _

namespace RunM

private theorem assembled_run {site : Site} {course : Course} (fresh : course.Fresh)
    (facts : Facts) : Assembled (course.run site facts) := by
  induction course generalizing facts with
  | free => exact .pure _
  | settled outcome => cases outcome <;> exact .pure _
  | stuck fault => exact .throw fresh
  | visit place => exact (assembled_act place).bind fun _ => .pure _
  | chain first rest firstInduction restInduction =>
      exact (firstInduction fresh.1 _).bind fun _ => restInduction fresh.2 _
  | test condition onTrue onFalse conditionInduction trueInduction falseInduction =>
      exact (conditionInduction fresh.1 _).bind fun _ => (trueInduction fresh.2.1 _).bind fun _ =>
        (falseInduction fresh.2.2 _).bind fun _ => .pure _

end RunM

/-! ## Nodes -/

/-- Facts along exits are only missing when exits are nested too deep. -/
private theorem Tables.exitFacts_error {tables : Tables} {graph : FlowGraph} {config : Config}
    {destination : NodeId} {depth : Nat} {node exit : NodeId} {fault : Fault}
    (fails : tables.exitFacts graph config destination depth node exit = .error fault) :
    fault = .recursionLimit config.maxFinallyDepth := by
  induction depth generalizing node exit with
  | zero =>
      cases fails
      rfl
  | succ depth induction =>
      simp only [exitFacts] at fails
      split at fails
      · cases fails
      · split at fails
        · cases fails
        · rcases Fault.bind_error fails with collecting | ⟨collected, passing⟩
          · rcases Fault.foldlM_error collecting with ⟨value, path, step⟩
            split at step
            · rcases Fault.bind_error step with nested | ⟨facts, joining⟩
              · cases inner : tables.exitFacts graph config destination depth path.entry
                    path.source with
                | error early =>
                    rw [inner] at nested
                    cases nested
                    exact induction inner
                | ok facts =>
                    rw [inner] at nested
                    cases nested
              · cases joining
            · cases step
          · split at passing <;> cases passing

namespace RunM

variable (context : Context)

private theorem assembled_arrive (name : NodeId) : Assembled (arrive context name) := by
  apply assembled_tables.bind
  intro before
  apply Assembled.bind
  · apply Assembled.ofExcept
    intro fault fails
    rcases Fault.foldlM_error fails with ⟨facts, source, step⟩
    rcases Fault.bind_error step with exits | ⟨brought, joins⟩
    · rw [Tables.exitFacts_error exits]
      exact nofun
    · exact nomatch joins
  · exact fun _ => (assembled_editTables _).bind fun _ => .pure _

private theorem assembled_leave (name : NodeId) (outcome : OutcomeFacts) :
    Assembled (leave context name outcome) := by
  apply assembled_tables.bind
  intro before
  split
  · exact (Assembled.report _).bind fun _ => (assembled_editTables _).bind fun _ => .pure _
  · exact .pure _

theorem assembled_visit (live : Bool) (dirty : DirtyNodes) (entry : FlowNode × NodeId) :
    Assembled (visit context live dirty entry) := by
  rcases entry with ⟨node, name⟩
  rw [visit_course]
  apply (assembled_arrive context name).bind
  intro facts
  apply (assembled_run (context.body.fresh_nodeCourse node) facts).bind
  intro outcome
  apply (assembled_leave context name _).bind
  intro changed
  split <;> exact .pure _

theorem assembled_round (dirty : DirtyNodes) : Assembled (round context dirty) :=
  (assembled_editTables _).bind fun _ =>
    (Assembled.foldlM _ _ (assembled_visit context false)).bind fun _ =>
      assembled_tables.bind fun _ => (Assembled.report _).bind fun _ => .pure _

theorem assembled_liveRound : Assembled (liveRound context) := by
  apply (assembled_editTables _).bind
  intro _
  apply Assembled.bind
  · exact (Assembled.foldlM _ _ (assembled_visit context true)).bind fun _ => .pure _
  intro _
  apply (assembled_editGraph _).bind
  intro _
  apply assembled_tables.bind
  intro before
  cases before.graph with
  | none => exact .pure _
  | some graph => exact .report _

theorem assembled_seeding (entry : NodeId) : Assembled (seeding context entry) := by
  have seeds (statement : StatementId) (facts : Facts) (slot : Slot) :
      Assembled (seedVersion context statement facts slot) :=
    (assembled_mint _ _ _).bind fun _ => (assembled_editGraph _).bind fun _ => .pure _
  have stores (node : NodeId) (facts : Facts) : Assembled (storeSeeds node facts) :=
    assembled_editTables _
  apply Assembled.bind
  · exact (Assembled.foldlM _ _ (seeds _)).bind fun _ => stores _ _
  intro _
  apply Assembled.forM
  intro statement
  unfold seedHandlers
  dsimp only
  split
  · exact .pure _
  · apply Assembled.forM
    intro handler
    unfold seedHandler
    dsimp only
    split
    · exact .throw (by decide : FaultKind.malformed ≠ .notConverged)
    · exact .throw (by decide : FaultKind.malformed ≠ .notConverged)
    · exact (seeds _ _ _).bind fun _ => stores _ _

end RunM

end SlotVersioning
