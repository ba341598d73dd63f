import SlotVersioning.Proofs.Course.Stuck
import SlotVersioning.Versioning.Evaluate

/-!
# Duality of conjunction and disjunction

A negated conjunction is evaluated like the disjunction of the negated operands, a negated
disjunction like the conjunction of them, and a double negation like its operand: with the same
facts for both outcomes, split or joined alike, and with the same effect on the state of the run,
whether or not the evaluation fails. The laws hold of terms without any assumption. In an arena
without cycles they carry over to expressions, nested in any way (`Arena.Dual.evaluate_eq`).
-/

namespace SlotVersioning

/-! ## Outcomes -/

namespace OutcomeFacts

@[simp] theorem negate_negate (outcome : OutcomeFacts) : outcome.negate.negate = outcome := by
  cases outcome <;> rfl

/-- What a conjunction makes of its operands is the negative of what a disjunction makes of their
negatives. -/
private theorem negate_setTrue_mergeFalse (outcome : OutcomeFacts) (onTrue onFalse : Facts) :
    ((outcome.setTrue onTrue).mergeFalse onFalse).negate =
      (outcome.negate.mergeTrue onFalse).setFalse onTrue := by
  unfold mergeFalse mergeTrue
  cases outcome <;> split <;> rfl

private theorem negate_mergeTrue_setFalse (outcome : OutcomeFacts) (onTrue onFalse : Facts) :
    ((outcome.mergeTrue onTrue).setFalse onFalse).negate =
      (outcome.negate.setTrue onFalse).mergeFalse onTrue := by
  unfold mergeFalse mergeTrue
  cases outcome <;> split <;> rfl

end OutcomeFacts

/-! ## Terms -/

namespace RunM

variable (site : Site)

private theorem evaluate_not_not (operand : Term) :
    evaluate site (.not (.not operand)) = evaluate site operand := by
  funext entry
  simp only [evaluate, bind_assoc, pure_bind, OutcomeFacts.negate_negate, bind_pure]

private theorem evaluate_not_and (left right : Term) :
    evaluate site (.not (.and left right)) = evaluate site (.or (.not left) (.not right)) := by
  funext entry
  simp only [evaluate, bind_assoc, pure_bind, OutcomeFacts.negate_setTrue_mergeFalse,
    OutcomeFacts.ifTrue_negate, OutcomeFacts.ifFalse_negate]

private theorem evaluate_not_or (left right : Term) :
    evaluate site (.not (.or left right)) = evaluate site (.and (.not left) (.not right)) := by
  funext entry
  simp only [evaluate, bind_assoc, pure_bind, OutcomeFacts.negate_mergeTrue_setFalse,
    OutcomeFacts.ifTrue_negate, OutcomeFacts.ifFalse_negate]

end RunM

/-! ## Expressions -/

namespace Arena

variable {arena : Arena}

/-- A term takes nothing from its arena but the terms of its operands. -/
theorem termOf_congr {operand other : ExprId → Term} {expr : Expr}
    (same : ∀ expression ∈ expr.operands, operand expression = other expression)
    (owner : ExprId) : arena.termOf operand owner expr = arena.termOf other owner expr := by
  have mapped : expr.operands.map operand = expr.operands.map other := List.map_congr_left same
  cases expr with
  | call | newObject => exact congrArg (fun operands => Term.clobber (.chainOf operands)) mapped
  | newArray | operation | element | exit | monitor | selector | literal =>
      exact congrArg Term.chainOf mapped
  | assignment target value compound => cases compound <;> simp_all [termOf, Expr.operands]
  | field receiver => cases receiver <;> simp_all [termOf, Expr.operands]
  | header | «variable» | ternary | and | or | not | typeTest | increment =>
      simp_all [termOf, Expr.operands]

/-- Where there is room to unfold an expression, more room makes no difference. -/
private theorem unfold_succ (acyclic : arena.Acyclic) {depth : Nat} {expression : ExprId}
    (roomy : arena.Roomy depth expression) :
    arena.unfold (depth + 1) expression = arena.unfold depth expression := by
  induction depth generalizing expression with
  | zero =>
      rcases roomy.operands acyclic with ⟨less, impossible, -⟩
      exact nomatch impossible
  | succ depth induction =>
      rcases roomy.operands acyclic with ⟨less, same, room⟩
      cases same
      rw [unfold, unfold]
      cases stored : arena.get? expression with
      | none => rfl
      | some expr =>
          refine termOf_congr (fun operand member => induction (room operand ?_)) expression
          rw [operands, stored]
          exact member

/-- Without cycles the term of an expression is made of the terms of its operands. -/
private theorem term_eq (acyclic : arena.Acyclic) {expression : ExprId} {expr : Expr}
    (stored : arena.get? expression = some expr) :
    arena.term expression = arena.termOf arena.term expression expr := by
  rw [term, unfold, stored]
  refine termOf_congr (fun operand member => ?_) expression
  rcases (arena.roomy_root expression).operands acyclic with ⟨less, same, room⟩
  cases same
  refine (unfold_succ acyclic (room operand ?_)).symm
  rw [operands, stored]
  exact member

/-- Two expressions become the same one by the laws of negation, applied anywhere below negations,
conjunctions and disjunctions. -/
inductive Dual (arena : Arena) : ExprId → ExprId → Prop
  | refl (expression : ExprId) : Dual arena expression expression
  | symm {first second : ExprId} (dual : Dual arena first second) : Dual arena second first
  | trans {first second third : ExprId} (left : Dual arena first second)
      (right : Dual arena second third) : Dual arena first third
  | notNot {whole inner operand : ExprId} (outer : arena.get? whole = some (.not inner))
      (stored : arena.get? inner = some (.not operand)) : Dual arena whole operand
  | notAnd {whole inner left right other notLeft notRight : ExprId}
      (outer : arena.get? whole = some (.not inner))
      (stored : arena.get? inner = some (.and left right))
      (dual : arena.get? other = some (.or notLeft notRight))
      (first : arena.get? notLeft = some (.not left))
      (second : arena.get? notRight = some (.not right)) : Dual arena whole other
  | notOr {whole inner left right other notLeft notRight : ExprId}
      (outer : arena.get? whole = some (.not inner))
      (stored : arena.get? inner = some (.or left right))
      (dual : arena.get? other = some (.and notLeft notRight))
      (first : arena.get? notLeft = some (.not left))
      (second : arena.get? notRight = some (.not right)) : Dual arena whole other
  | not {whole other operand otherOperand : ExprId}
      (stored : arena.get? whole = some (.not operand))
      (otherStored : arena.get? other = some (.not otherOperand))
      (dual : Dual arena operand otherOperand) : Dual arena whole other
  | and {whole other left right otherLeft otherRight : ExprId}
      (stored : arena.get? whole = some (.and left right))
      (otherStored : arena.get? other = some (.and otherLeft otherRight))
      (first : Dual arena left otherLeft) (second : Dual arena right otherRight) :
      Dual arena whole other
  | or {whole other left right otherLeft otherRight : ExprId}
      (stored : arena.get? whole = some (.or left right))
      (otherStored : arena.get? other = some (.or otherLeft otherRight))
      (first : Dual arena left otherLeft) (second : Dual arena right otherRight) :
      Dual arena whole other

/-- Dual expressions are evaluated alike, as actions and from any entry. -/
theorem Dual.evaluate_eq (acyclic : arena.Acyclic) {first second : ExprId}
    (dual : arena.Dual first second) (site : Site) :
    RunM.evaluate site (arena.term first) = RunM.evaluate site (arena.term second) := by
  have term {expression : ExprId} {expr : Expr} (stored : arena.get? expression = some expr) :
      arena.term expression = arena.termOf arena.term expression expr := term_eq acyclic stored
  induction dual with
  | refl expression => rfl
  | symm dual induction => exact induction.symm
  | trans left right first second => exact first.trans second
  | notNot outer stored =>
      rw [term outer, termOf, term stored]
      exact RunM.evaluate_not_not site _
  | notAnd outer stored dual first second =>
      rw [term outer, term dual, termOf, termOf, term stored, term first, term second]
      exact RunM.evaluate_not_and site _ _
  | notOr outer stored dual first second =>
      rw [term outer, term dual, termOf, termOf, term stored, term first, term second]
      exact RunM.evaluate_not_or site _ _
  | not stored otherStored dual operand =>
      rw [term stored, term otherStored, termOf, termOf]
      funext entry
      simp only [RunM.evaluate, operand]
  | and stored otherStored first second left right =>
      rw [term stored, term otherStored, termOf, termOf]
      funext entry
      simp only [RunM.evaluate, left, right]
  | or stored otherStored first second left right =>
      rw [term stored, term otherStored, termOf, termOf]
      funext entry
      simp only [RunM.evaluate, left, right]

/-- Dual expressions have the same outcome, or fail with the same fault, and leave the run in the
same state: its tables with the minted versions and the version graph, and all versions written. -/
theorem evaluate_dual (acyclic : arena.Acyclic) {first second : ExprId}
    (dual : arena.Dual first second) (site : Site) (facts : Facts) (state : RunState) :
    RunM.evaluate site (arena.term first) (.joined facts) state =
      RunM.evaluate site (arena.term second) (.joined facts) state := by
  rw [dual.evaluate_eq acyclic site]

/-- The condition `!!!(x && y)` next to `!x || !y`. -/
def negating : Arena where
  exprs := #[.variable ⟨0, 0, none⟩, .variable ⟨1, 0, none⟩, .and 0 1, .not 2, .not 3, .not 4,
    .not 0, .not 1, .or 6 7]

theorem evaluate_dual_negating :
    RunM.evaluate ⟨.usage, {}, 0, false⟩ (negating.term 5) (.joined ∅) ⟨.fresh .usage, ∅, []⟩ =
      RunM.evaluate ⟨.usage, {}, 0, false⟩ (negating.term 8) (.joined ∅) ⟨.fresh .usage, ∅, []⟩ :=
  evaluate_dual (acyclic_of_all (by decide))
    (.trans (.notNot rfl rfl) (.notAnd rfl rfl rfl rfl rfl)) _ _ _

end Arena

end SlotVersioning
