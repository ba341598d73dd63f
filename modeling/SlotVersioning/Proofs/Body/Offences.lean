import Mathlib.Data.List.Basic
import Mathlib.Logic.Relation
import SlotVersioning.Expression.Term

/-!
# Offenders

An expression offends when it cannot be evaluated however its operands are: it is not in the arena,
it is a compound assignment, or it is a type test that binds something other than a variable. An
evaluation that goes through an expression meets the first offender in evaluation order, if there is
one at or below the expression (`Arena.Meets`).
-/

namespace SlotVersioning

open Relation

namespace Arena

variable (arena : Arena)

/-- What is wrong with an expression itself, whatever its operands are. -/
def offence? (expression : ExprId) : Option Fault :=
  match arena.get? expression with
  | none => some (.unknownExpression expression)
  | some (.assignment _ _ (some operator)) =>
      some (.compoundAssignment operator.symbol expression)
  | some (.typeTest _ (some binding)) =>
      if (arena.site? binding).isSome then none else some (.notVariable binding)
  | some _ => none

/-- The expression is an updating assignment. -/
def isCompound (expression : ExprId) : Bool :=
  match arena.get? expression with
  | some (.assignment _ _ (some _)) => true
  | _ => false

/-- The operands that are evaluated before an expression itself is looked at. A compound assignment
is looked at first, and the binding of a type test is not evaluated. -/
def evaluated (expression : ExprId) : List ExprId :=
  match arena.get? expression with
  | some (.assignment _ _ (some _)) => []
  | some (.typeTest operand _) => [operand]
  | _ => arena.operands expression

/-- The expression is the other one or below it. -/
def Below : (upper lower : ExprId) → Prop :=
  ReflTransGen fun expression operand => operand ∈ arena.operands expression

/-- No expression is below one of its operands. -/
def Acyclic : Prop :=
  ∀ expression, ∀ operand ∈ arena.operands expression, ¬ arena.Below operand expression

/-- No offender is at or below the expression. -/
def Sound (expression : ExprId) : Prop :=
  ∀ lower, arena.Below expression lower → arena.offence? lower = none

/-- The offender is the first one that an evaluation of the expression meets. -/
inductive Meets : (expression offender : ExprId) → Prop
  | self {offender : ExprId} {fault : Fault} (offends : arena.offence? offender = some fault)
      (sound : ∀ operand ∈ arena.evaluated offender, arena.Sound operand) : Meets offender offender
  | operand {expression operand offender : ExprId} {before after : List ExprId}
      (evaluated : arena.evaluated expression = before ++ operand :: after)
      (sound : ∀ earlier ∈ before, arena.Sound earlier) (meets : Meets operand offender) :
      Meets expression offender

variable {arena}

theorem kind_of_offence {expression : ExprId} {fault : Fault}
    (offends : arena.offence? expression = some fault) :
    fault.kind = if arena.isCompound expression then .unsupportedExpression else .malformed := by
  unfold offence? at offends
  unfold isCompound
  cases stored : arena.get? expression with
  | none =>
      rw [stored] at offends
      cases offends
      rfl
  | some expr =>
      rw [stored] at offends
      cases expr with
      | assignment target value compound =>
          cases compound with
          | none => exact nomatch offends
          | some operator =>
              cases offends
              rfl
      | typeTest operand binding =>
          cases binding with
          | none => exact nomatch offends
          | some bound =>
              dsimp only at offends ⊢
              split at offends
              · exact nomatch offends
              · cases offends
                rfl
      | _ => exact nomatch offends

/-! ## Sound expressions -/

theorem mem_operands_of_evaluated {expression operand : ExprId}
    (member : operand ∈ arena.evaluated expression) : operand ∈ arena.operands expression := by
  unfold evaluated at member
  split at member
  · exact nomatch member
  · next inner binding stored =>
      rcases List.mem_singleton.1 member with rfl
      unfold operands
      rw [stored]
      exact List.mem_cons_self
  · exact member

private theorem Sound.below {upper lower : ExprId} (sound : arena.Sound upper)
    (below : arena.Below upper lower) : arena.Sound lower :=
  fun _ further => sound _ (below.trans further)

/-- A variable has no operands and does not offend. -/
theorem sound_of_site? {expression : ExprId} (isVariable : (arena.site? expression).isSome) :
    arena.Sound expression := by
  rcases Option.isSome_iff_exists.1 isVariable with ⟨target, found⟩
  rcases Option.map_eq_some_iff.1 found with ⟨access, isAccess, -⟩
  rcases Option.bind_eq_some_iff.1 isAccess with ⟨expr, stored, accesses⟩
  cases expr with
  | «variable» access =>
      intro lower below
      cases below.cases_head with
      | inl same =>
          subst same
          unfold offence?
          rw [stored]
      | inr further =>
          rcases further with ⟨operand, member, -⟩
          unfold operands at member
          rw [stored] at member
          exact nomatch member
  | _ => exact nomatch accesses

/-- Nothing is below an expression but what is evaluated, and bound variables. -/
theorem sound_iff {expression : ExprId} :
    arena.Sound expression ↔ arena.offence? expression = none ∧
      ∀ operand ∈ arena.evaluated expression, arena.Sound operand := by
  constructor
  · intro sound
    exact ⟨sound expression .refl, fun operand member =>
      sound.below (.single (mem_operands_of_evaluated member))⟩
  · rintro ⟨clean, each⟩ lower below
    cases below.cases_head with
    | inl same => exact same ▸ clean
    | inr further =>
        rcases further with ⟨operand, member, below⟩
        refine Sound.below ?_ below lower .refl
        unfold operands at member
        unfold offence? at clean
        unfold evaluated operands at each
        cases stored : arena.get? expression with
        | none =>
            rw [stored] at member
            exact nomatch member
        | some expr =>
            rw [stored] at member clean each
            cases expr with
            | assignment target value compound =>
                cases compound with
                | none => exact each operand member
                | some operator => exact nomatch clean
            | typeTest inner binding =>
                cases binding with
                | none => exact each operand member
                | some bound =>
                    rcases List.mem_cons.1 member with rfl | isBound
                    · exact each operand List.mem_cons_self
                    · rcases List.mem_singleton.1 isBound with rfl
                      apply sound_of_site?
                      by_contra unlike
                      simp [unlike] at clean
            | _ => exact each operand member

/-- Expressions whose operands come before them are not below their operands. -/
theorem acyclic_of_before
    (before : ∀ expression, ∀ operand ∈ arena.operands expression, operand < expression) :
    arena.Acyclic := by
  intro expression operand member below
  have down (lower : ExprId) (below : arena.Below operand lower) : lower ≤ operand := by
    induction below with
    | refl => exact Nat.le_refl _
    | tail _ step induction => exact Nat.le_trans (Nat.le_of_lt (before _ _ step)) induction
  exact absurd (down expression below) (Nat.not_le.2 (before expression operand member))

/-! ## What is met -/

/-- What is met is below, and it offends. -/
theorem Meets.offends {expression offender : ExprId} (meets : arena.Meets expression offender) :
    arena.Below expression offender ∧ ∃ fault, arena.offence? offender = some fault := by
  induction meets with
  | self offends => exact ⟨.refl, _, offends⟩
  | operand evaluated sound meets induction =>
      refine ⟨.head (mem_operands_of_evaluated ?_) induction.1, induction.2⟩
      rw [evaluated]
      exact List.mem_append_right _ List.mem_cons_self

theorem Meets.not_sound {expression offender : ExprId} (meets : arena.Meets expression offender) :
    ¬ arena.Sound expression := by
  intro sound
  rcases meets.offends with ⟨below, fault, offends⟩
  rw [sound offender below] at offends
  exact nomatch offends

end Arena

end SlotVersioning
