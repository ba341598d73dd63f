import Mathlib.Data.List.Nodup
import Mathlib.Data.List.Pairwise
import Mathlib.Data.List.Perm.Basic
import SlotVersioning.Proofs.Course.Carry

/-!
# Expressions used once

An expression is used by the node that lists it or by the expression whose operand it is. When every
expression is used in one place, the expressions below the ones that nodes list are all different
(`nodup_below`), and so every site is visited at one node and once there.
-/

namespace SlotVersioning

namespace Arena

variable {arena : Arena}

/-- An expression with its operands, theirs and so on, as far as the depth goes. -/
def below (arena : Arena) : (depth : Nat) → ExprId → List ExprId
  | 0, expression => [expression]
  | depth + 1, expression => expression :: (arena.operands expression).flatMap (arena.below depth)

theorem mem_below_self (arena : Arena) (depth : Nat) (expression : ExprId) :
    1 ≤ (arena.below depth expression).count expression := by
  rw [Nat.one_le_iff_ne_zero, ← Nat.pos_iff_ne_zero, List.count_pos_iff]
  cases depth <;> exact List.mem_cons_self

/-- Going one level further down at the end is going further down at the start. -/
private theorem flatMap_operands_below (arena : Arena) (depth : Nat) (expression : ExprId) :
    ((arena.operands expression).flatMap (arena.below depth)).Perm
      ((arena.below depth expression).flatMap arena.operands) := by
  induction depth generalizing expression with
  | zero => simp [below]
  | succ depth induction =>
      have further := List.Perm.flatMap_left (arena.operands expression)
        fun operand _ => induction operand
      have split := List.map_append_flatMap_perm (arena.operands expression) id
        fun operand => (arena.operands operand).flatMap (arena.below depth)
      rw [List.map_id] at split
      rw [below, List.flatMap_cons, List.flatMap_assoc]
      exact split.symm.trans (further.append_left _)

/-- The expressions below some roots are the roots and the operands of those below. -/
private theorem flatMap_below_succ (arena : Arena) (depth : Nat) (roots : List ExprId) :
    (roots.flatMap (arena.below (depth + 1))).Perm
      (roots ++ (roots.flatMap (arena.below depth)).flatMap arena.operands) := by
  have split := List.map_append_flatMap_perm roots id
    fun root => (arena.operands root).flatMap (arena.below depth)
  have further := List.Perm.flatMap_left roots
    fun root _ => arena.flatMap_operands_below depth root
  rw [List.map_id] at split
  rw [List.flatMap_assoc]
  exact split.symm.trans (further.append_left _)

theorem operands_of_unknown {expression : ExprId} (unknown : arena.size ≤ expression) :
    arena.operands expression = [] := by
  unfold operands get?
  rw [Array.getElem?_eq_none unknown]
  rfl

/-- No two uses, by roots or as operands, are of one expression. -/
def UsedOnce (arena : Arena) (roots : List ExprId) : Prop :=
  (roots ++ (List.range arena.size).flatMap arena.operands).Nodup

private theorem UsedOnce.nodup_operands {roots : List ExprId} (once : arena.UsedOnce roots)
    (expression : ExprId) : (arena.operands expression).Nodup := by
  by_cases known : expression < arena.size
  · have operands := (List.nodup_append.1 once).2.1
    exact (List.nodup_flatMap.1 operands).1 expression (List.mem_range.2 known)
  · rw [operands_of_unknown (Nat.le_of_not_lt known)]
    exact List.nodup_nil

theorem mem_operands_known {expression operand : ExprId}
    (member : operand ∈ arena.operands expression) : expression ∈ List.range arena.size := by
  rw [List.mem_range]
  by_contra unknown
  rw [operands_of_unknown (Nat.le_of_not_lt unknown)] at member
  exact nomatch member

private theorem UsedOnce.disjoint_operands {roots : List ExprId} (once : arena.UsedOnce roots)
    {left right : ExprId} (different : left ≠ right) :
    List.Disjoint (arena.operands left) (arena.operands right) := by
  intro operand inLeft inRight
  have operands := (List.nodup_append.1 once).2.1
  have apart := (List.nodup_flatMap.1 operands).2
  have symmetric : Std.Symm (Function.onFun List.Disjoint arena.operands) :=
    ⟨fun _ _ disjoint _ left right => disjoint right left⟩
  exact apart.forall (mem_operands_known inLeft) (mem_operands_known inRight) different inLeft
    inRight

private theorem UsedOnce.disjoint_roots {roots : List ExprId} (once : arena.UsedOnce roots)
    (expressions : List ExprId) : List.Disjoint roots (expressions.flatMap arena.operands) := by
  intro operand root member
  rcases List.mem_flatMap.1 member with ⟨expression, -, inOperands⟩
  refine (List.nodup_append.1 once).2.2 operand root operand ?_ rfl
  exact List.mem_flatMap.2 ⟨expression, mem_operands_known inOperands, inOperands⟩

/-- What is below roots that are used once is all different. -/
theorem UsedOnce.nodup_below {roots : List ExprId} (once : arena.UsedOnce roots) (depth : Nat) :
    (roots.flatMap (arena.below depth)).Nodup := by
  induction depth with
  | zero =>
      have same : roots.flatMap (arena.below 0) = roots := by
        simp only [below, List.flatMap_singleton']
      rw [same]
      exact (List.nodup_append.1 once).1
  | succ depth induction =>
      rw [(arena.flatMap_below_succ depth roots).nodup_iff, List.nodup_append']
      refine ⟨(List.nodup_append.1 once).1, ?_, once.disjoint_roots _⟩
      refine List.nodup_flatMap.2 ⟨fun expression _ => once.nodup_operands expression, ?_⟩
      exact induction.imp fun different => once.disjoint_operands different

end Arena

/-! ## Sites of terms -/

namespace Term

private theorem sites_chainOf (terms : List Term) :
    (chainOf terms).course.sites = terms.flatMap fun term => term.course.sites := by
  induction terms with
  | nil => rfl
  | cons head tail induction =>
      rw [List.flatMap_cons, ← induction]
      exact Course.sites_chain _ _

theorem sites_afterWrite (target : Term) : target.afterWrite.sites = [] := by
  unfold afterWrite
  split <;> rfl

/-- A variable is visited at its own expression. -/
private theorem sites_of_site? {term : Term} {target : VariableSite}
    (found : term.site? = some target) : term.course.sites = [target.expression] := by
  rw [RunM.eq_variable found]
  rfl

end Term

namespace Arena

variable {arena : Arena}

private theorem count_flatMap_le {below : ExprId → List ExprId} {operand : ExprId → Term}
    (each : ∀ other expression, (operand other).course.sites.count expression ≤
      (below other).count expression) (operands : List ExprId) (expression : ExprId) :
    ((operands.map operand).flatMap fun term => term.course.sites).count expression ≤
      (operands.flatMap below).count expression := by
  induction operands with
  | nil => exact Nat.le_refl _
  | cons head tail induction =>
      rw [List.map_cons, List.flatMap_cons, List.flatMap_cons, List.count_append,
        List.count_append]
      exact Nat.add_le_add (each head expression) induction

private theorem expression_of_binding {binding : Option ExprId} {target : VariableSite}
    (bound : arena.binding binding = .variable target) : binding = some target.expression := by
  cases binding with
  | none => exact nomatch bound
  | some expression =>
      unfold binding at bound
      dsimp only at bound
      split at bound
      · next site found =>
          cases bound
          rcases Option.map_eq_some_iff.1 found with ⟨access, -, rfl⟩
          rfl
      · exact nomatch bound

section

variable {below : ExprId → List ExprId} {operand : ExprId → Term}
  (each : ∀ other expression, (operand other).course.sites.count expression ≤
    (below other).count expression)

include each

private theorem count_chainOf_le (owner : ExprId) (operands : List ExprId) (expression : ExprId) :
    (Term.chainOf (operands.map operand)).course.sites.count expression ≤
      (owner :: operands.flatMap below).count expression := by
  rw [Term.sites_chainOf, List.count_cons]
  exact Nat.le_add_right_of_le (count_flatMap_le each operands expression)

theorem count_written_le {target : ExprId} {found : VariableSite}
    (isVariable : (operand target).site? = some found) (expression : ExprId) :
    [found.expression].count expression ≤ (below target).count expression := by
  have bound := each target expression
  rw [Term.sites_of_site? isVariable] at bound
  exact bound

private theorem count_sites_assign (owner target value expression : ExprId) :
    (Term.assign (operand target) (operand value)).course.sites.count expression ≤
      (owner :: [target, value].flatMap below).count expression := by
  have targetBound := each target expression
  have valueBound := each value expression
  cases found : (operand target).site? with
  | some defined =>
      have targetWritten := count_written_le each found expression
      simp only [Term.course, found, Course.sites_chain, List.flatMap_cons, List.flatMap_nil,
        List.count_cons, List.count_append]
      change _ + [defined.expression].count expression ≤ _
      omega
  | none =>
      simp only [Term.course, found, Course.sites_chain, Term.sites_afterWrite, List.flatMap_cons,
        List.flatMap_nil, List.count_cons, List.count_append]
      omega

private theorem count_sites_increment (owner target expression : ExprId) :
    (Term.increment (operand target)).course.sites.count expression ≤
      (owner :: [target].flatMap below).count expression := by
  have bound := each target expression
  cases found : (operand target).site? with
  | some incremented =>
      have targetWritten := count_written_le each found expression
      simp only [Term.course, found, List.flatMap_cons, List.flatMap_nil, List.count_cons,
        List.count_append]
      change [incremented.expression].count expression ≤ _
      omega
  | none =>
      simp only [Term.course, found, Course.sites_chain, Term.sites_afterWrite, List.flatMap_cons,
        List.flatMap_nil, List.count_cons, List.count_append]
      omega

private theorem count_sites_typeTest (self : ∀ other, 1 ≤ (below other).count other)
    (owner inner : ExprId) (binding : Option ExprId) (expression : ExprId) :
    (Term.typeTest (operand inner) (arena.binding binding)).course.sites.count expression ≤
      (owner :: (inner :: binding.toList).flatMap below).count expression := by
  have bound := each inner expression
  -- The variable that is bound is the one expression of the test with a site of its own.
  cases found : arena.binding binding with
  | none | invalid =>
      simp only [Term.course, Course.sites_chain, List.flatMap_cons, List.count_cons,
        List.count_append]
      change _ + [].count expression ≤ _
      simp only [List.count_nil]
      omega
  | «variable» target =>
      rcases expression_of_binding found with rfl
      have boundHere := self target.expression
      simp only [Term.course, Course.sites_chain, Option.toList_some, List.flatMap_cons,
        List.flatMap_nil, List.count_cons, List.count_append]
      change _ + [target.expression].count expression ≤ _
      rw [List.count_singleton]
      by_cases same : target.expression = expression
      · subst same
        simp only [BEq.rfl, if_true]
        omega
      · simp only [beq_eq_false_iff_ne.2 same, Bool.false_eq_true, if_false]
        omega

/-- A term has no more sites than there are expressions in it, when that holds of its operands. -/
private theorem count_sites_termOf (self : ∀ other, 1 ≤ (below other).count other) (owner : ExprId)
    (expr : Expr) (expression : ExprId) :
    (arena.termOf operand owner expr).course.sites.count expression ≤
      (owner :: expr.operands.flatMap below).count expression := by
  cases expr with
  | header condition =>
      have bound := each condition expression
      simp only [termOf, Term.course, Expr.operands, List.flatMap_cons, List.flatMap_nil,
        List.count_cons, List.count_append]
      omega
  | assignment target value compound =>
      cases compound with
      | some operator => simp [termOf, Term.course, Course.sites, Course.visits]
      | none => exact count_sites_assign each owner target value expression
  | «variable» access =>
      exact Nat.le_refl _
  | field receiver name =>
      cases receiver with
      | none => simp [termOf, Term.course, Course.sites, Course.visits, Visit.written, Visit.site?]
      | some inner =>
          have bound := each inner expression
          simp only [termOf, Term.course, Course.sites_chain, Option.map_some, Option.getD_some,
            Expr.operands, Option.toList_some, List.flatMap_cons, List.flatMap_nil,
            List.count_cons, List.count_append]
          change _ + [].count expression ≤ _
          simp only [List.count_nil]
          omega
  | ternary condition onTrue onFalse =>
      have conditionBound := each condition expression
      have trueBound := each onTrue expression
      have falseBound := each onFalse expression
      simp only [termOf, Term.course, Course.sites_test, Expr.operands, List.flatMap_cons,
        List.flatMap_nil, List.count_cons, List.count_append]
      omega
  | and left right | or left right =>
      have leftBound := each left expression
      have rightBound := each right expression
      simp only [termOf, Term.course, Course.sites_test, Course.sites_settled, Expr.operands,
        List.flatMap_cons, List.flatMap_nil, List.count_cons, List.count_append]
      omega
  | not inner =>
      have bound := each inner expression
      simp only [termOf, Term.course, Course.sites_test, Course.sites_settled, Expr.operands,
        List.flatMap_cons, List.flatMap_nil, List.count_cons, List.count_append, List.count_nil]
      omega
  | typeTest inner binding => exact count_sites_typeTest each self owner inner binding expression
  | increment target form => exact count_sites_increment each owner target expression
  | call receiver name arguments =>
      simp only [termOf, Term.course, Course.sites_chain, List.count_append]
      exact count_chainOf_le each owner _ expression
  | newObject arguments =>
      simp only [termOf, Term.course, Course.sites_chain, List.count_append]
      exact count_chainOf_le each owner _ expression
  | _ => exact count_chainOf_le each owner _ expression

end

/-- A term has no more sites than there are expressions in it. -/
theorem count_sites_unfold (depth : Nat) (root expression : ExprId) :
    (arena.unfold depth root).course.sites.count expression ≤
      (arena.below depth root).count expression := by
  induction depth generalizing root expression with
  | zero => exact Nat.zero_le _
  | succ depth induction =>
      unfold unfold
      cases found : arena.get? root with
      | none => exact Nat.zero_le _
      | some expr =>
          have operands : arena.operands root = expr.operands := by rw [operands, found]; rfl
          rw [below, operands]
          exact count_sites_termOf induction (arena.mem_below_self depth) root expr expression

end Arena

end SlotVersioning
