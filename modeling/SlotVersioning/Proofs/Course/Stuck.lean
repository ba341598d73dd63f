import Mathlib.Data.List.Perm.Subperm
import SlotVersioning.Proofs.Body.Offences
import SlotVersioning.Proofs.Course.Node

/-!
# Where courses are stuck

A course that is stuck somewhere is stuck first at one place, whichever way its tests go. In an
arena without cycles the course of an expression is stuck at the first offender that an evaluation
of the expression meets (`Arena.judges_term`), and nowhere if there is none.
-/

namespace SlotVersioning

open Relation

theorem findSome?_cons_or {α β : Type} (find : α → Option β) (head : α) (tail : List α) :
    (head :: tail).findSome? find = (find head).or (tail.findSome? find) := by
  rw [List.findSome?_cons]
  cases find head <;> rfl

theorem findSome?_flatMap {α β γ : Type} (find : β → Option γ) (listed : α → List β)
    (list : List α) :
    (list.flatMap listed).findSome? find = list.findSome? fun entry =>
      (listed entry).findSome? find := by
  induction list with
  | nil => rfl
  | cons head tail induction =>
      rw [List.flatMap_cons, List.findSome?_append, induction, findSome?_cons_or]

/-- A list has one first entry that is not good. -/
theorem first_unique {α : Type} {good : α → Prop} {before after otherBefore otherAfter : List α}
    {entry other : α} (same : before ++ entry :: after = otherBefore ++ other :: otherAfter)
    (goodBefore : ∀ earlier ∈ before, good earlier) (bad : ¬ good entry)
    (goodOther : ∀ earlier ∈ otherBefore, good earlier) (otherBad : ¬ good other) :
    entry = other := by
  induction before generalizing otherBefore with
  | nil =>
      cases otherBefore with
      | nil =>
          injection same
      | cons head tail =>
          injection same with heads
          exact absurd (heads ▸ goodOther head List.mem_cons_self) bad
  | cons head tail induction =>
      cases otherBefore with
      | nil =>
          injection same with heads
          exact absurd (heads ▸ goodBefore head List.mem_cons_self) otherBad
      | cons otherHead otherTail =>
          injection same with heads tails
          exact induction tails (fun earlier member => goodBefore earlier (.tail _ member))
            fun earlier member => goodOther earlier (.tail _ member)

/-- The fault at which the course is stuck first. -/
def Course.stuck? : Course → Option Fault
  | free | settled _ | visit _ => none
  | stuck fault => some fault
  | chain first rest => first.stuck?.or rest.stuck?
  | test condition onTrue onFalse => condition.stuck?.or (onTrue.stuck?.or onFalse.stuck?)

namespace Term

private theorem stuck?_afterWrite (target : Term) : target.afterWrite.stuck? = none := by
  unfold afterWrite
  split <;> rfl

private theorem stuck?_of_site? {term : Term} {target : VariableSite}
    (found : term.site? = some target) : term.course.stuck? = none := by
  rw [RunM.eq_variable found]
  rfl

private theorem stuck?_chainOf (terms : List Term) :
    (chainOf terms).course.stuck? = terms.findSome? fun term => term.course.stuck? := by
  induction terms with
  | nil => rfl
  | cons head tail induction =>
      rw [findSome?_cons_or, ← induction]
      rfl

end Term

namespace Arena

variable {arena : Arena}

/-! ## One expression over its operands -/

/-- A term is stuck where an operand that is evaluated is, or else at the expression itself. -/
private theorem stuck?_termOf (operand : ExprId → Term) {owner : ExprId} {expr : Expr}
    (stored : arena.get? owner = some expr) :
    (arena.termOf operand owner expr).course.stuck? =
      ((arena.evaluated owner).findSome? fun other => (operand other).course.stuck?).or
        (arena.offence? owner) := by
  have many (operands : List ExprId) :
      (Term.chainOf (operands.map operand)).course.stuck? =
        (operands.findSome? fun other => (operand other).course.stuck?).or none := by
    rw [Term.stuck?_chainOf, List.findSome?_map, Option.or_none]
    rfl
  unfold evaluated offence? operands
  rw [stored]
  cases expr with
  | assignment target value compound =>
      cases compound with
      | some operator => rfl
      | none =>
          cases found : (operand target).site? with
          | some defined =>
              simp [termOf, Term.course, found, Course.stuck?, Expr.operands,
                Term.stuck?_of_site? found]
          | none =>
              simp [termOf, Term.course, found, Course.stuck?, Expr.operands,
                Term.stuck?_afterWrite, findSome?_cons_or]
  | field receiver name =>
      cases receiver with
      | none => rfl
      | some inner => simp [termOf, Term.course, Course.stuck?, Expr.operands]
  | typeTest inner binding =>
      cases binding with
      | none => simp [termOf, Arena.binding, Term.course, Course.stuck?]
      | some bound =>
          cases found : arena.site? bound with
          | some target =>
              simp [termOf, Arena.binding, found, Term.course, Course.stuck?]
          | none => simp [termOf, Arena.binding, found, Term.course, Course.stuck?]
  | increment target form =>
      cases found : (operand target).site? with
      | some incremented =>
          simp [termOf, Term.course, found, Course.stuck?, Expr.operands,
            Term.stuck?_of_site? found]
      | none =>
          simp [termOf, Term.course, found, Course.stuck?, Expr.operands,
            Term.stuck?_afterWrite]
  | call receiver name arguments =>
      simp only [termOf, Term.course, Course.stuck?, Option.or_none]
      exact (many _).trans (Option.or_none ..)
  | newObject arguments =>
      simp only [termOf, Term.course, Course.stuck?, Option.or_none]
      exact (many _).trans (Option.or_none ..)
  | header | «variable» | ternary | and | or | not =>
      simp [termOf, Term.course, Course.stuck?, Expr.operands, findSome?_cons_or]
  | newArray | operation | element | exit | monitor | selector | literal => exact many _

private theorem stuck?_unfold_succ (depth : Nat) (expression : ExprId) :
    (arena.unfold (depth + 1) expression).course.stuck? =
      ((arena.evaluated expression).findSome? fun operand =>
        (arena.unfold depth operand).course.stuck?).or (arena.offence? expression) := by
  rw [unfold]
  cases stored : arena.get? expression with
  | none =>
      unfold evaluated offence? operands
      rw [stored]
      rfl
  | some expr => exact stuck?_termOf _ stored

/-! ## Room to unfold -/

/-- There is room to unfold an expression: together with what is above it, the depth goes beyond the
arena. -/
def Roomy (arena : Arena) (depth : Nat) (expression : ExprId) : Prop :=
  ∃ above : List ExprId, above.Nodup ∧ above.length + depth = arena.size + 1 ∧
    ∀ upper ∈ above, upper < arena.size ∧
      ∃ operand ∈ arena.operands upper, arena.Below operand expression

theorem roomy_root (arena : Arena) (expression : ExprId) :
    arena.Roomy (arena.size + 1) expression :=
  ⟨[], List.nodup_nil, Nat.zero_add _, fun _ member => nomatch member⟩

theorem mem_operands_lt {expression operand : ExprId}
    (member : operand ∈ arena.operands expression) : expression < arena.size := by
  by_contra unknown
  unfold operands get? at member
  rw [Array.getElem?_eq_none (Nat.le_of_not_lt unknown)] at member
  exact nomatch member

theorem acyclic_of_all
    (all : ∀ expression < arena.size, ∀ operand ∈ arena.operands expression, operand < expression) :
    arena.Acyclic :=
  acyclic_of_before fun expression operand member =>
    all expression (mem_operands_lt member) operand member

/-- Without cycles there is room for the operands as well. -/
theorem Roomy.operands {depth : Nat} {expression : ExprId} (acyclic : arena.Acyclic)
    (roomy : arena.Roomy depth expression) :
    ∃ less, depth = less + 1 ∧
      ∀ operand ∈ arena.operands expression, arena.Roomy less operand := by
  rcases roomy with ⟨above, nodup, room, uppers⟩
  have few : above.length ≤ arena.size := by
    have within : above ⊆ List.range arena.size := fun upper member =>
      List.mem_range.2 (uppers upper member).1
    have bound := (nodup.subperm within).length_le
    rw [List.length_range] at bound
    exact bound
  refine ⟨arena.size - above.length, by omega, fun operand member => ?_⟩
  refine ⟨expression :: above, List.nodup_cons.2 ⟨fun inside => ?_, nodup⟩, ?_, ?_⟩
  · rcases (uppers expression inside).2 with ⟨other, isOperand, below⟩
    exact acyclic expression other isOperand below
  · rw [List.length_cons]
    omega
  · intro upper inside
    rcases List.mem_cons.1 inside with rfl | inside
    · exact ⟨mem_operands_lt member, operand, member, .refl⟩
    · rcases uppers upper inside with ⟨known, other, isOperand, below⟩
      exact ⟨known, other, isOperand, below.tail member⟩

/-! ## Courses of expressions -/

/-- The course of the expression is stuck nowhere, or at the first offender that is met. -/
def Judges (arena : Arena) (stuck? : Option Fault) (expression : ExprId) : Prop :=
  arena.Sound expression ∧ stuck? = none ∨
    ∃ offender, arena.Meets expression offender ∧ stuck? = arena.offence? offender

/-- Several expressions are sound, or there is a first one that is not. -/
theorem sound_or_first {stuck? : ExprId → Option Fault} {expressions : List ExprId}
    (each : ∀ expression ∈ expressions, arena.Judges (stuck? expression) expression) :
    (∀ expression ∈ expressions, arena.Sound expression) ∧ expressions.findSome? stuck? = none ∨
      ∃ before expression after offender, expressions = before ++ expression :: after ∧
        (∀ earlier ∈ before, arena.Sound earlier) ∧ arena.Meets expression offender ∧
        expressions.findSome? stuck? = arena.offence? offender := by
  induction expressions with
  | nil => exact .inl ⟨fun _ member => (nomatch member), rfl⟩
  | cons head tail induction =>
      rw [List.forall_mem_cons] at each ⊢
      rw [findSome?_cons_or]
      rcases each with ⟨⟨sound, free⟩ | ⟨offender, meets, stuck⟩, each⟩
      · rw [free, Option.none_or]
        rcases induction each with
          ⟨allSound, free⟩ | ⟨before, expression, after, offender, rfl, earlier, meets, stuck⟩
        · exact .inl ⟨⟨sound, allSound⟩, free⟩
        · exact .inr ⟨head :: before, expression, after, offender, rfl,
            List.forall_mem_cons.2 ⟨sound, earlier⟩, meets, stuck⟩
      · rcases meets.offends.2 with ⟨fault, offends⟩
        refine .inr ⟨[], head, tail, offender, rfl, fun _ member => (nomatch member), meets, ?_⟩
        rw [stuck, offends, Option.some_or]

private theorem judges_unfold (acyclic : arena.Acyclic) {depth : Nat} {expression : ExprId}
    (roomy : arena.Roomy depth expression) :
    arena.Judges (arena.unfold depth expression).course.stuck? expression := by
  induction depth generalizing expression with
  | zero =>
      rcases roomy.operands acyclic with ⟨less, impossible, -⟩
      exact nomatch impossible
  | succ depth induction =>
      rcases roomy.operands acyclic with ⟨less, same, room⟩
      cases same
      rw [stuck?_unfold_succ]
      rcases sound_or_first fun operand member =>
          induction (room operand (mem_operands_of_evaluated member)) with
        ⟨sound, free⟩ | ⟨before, operand, after, offender, evaluated, sound, meets, stuck⟩
      · rw [free, Option.none_or]
        cases offends : arena.offence? expression with
        | none => exact .inl ⟨sound_iff.2 ⟨offends, sound⟩, rfl⟩
        | some fault => exact .inr ⟨expression, .self offends sound, offends.symm⟩
      · rcases meets.offends.2 with ⟨fault, offends⟩
        refine .inr ⟨offender, .operand evaluated sound meets, ?_⟩
        rw [stuck, offends, Option.some_or]

theorem judges_term (acyclic : arena.Acyclic) (expression : ExprId) :
    arena.Judges (arena.term expression).course.stuck? expression :=
  judges_unfold acyclic (arena.roomy_root expression)

/-- At most one offender is the first one. -/
theorem Meets.unique {expression offender other : ExprId} (first : arena.Meets expression offender)
    (second : arena.Meets expression other) : offender = other := by
  induction first with
  | @self _ fault offends sound =>
      cases second with
      | self => rfl
      | operand evaluated _ meets =>
          refine absurd (sound _ ?_) meets.not_sound
          rw [evaluated]
          exact List.mem_append_right _ List.mem_cons_self
  | operand evaluated sound meets induction =>
      cases second with
      | self _ otherSound =>
          refine absurd (otherSound _ ?_) meets.not_sound
          rw [evaluated]
          exact List.mem_append_right _ List.mem_cons_self
      | operand otherEvaluated otherSound otherMeets =>
          rw [evaluated] at otherEvaluated
          rcases first_unique otherEvaluated sound meets.not_sound otherSound
            otherMeets.not_sound with rfl
          exact induction otherMeets

end Arena

/-! ## Nodes -/

namespace Body

variable (body : Body)

/-- The expressions that the nodes list, in the order in which they are evaluated. -/
def roots : List ExprId := body.graph.nodes.toList.flatMap FlowNode.expressions

/-- The expression is listed by a node or below one that is. -/
def Reached (expression : ExprId) : Prop := ∃ root ∈ body.roots, body.arena.Below root expression

/-- The offender is the first one that a pass over the nodes meets. -/
def Meets (offender : ExprId) : Prop :=
  ∃ before root after, body.roots = before ++ root :: after ∧
    (∀ earlier ∈ before, body.arena.Sound earlier) ∧ body.arena.Meets root offender

variable {body}

/-- At most one offender is the first one. -/
theorem Meets.only {offender other : ExprId} (first : body.Meets offender)
    (second : body.Meets other) : offender = other := by
  rcases first with ⟨before, root, after, split, sound, meets⟩
  rcases second with ⟨otherBefore, otherRoot, otherAfter, otherSplit, otherSound, otherMeets⟩
  rw [split] at otherSplit
  rcases first_unique otherSplit sound meets.not_sound otherSound otherMeets.not_sound with rfl
  exact meets.unique otherMeets

/-- What is met is reached, and it offends. -/
theorem Meets.reached {offender : ExprId} (meets : body.Meets offender) :
    body.Reached offender := by
  rcases meets with ⟨before, root, after, split, -, meets⟩
  refine ⟨root, ?_, meets.offends.1⟩
  rw [split]
  exact List.mem_append_right _ List.mem_cons_self

theorem Meets.offends {offender : ExprId} (meets : body.Meets offender) :
    ∃ fault, body.arena.offence? offender = some fault := by
  rcases meets with ⟨before, root, after, split, -, meets⟩
  exact meets.offends.2

/-- All expressions of the nodes are sound, or there is a first offender. -/
theorem sound_or_meets (acyclic : body.arena.Acyclic) :
    (∀ root ∈ body.roots, body.arena.Sound root) ∧
        (body.roots.findSome? fun root => (body.arena.term root).course.stuck?) = none ∨
      ∃ offender, body.Meets offender ∧
        (body.roots.findSome? fun root => (body.arena.term root).course.stuck?) =
          body.arena.offence? offender := by
  rcases Arena.sound_or_first fun root (_ : root ∈ body.roots) =>
      Arena.judges_term acyclic root with
    free | ⟨before, root, after, offender, split, sound, meets, stuck⟩
  · exact .inl free
  · exact .inr ⟨offender, ⟨before, root, after, split, sound, meets⟩, stuck⟩

private theorem stuck?_firstCourse (kind : FlowNodeKind) (expression : ExprId) :
    (body.firstCourse kind expression).stuck? = (body.arena.term expression).course.stuck? := by
  unfold firstCourse
  split
  · next bound found =>
      rcases Option.map_eq_some_iff.1 found with ⟨access, isAccess, -⟩
      rcases Option.bind_eq_some_iff.1 isAccess with ⟨expr, stored, accesses⟩
      cases expr with
      | «variable» access =>
          simp [Arena.term, Arena.unfold, stored, Arena.termOf, Term.course, Course.stuck?]
      | _ => cases accesses
  · rfl

private theorem stuck?_chainCourses (course : Course) (expressions : List ExprId) :
    (body.chainCourses course expressions).stuck? =
      course.stuck?.or (expressions.findSome? fun expression =>
        (body.arena.term expression).course.stuck?) := by
  induction expressions generalizing course with
  | nil => exact (Option.or_none ..).symm
  | cons head tail induction =>
      rw [findSome?_cons_or, ← Option.or_assoc]
      exact induction _

theorem stuck?_nodeCourse (node : FlowNode) :
    (body.nodeCourse node).stuck? = node.expressions.findSome? fun expression =>
      (body.arena.term expression).course.stuck? := by
  unfold nodeCourse
  cases node.expressions with
  | nil => rfl
  | cons first rest =>
      rw [findSome?_cons_or, ← stuck?_firstCourse node.kind first]
      exact stuck?_chainCourses _ _

end Body

end SlotVersioning
