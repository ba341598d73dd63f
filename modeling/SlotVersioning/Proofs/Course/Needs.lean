import SlotVersioning.Proofs.Course.Node

/-!
# What visits need

An assignment from a variable or from a field records what the value was, so it needs that the value
was visited before. In the course of a term and of a node every visit comes after those that it needs
(`Body.prepared_course`). What a visit touches is then written by itself or earlier in its course.
-/

namespace SlotVersioning

/-- The visits whose names an assignment records. -/
def Visit.needs : Visit → List Visit
  | assign _ (.variable source) => [read source]
  | assign _ (.field expression _) => [field expression]
  | _ => []

/-- The sites whose versions a visit depends on, beside the facts. -/
def Visit.touched (place : Visit) : List ExprId :=
  place.written ++ place.needs.flatMap Visit.written

/-- Every visit comes after those that it needs. -/
def Prepared : (seen visits : List Visit) → Prop
  | _, [] => True
  | seen, place :: rest =>
      (∀ need ∈ place.needs, need ∈ seen) ∧ Prepared (place :: seen) rest

theorem prepared_append {seen left right : List Visit} :
    Prepared seen (left ++ right) ↔
      Prepared seen left ∧ Prepared (left.reverse ++ seen) right := by
  induction left generalizing seen with
  | nil => simp [Prepared]
  | cons head tail induction =>
      simp only [List.cons_append, Prepared, induction, List.reverse_cons, List.append_assoc,
        List.nil_append, and_assoc]

/-- What the visits need is among them, or was seen before. -/
theorem Prepared.needs_visited {seen visits : List Visit} (prepared : Prepared seen visits)
    {place : Visit} (member : place ∈ visits) : ∀ need ∈ place.needs, need ∈ seen ++ visits := by
  induction visits generalizing seen with
  | nil => exact nomatch member
  | cons head tail induction =>
      intro need needed
      rcases List.mem_cons.1 member with rfl | later
      · exact List.mem_append_left _ (prepared.1 need needed)
      · exact List.perm_middle.mem_iff.2 (induction prepared.2 later need needed)

/-- What the visits touch was written by them, or by those seen before. -/
theorem Prepared.touched_written {seen visits : List Visit} (prepared : Prepared seen visits)
    {place : Visit} (member : place ∈ visits) :
    ∀ expression ∈ place.touched, expression ∈ (seen ++ visits).flatMap Visit.written := by
  intro expression touches
  rcases List.mem_append.1 touches with written | needed
  · exact List.mem_flatMap.2 ⟨place, List.mem_append_right seen member, written⟩
  · rcases List.mem_flatMap.1 needed with ⟨need, needs, written⟩
    exact List.mem_flatMap.2 ⟨need, prepared.needs_visited member need needs, written⟩

namespace Course

/-- Every visit of a course comes after those that it needs, whatever was visited before. -/
def Prepared (course : Course) : Prop := ∀ seen, SlotVersioning.Prepared seen course.visits

theorem Prepared.chain {first rest : Course} (before : first.Prepared) (after : rest.Prepared) :
    (Course.chain first rest).Prepared :=
  fun seen => prepared_append.2 ⟨before seen, after _⟩

private theorem Prepared.test {condition onTrue onFalse : Course} (tested : condition.Prepared)
    (held : onTrue.Prepared) (failed : onFalse.Prepared) :
    (Course.test condition onTrue onFalse).Prepared :=
  fun seen => prepared_append.2 ⟨tested seen, prepared_append.2 ⟨held _, failed _⟩⟩

theorem prepared_visit {place : Visit} (needless : place.needs = []) :
    (visit place).Prepared := by
  intro seen
  refine ⟨fun need needs => ?_, trivial⟩
  rw [needless] at needs
  exact nomatch needs

theorem prepared_free : free.Prepared := fun _ => trivial

end Course

namespace Term

open Course

private theorem prepared_afterWrite (target : Term) : target.afterWrite.Prepared := by
  unfold afterWrite
  split
  · exact prepared_visit rfl
  · exact prepared_free

/-- The value of an assignment is visited before it is assigned. -/
private theorem prepared_assign {value : Term} (prepared : value.course.Prepared)
    (target : VariableSite) : (Course.chain value.course (.visit (.assign target value))).Prepared := by
  intro seen
  refine prepared_append.2 ⟨prepared seen, fun need needs => ?_, trivial⟩
  apply List.mem_append_left
  rw [List.mem_reverse]
  cases value with
  | «variable» source => exact needs
  | field expression receiver =>
      rw [List.mem_singleton.1 needs]
      exact List.mem_append_right _ List.mem_cons_self
  | _ => exact nomatch needs

private theorem prepared_course (term : Term) : term.course.Prepared := by
  induction term with
  | nothing | missing | compound => exact fun _ => trivial
  | header condition induction => exact induction
  | «variable» target => exact prepared_visit rfl
  | field expression receiver induction => exact induction.chain (prepared_visit rfl)
  | assign target value targetInduction valueInduction =>
      unfold course
      split
      · exact prepared_assign valueInduction _
      · exact targetInduction.chain (valueInduction.chain (prepared_afterWrite _))
  | ternary condition onTrue onFalse tested held failed => exact tested.test held failed
  | and left right first second => exact first.test second (fun _ => trivial)
  | or left right first second => exact first.test (fun _ => trivial) second
  | not operand induction => exact induction.test (fun _ => trivial) (fun _ => trivial)
  | typeTest operand binding induction =>
      apply induction.chain
      cases binding with
      | none | invalid => exact fun _ => trivial
      | «variable» target =>
          have binds : (Course.visit (.define target)).Prepared := prepared_visit rfl
          exact prepared_free.test (binds.chain fun _ => trivial) fun _ => trivial
  | increment target induction =>
      unfold course
      split
      · exact prepared_visit rfl
      · exact induction.chain (prepared_afterWrite _)
  | chain first rest before after => exact before.chain after
  | clobber operands induction => exact induction.chain (prepared_visit rfl)

end Term

theorem Body.prepared_course (body : Body) (name : NodeId) : (body.course name).Prepared := by
  have chains (expressions : List ExprId) {course : Course} (prepared : course.Prepared) :
      (body.chainCourses course expressions).Prepared := by
    induction expressions generalizing course with
    | nil => exact prepared
    | cons head tail induction => exact induction (prepared.chain (Term.prepared_course _))
  unfold course nodeCourse
  split
  · split
    · exact Course.prepared_free
    · refine chains _ ?_
      unfold firstCourse
      split
      · exact Course.prepared_visit rfl
      · exact Term.prepared_course _
  · exact Course.prepared_free

end SlotVersioning
