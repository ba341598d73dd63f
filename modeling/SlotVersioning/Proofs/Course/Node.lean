import SlotVersioning.Proofs.Course.Open

/-!
# Nodes

The course of a flow node chains the courses of its expressions. Evaluating a node is running its
course (`evaluateNode_branches`).
-/

namespace SlotVersioning

namespace Body

/-- The course of the first expression of a node, which may bind the variable of a loop. -/
def firstCourse (body : Body) (kind : FlowNodeKind) (expression : ExprId) : Course :=
  match kind, body.arena.site? expression with
  | .forEachBinding, some bound => .visit (.define bound)
  | _, _ => (body.arena.term expression).course

/-- The course followed by those of further expressions. -/
def chainCourses (body : Body) (course : Course) (expressions : List ExprId) : Course :=
  expressions.foldl (fun course expression => .chain course (body.arena.term expression).course)
    course

def nodeCourse (body : Body) (node : FlowNode) : Course :=
  match node.expressions with
  | [] => .free
  | first :: rest => body.chainCourses (body.firstCourse node.kind first) rest

/-- The course of a node by its name; nothing happens at an unknown node. -/
def course (body : Body) (name : NodeId) : Course :=
  match body.graph.node? name with
  | some node => body.nodeCourse node
  | none => .free

theorem course_of_node {body : Body} {name : NodeId} {node : FlowNode}
    (found : body.graph.node? name = some node) : body.course name = body.nodeCourse node := by
  rw [course, found]

/-! ## Courses of nodes can be gone through -/

theorem unstuck_of_chainCourses {body : Body} {expressions : List ExprId} {course : Course}
    (unstuck : (body.chainCourses course expressions).Unstuck) : course.Unstuck := by
  induction expressions generalizing course with
  | nil => exact unstuck
  | cons head tail induction => exact (induction unstuck).1

private theorem wellOpen_chainCourses {body : Body} {expressions : List ExprId} {course : Course}
    (unstuck : (body.chainCourses course expressions).Unstuck) (opened : course.WellOpen) :
    (body.chainCourses course expressions).WellOpen := by
  induction expressions generalizing course with
  | nil => exact opened
  | cons head tail induction =>
      have both : (Course.chain course (body.arena.term head).course).Unstuck :=
        unstuck_of_chainCourses unstuck
      exact induction unstuck (opened.chain (Term.wellOpen_course _ both.2))

theorem wellOpen_nodeCourse {body : Body} {node : FlowNode}
    (unstuck : (body.nodeCourse node).Unstuck) : (body.nodeCourse node).WellOpen := by
  unfold nodeCourse at unstuck ⊢
  split at unstuck
  · exact Course.wellOpen_free
  · apply wellOpen_chainCourses unstuck
    have first := unstuck_of_chainCourses unstuck
    unfold firstCourse at first ⊢
    split at first
    · exact Course.wellOpen_visit _
    · exact Term.wellOpen_course _ first

end Body

/-! ## Evaluating a node -/

namespace RunM

private theorem evaluateFirst_branches (context : Context) (site : Site) (kind : FlowNodeKind)
    (facts : Facts) (expression : ExprId) :
    OutcomeFacts.branches <$> evaluateFirst context site kind (.joined facts) expression =
      (context.body.firstCourse kind expression).run site facts := by
  have other := evaluate_branches site (context.body.arena.term expression) facts
  unfold evaluateFirst Body.firstCourse
  cases context.body.arena.site? expression with
  | none => cases kind <;> exact other
  | some bound =>
      cases kind with
      | forEachBinding =>
          simp only [Course.run, Visit.act, OutcomeFacts.merged, map_eq_pure_bind, bind_assoc,
            pure_bind]
          rfl
      | _ => exact other

private theorem evaluateRest_branches (context : Context) (site : Site) (facts : Facts)
    (expressions : List ExprId) {course : Course} {start : RunM OutcomeFacts}
    (same : OutcomeFacts.branches <$> start = course.run site facts) :
    OutcomeFacts.branches <$>
        (start >>= expressions.foldlM (evaluateExpression context site)) =
      (context.body.chainCourses course expressions).run site facts := by
  induction expressions generalizing course start with
  | nil =>
      simp only [List.foldlM_nil, bind_pure]
      exact same
  | cons head tail induction =>
      have next : OutcomeFacts.branches <$>
          (start >>= fun outcome => evaluateExpression context site outcome head) =
          (Course.chain course (context.body.arena.term head).course).run site facts := by
        simp only [Course.run, ← same, ← evaluate_branches, evaluateExpression, OutcomeFacts.join,
          OutcomeFacts.merged_eq, map_eq_pure_bind, bind_assoc, pure_bind]
        rfl
      have whole := induction next
      simp only [List.foldlM_cons, bind_assoc] at whole ⊢
      exact whole

/-- Evaluating a node is running its course. -/
theorem evaluateNode_branches (context : Context) (site : Site) (node : FlowNode) (facts : Facts) :
    OutcomeFacts.branches <$> evaluateNode context site node facts =
      (context.body.nodeCourse node).run site facts := by
  unfold evaluateNode Body.nodeCourse
  cases node.expressions with
  | nil => rfl
  | cons first rest =>
      exact evaluateRest_branches context site facts rest
        (evaluateFirst_branches context site node.kind facts first)

/-- An evaluation of a node that succeeds is a run of its course. -/
theorem course_of_evaluateNode {context : Context} {site : Site} {name : NodeId} {node : FlowNode}
    {facts : Facts} {outcome : OutcomeFacts} {before after : RunState}
    (found : context.graph.node? name = some node)
    (evaluates : evaluateNode context site node facts before = .ok outcome after) :
    (context.body.course name).run site facts before = .ok outcome.branches after := by
  rw [Body.course_of_node found, ← evaluateNode_branches, map_eq_pure_bind]
  exact bind_eq evaluates

/-- Only the branches of an outcome leave a node. -/
private theorem leave_branches (context : Context) (node : FlowNode) (name : NodeId)
    (outcome : OutcomeFacts) :
    leave context name (leaving context node (.split outcome.branches.1 outcome.branches.2)) =
      leave context name (leaving context node outcome) := by
  unfold leave differs leaving
  split
  · simp only [OutcomeFacts.ifTrue_editEach, OutcomeFacts.ifFalse_editEach]
    rfl
  · rfl

/-- A visit runs the course of the node. -/
theorem visit_course (context : Context) (live : Bool) (dirty : DirtyNodes) (node : FlowNode)
    (name : NodeId) :
    visit context live dirty (node, name) = (do
      let facts ← arrive context name
      let outcome ← (context.body.nodeCourse node).run (context.site node.statement live) facts
      let changed ← leave context name (leaving context node (.split outcome.1 outcome.2))
      if changed && !context.graph.isExtra name then
        return (dirty.erase name).insertMany node.successors
      else
        return dirty.erase name) := by
  simp only [visit, ← evaluateNode_branches, map_eq_pure_bind, bind_assoc, pure_bind,
    leave_branches]

end RunM

end SlotVersioning
