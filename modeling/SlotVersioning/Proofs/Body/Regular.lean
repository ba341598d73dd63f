import SlotVersioning.Proofs.Body.Uses
import SlotVersioning.Proofs.Course.Node
import SlotVersioning.Proofs.Flow.Built

/-!
# Regular bodies

A body is regular when its flow graph was built by the operations on flow graphs, every expression
is used in one place, no variable has a negative slot, and no copies of `finally` blocks are
involved. At the nodes of such a body every variable is visited once (`Regular.nodup_sites`,
`Regular.sites_apart`).
-/

namespace SlotVersioning

/-! ## Courses visit what is in the arena -/

/-- The place is in the arena: a variable at its own expression, or a field access. -/
structure Visit.In (arena : Arena) (place : Visit) : Prop where
  site : ∀ target, place.site? = some target → arena.site? target.expression = some target
  field : ∀ expression, place = .field expression →
    ∃ receiver name, arena.get? expression = some (.field receiver name)

theorem Visit.In.of_site {arena : Arena} {place : Visit} {target : VariableSite}
    (visits : place.site? = some target) (known : arena.site? target.expression = some target) :
    place.In arena where
  site := by
    intro other same
    rw [visits] at same
    cases same
    exact known
  field := by
    rintro expression rfl
    exact nomatch visits

theorem Visit.In.clobber (arena : Arena) : Visit.In arena .clobber where
  site := fun _ visits => nomatch visits
  field := fun _ same => nomatch same

namespace Course

/-- Every place of the course is in the arena. -/
def VisitsIn (arena : Arena) (course : Course) : Prop := ∀ place ∈ course.visits, place.In arena

/-- Every site of the course is a variable of the arena, at its own expression. -/
def SitesIn (arena : Arena) (course : Course) : Prop :=
  ∀ place ∈ course.visits, ∀ target, place.site? = some target →
    arena.site? target.expression = some target

namespace VisitsIn

variable {arena : Arena}

theorem of_nothing {course : Course} (nothing : course.visits = []) : course.VisitsIn arena := by
  intro place member
  rw [nothing] at member
  exact nomatch member

theorem chain {first rest : Course} (before : first.VisitsIn arena) (after : rest.VisitsIn arena) :
    (Course.chain first rest).VisitsIn arena := by
  intro place member
  rw [visits, List.mem_append] at member
  exact member.elim (before place) (after place)

private theorem test {condition onTrue onFalse : Course} (tested : condition.VisitsIn arena)
    (held : onTrue.VisitsIn arena) (failed : onFalse.VisitsIn arena) :
    (Course.test condition onTrue onFalse).VisitsIn arena := by
  intro place member
  rw [visits, List.mem_append, List.mem_append] at member
  exact member.elim (tested place) fun arms => arms.elim (held place) (failed place)

theorem visit {place : Visit} (inside : place.In arena) : (Course.visit place).VisitsIn arena := by
  intro other member
  rcases List.mem_singleton.1 member with rfl
  exact inside

end VisitsIn

end Course

namespace Arena

variable {arena : Arena}

open Course

theorem expression_of_site? {expression : ExprId} {target : VariableSite}
    (found : arena.site? expression = some target) : target.expression = expression := by
  rcases Option.map_eq_some_iff.1 found with ⟨access, -, rfl⟩
  rfl

private theorem site?_of_binding {binding : Option ExprId} {target : VariableSite}
    (bound : arena.binding binding = .variable target) :
    arena.site? target.expression = some target := by
  cases binding with
  | none => exact nomatch bound
  | some expression =>
      unfold binding at bound
      dsimp only at bound
      split at bound
      · next site found =>
          cases bound
          rw [expression_of_site? found]
          exact found
      · exact nomatch bound

private theorem visitsIn_afterWrite (target : Term) : target.afterWrite.VisitsIn arena := by
  unfold Term.afterWrite
  split
  · exact .visit (.clobber arena)
  · exact .of_nothing rfl

private theorem visitsIn_chainOf {operand : ExprId → Term}
    (each : ∀ other, (operand other).course.VisitsIn arena) (operands : List ExprId) :
    (Term.chainOf (operands.map operand)).course.VisitsIn arena := by
  induction operands with
  | nil => exact .of_nothing rfl
  | cons head tail induction => exact .chain (each head) induction

/-- An operand that is a variable is one of the arena. -/
private theorem site?_of_operand {term : Term} {target : VariableSite}
    (sound : term.course.VisitsIn arena) (found : term.site? = some target) :
    arena.site? target.expression = some target := by
  rw [RunM.eq_variable found] at sound
  exact (sound (.read target) List.mem_cons_self).site target rfl

private theorem visitsIn_termOf {operand : ExprId → Term}
    (each : ∀ other, (operand other).course.VisitsIn arena) {owner : ExprId} {expr : Expr}
    (stored : arena.get? owner = some expr) :
    (arena.termOf operand owner expr).course.VisitsIn arena := by
  cases expr with
  | header condition => exact each condition
  | assignment target value compound =>
      cases compound with
      | some operator => exact .of_nothing rfl
      | none =>
          simp only [termOf, Term.course]
          split
          · next defined found =>
              have known := site?_of_operand (each target) found
              exact .chain (each value) (.visit (.of_site rfl known))
          · exact .chain (each target) (.chain (each value) (visitsIn_afterWrite _))
  | «variable» access =>
      apply Course.VisitsIn.visit
      apply Visit.In.of_site rfl
      unfold site? access?
      rw [stored]
      rfl
  | field receiver name =>
      apply Course.VisitsIn.chain
      · cases receiver with
        | none => exact .of_nothing rfl
        | some inner => exact each inner
      · apply Course.VisitsIn.visit
        constructor
        · intro target visits
          cases visits
        · rintro _ ⟨⟩
          exact ⟨receiver, name, stored⟩
  | ternary condition onTrue onFalse => exact .test (each condition) (each onTrue) (each onFalse)
  | and left right => exact .test (each left) (each right) (.of_nothing rfl)
  | or left right => exact .test (each left) (.of_nothing rfl) (each right)
  | not inner => exact .test (each inner) (.of_nothing rfl) (.of_nothing rfl)
  | typeTest inner binding =>
      apply (each inner).chain
      cases bound : arena.binding binding with
      | none => exact .of_nothing rfl
      | invalid offender => exact .of_nothing rfl
      | «variable» target =>
          have binds : (Course.visit (.define target)).VisitsIn arena :=
            .visit (.of_site rfl (site?_of_binding bound))
          exact .test (.of_nothing rfl) (binds.chain (.of_nothing rfl)) (.of_nothing rfl)
  | increment target form =>
      simp only [termOf, Term.course]
      split
      · next incremented found =>
          exact .visit (.of_site rfl (site?_of_operand (each target) found))
      · exact .chain (each target) (visitsIn_afterWrite _)
  | call receiver name arguments =>
      exact .chain (visitsIn_chainOf each _) (.visit (.clobber arena))
  | newObject arguments =>
      exact .chain (visitsIn_chainOf each _) (.visit (.clobber arena))
  | _ => exact visitsIn_chainOf each _

theorem visitsIn_unfold (depth : Nat) (root : ExprId) :
    (arena.unfold depth root).course.VisitsIn arena := by
  induction depth generalizing root with
  | zero => exact .of_nothing rfl
  | succ depth induction =>
      unfold unfold
      cases stored : arena.get? root with
      | none => exact .of_nothing rfl
      | some expr => exact visitsIn_termOf induction stored

end Arena

/-! ## Sites of nodes -/

/-- A value that is listed once belongs to one entry. -/
theorem eq_of_nodup_flatMap {α β : Type} {list : List α} {listed : α → List β}
    (once : (list.flatMap listed).Nodup) {left right : α} (leftMember : left ∈ list)
    (rightMember : right ∈ list) {value : β} (inLeft : value ∈ listed left)
    (inRight : value ∈ listed right) : left = right := by
  induction list with
  | nil => exact nomatch leftMember
  | cons head tail induction =>
      rw [List.flatMap_cons, List.nodup_append] at once
      have apart {entry : α} (member : entry ∈ tail) (inHead : value ∈ listed head)
          (inEntry : value ∈ listed entry) : False :=
        once.2.2 value inHead value (List.mem_flatMap.2 ⟨entry, member, inEntry⟩) rfl
      rcases List.mem_cons.1 leftMember with rfl | leftTail <;>
        rcases List.mem_cons.1 rightMember with rfl | rightTail
      · rfl
      · exact (apart rightTail inLeft inRight).elim
      · exact (apart leftTail inRight inLeft).elim
      · exact induction once.2.1 leftTail rightTail

namespace Body

variable {body : Body}

/-- Every use of an expression, by a node or as an operand. -/
def uses (body : Body) : List ExprId :=
  body.graph.nodes.toList.flatMap FlowNode.expressions ++
    (List.range body.arena.size).flatMap body.arena.operands

structure Regular (body : Body) : Prop where
  built : body.graph.Built
  usedOnce : body.uses.Nodup
  ordinary : ∀ expression target, body.arena.site? expression = some target → 0 ≤ target.slot
  noShortPaths : ∀ exit, body.graph.shortPaths? exit = none
  noExtraNodes : ∀ node, body.graph.isExtra node = false

/-- Every expression has one place, and no copies of `finally` blocks are shared. The slots of
variables may be negative. -/
structure Unshared (body : Body) : Prop where
  built : body.graph.Built
  usedOnce : body.uses.Nodup
  noShortPaths : ∀ exit, body.graph.shortPaths? exit = none
  noExtraNodes : ∀ node, body.graph.isExtra node = false

theorem Regular.unshared (regular : body.Regular) : body.Unshared :=
  ⟨regular.built, regular.usedOnce, regular.noShortPaths, regular.noExtraNodes⟩

private theorem visitsIn_chainCourses {course : Course} (sound : course.VisitsIn body.arena)
    (expressions : List ExprId) : (body.chainCourses course expressions).VisitsIn body.arena := by
  induction expressions generalizing course with
  | nil => exact sound
  | cons head tail induction => exact induction (.chain sound (Arena.visitsIn_unfold _ _))

theorem visitsIn_course (body : Body) (name : NodeId) :
    (body.course name).VisitsIn body.arena := by
  unfold course
  split
  · next node found =>
      unfold nodeCourse
      split
      · exact .of_nothing rfl
      · apply visitsIn_chainCourses
        unfold firstCourse
        split
        · next bound kind found =>
            apply Course.VisitsIn.visit
            apply Visit.In.of_site rfl
            rw [Arena.expression_of_site? found]
            exact found
        · exact Arena.visitsIn_unfold _ _
  · exact .of_nothing rfl

theorem sitesIn_course (body : Body) (name : NodeId) : (body.course name).SitesIn body.arena :=
  fun place member => (body.visitsIn_course name place member).site

theorem Regular.ordinary_of_visit {body : Body} (regular : body.Regular) {name : NodeId}
    {place : Visit} (inCourse : place ∈ (body.course name).visits) {target : VariableSite}
    (visits : place.site? = some target) : 0 ≤ target.slot :=
  regular.ordinary _ _ (body.sitesIn_course name place inCourse target visits)

/-- The expressions at a node and below them. -/
def below (body : Body) (node : FlowNode) : List ExprId :=
  node.expressions.flatMap (body.arena.below (body.arena.size + 1))

private theorem count_sites_chainCourses (course : Course) (expressions : List ExprId)
    (expression : ExprId) :
    (body.chainCourses course expressions).sites.count expression ≤
      course.sites.count expression +
        (expressions.flatMap (body.arena.below (body.arena.size + 1))).count expression := by
  induction expressions generalizing course with
  | nil => exact Nat.le_refl _
  | cons head tail induction =>
      have first := body.arena.count_sites_unfold (body.arena.size + 1) head expression
      apply Nat.le_trans (induction _)
      rw [Course.sites_chain, List.flatMap_cons, List.count_append, List.count_append]
      unfold Arena.term
      omega

theorem count_sites_nodeCourse (node : FlowNode) (expression : ExprId) :
    (body.nodeCourse node).sites.count expression ≤ (body.below node).count expression := by
  unfold nodeCourse below
  split
  · exact Nat.zero_le _
  · next first rest equal =>
      apply Nat.le_trans (count_sites_chainCourses _ _ _)
      rw [equal, List.flatMap_cons, List.count_append]
      refine Nat.add_le_add_right ?_ _
      unfold firstCourse
      split
      · next bound kind found =>
          change [bound.expression].count expression ≤ _
          rw [Arena.expression_of_site? found, List.count_singleton]
          split
          · next same =>
              rw [← beq_iff_eq.1 same]
              exact body.arena.mem_below_self _ _
          · exact Nat.zero_le _
      · exact body.arena.count_sites_unfold _ _ _

/-- The sites at all nodes are different. -/
theorem nodup_all (usedOnce : body.uses.Nodup) :
    (body.graph.nodes.toList.flatMap fun node => (body.nodeCourse node).sites).Nodup := by
  have once : body.arena.UsedOnce (body.graph.nodes.toList.flatMap FlowNode.expressions) :=
    usedOnce
  have below := once.nodup_below (body.arena.size + 1)
  rw [List.flatMap_assoc] at below
  rw [List.nodup_iff_count_le_one] at below ⊢
  intro expression
  refine Nat.le_trans ?_ (below expression)
  induction body.graph.nodes.toList with
  | nil => exact Nat.le_refl _
  | cons head tail induction =>
      rw [List.flatMap_cons, List.flatMap_cons, List.count_append, List.count_append]
      exact Nat.add_le_add (count_sites_nodeCourse head expression) induction

theorem nodup_sites (usedOnce : body.uses.Nodup) (name : NodeId) :
    (body.course name).sites.Nodup := by
  unfold course
  split
  · next node found =>
      have member := Array.mem_toList_iff.2 (Array.mem_of_getElem? found)
      exact (List.nodup_flatMap.1 (nodup_all usedOnce)).1 node member
  · exact List.nodup_nil

/-- No site is visited at two nodes. -/
theorem sites_apart (usedOnce : body.uses.Nodup) {left right : NodeId} (different : left ≠ right) :
    ∀ expression ∈ (body.course left).sites, expression ∉ (body.course right).sites := by
  intro expression inLeft inRight
  have apart := (List.nodup_flatMap.1 (nodup_all usedOnce)).2
  rw [List.pairwise_iff_getElem] at apart
  unfold course FlowGraph.node? at inLeft inRight
  split at inLeft
  · next leftNode leftStored =>
      split at inRight
      · next rightNode rightStored =>
          rcases Array.getElem?_eq_some_iff.1 leftStored with ⟨leftKnown, rfl⟩
          rcases Array.getElem?_eq_some_iff.1 rightStored with ⟨rightKnown, rfl⟩
          rcases Nat.lt_or_gt_of_ne different with less | greater
          · exact apart left right leftKnown rightKnown less inLeft inRight
          · exact apart right left rightKnown leftKnown greater inRight inLeft
      · exact nomatch inRight
  · exact nomatch inLeft

theorem Unshared.nodup_sites (unshared : body.Unshared) (name : NodeId) :
    (body.course name).sites.Nodup :=
  body.nodup_sites unshared.usedOnce name

theorem Unshared.sites_apart (unshared : body.Unshared) {left right : NodeId}
    (different : left ≠ right) :
    ∀ expression ∈ (body.course left).sites, expression ∉ (body.course right).sites :=
  body.sites_apart unshared.usedOnce different

/-- A site is visited at one place. -/
theorem place_unique (usedOnce : body.uses.Nodup) {left right : NodeId}
    {leftPlace rightPlace : Visit} (leftMember : leftPlace ∈ (body.course left).visits)
    (rightMember : rightPlace ∈ (body.course right).visits) {expression : ExprId}
    (inLeft : expression ∈ leftPlace.written) (inRight : expression ∈ rightPlace.written) :
    leftPlace = rightPlace := by
  by_cases same : left = right
  · subst same
    exact eq_of_nodup_flatMap (body.nodup_sites usedOnce left) leftMember rightMember inLeft inRight
  · have leftSite := List.mem_flatMap.2 ⟨leftPlace, leftMember, inLeft⟩
    have rightSite := List.mem_flatMap.2 ⟨rightPlace, rightMember, inRight⟩
    exact absurd rightSite (body.sites_apart usedOnce same expression leftSite)

/-! ## A regular body with a loop -/

/-- Slots that are not negative by inspection. -/
theorem ordinary_of_all
    (all : (body.arena.exprs.toList.all fun expr =>
      expr.access?.all fun access => decide (0 ≤ access.slot)) = true)
    (expression : ExprId) (target : VariableSite)
    (found : body.arena.site? expression = some target) : 0 ≤ target.slot := by
  rcases Option.map_eq_some_iff.1 found with ⟨access, stored, rfl⟩
  rcases Option.bind_eq_some_iff.1 stored with ⟨expr, present, isVariable⟩
  have each := List.all_eq_true.1 all expr (Array.mem_toList_iff.2 (Array.mem_of_getElem? present))
  rw [isVariable] at each
  exact of_decide_eq_true each

/-- A loop that reads a variable and then assigns it. -/
def rereading : Body where
  arena.exprs := #[.variable { slot := 0 }, .variable { slot := 0 }, .literal .null,
    .assignment 1 2 none]
  graph.nodes := #[
    { kind := .direct, statement := 0, expressions := [0], predecessors := [1], successors := [1] },
    { kind := .direct, statement := 0, expressions := [3], predecessors := [0], successors := [0] }]
  graph.entry := some 0
  signature.isStatic := true

private theorem built_rereading : rereading.graph.Built := by
  have nodes : FlowGraph.Built _ := (FlowGraph.Built.empty.addNode .direct 0).addNode .direct 0
  have reading := @FlowGraph.Built.appendExpression _ _ nodes 0 0 rfl
  have assigning := @FlowGraph.Built.appendExpression _ _ reading 1 3 rfl
  have onward := @FlowGraph.Built.connect _ _ assigning 0 1 rfl
  exact @FlowGraph.Built.connect _ _ onward 1 0 rfl

theorem regular_rereading : rereading.Regular where
  built := built_rereading
  usedOnce := by decide
  ordinary := ordinary_of_all rfl
  noShortPaths := fun _ => Std.ExtTreeMap.getElem?_empty
  noExtraNodes := fun _ => Std.ExtTreeSet.contains_empty

/-- In the loop the read comes again after the assignment. -/
theorem course_rereading :
    rereading.course 0 = .visit (.read ⟨0, 0, none⟩) ∧
      rereading.course 1 = .chain .free (.visit (.assign ⟨1, 0, none⟩ .nothing)) := by
  constructor <;> decide

end Body

end SlotVersioning
