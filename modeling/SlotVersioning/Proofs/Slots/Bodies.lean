import SlotVersioning.Proofs.Body.Unversioned
import SlotVersioning.Proofs.Slots.Visits

/-!
# Bodies seen through a view

Bodies that differ in the slots of other variables only (`Body.VariesBeside`) have matching courses
at their nodes (`Body.course_matches`). Every such body can be exchanged for one without negative
slots (`Body.isolated`).
-/

namespace SlotVersioning

/-- The expressions are the same, or variables that differ in their slots. -/
inductive Expr.VariesBeside (slot : Slot) : Expr → Expr → Prop
  | same (expr : Expr) : VariesBeside slot expr expr
  | variable (access : VariableAccess) (other : Slot) (elsewhere : access.slot ≠ slot)
      (otherElsewhere : other ≠ slot) :
      VariesBeside slot (.variable access) (.variable { access with slot := other })

namespace Expr.VariesBeside

variable {slot : Slot} {first second third : Expr}

theorem symm (varies : first.VariesBeside slot second) : second.VariesBeside slot first := by
  cases varies with
  | same => exact .same _
  | «variable» access other elsewhere otherElsewhere =>
      exact .variable { access with slot := other } access.slot otherElsewhere elsewhere

theorem trans (varies : first.VariesBeside slot second)
    (further : second.VariesBeside slot third) : first.VariesBeside slot third := by
  cases varies with
  | same => exact further
  | «variable» access other elsewhere otherElsewhere =>
      cases further with
      | same => exact .variable access other elsewhere otherElsewhere
      | «variable» _ last _ lastElsewhere => exact .variable access last elsewhere lastElsewhere

private theorem operands (varies : first.VariesBeside slot second) :
    second.operands = first.operands := by
  cases varies <;> rfl

end Expr.VariesBeside

/-- The bodies differ in the slots of variables only, and these are other slots in both. -/
structure Body.VariesBeside (slot : Slot) (first second : Body) : Prop where
  statements : second.statements = first.statements
  graph : second.graph = first.graph
  signature : second.signature = first.signature
  exprs : List.Forall₂ (Expr.VariesBeside slot) first.arena.exprs.toList second.arena.exprs.toList

/-! ## Variables -/

/-- The variable is not the one of the view. -/
def VariableSite.Away (view : SlotView) (target : VariableSite) : Prop :=
  target.slot ≠ view.slot ∧ ¬ view.sites target.expression

/-- The variable of the view at one of its sites, or other variables. -/
inductive VariableSite.Matches (view : SlotView) : VariableSite → VariableSite → Prop
  | here {target : VariableSite} (same : target.slot = view.slot)
      (inside : view.sites target.expression) : Matches view target target
  | away {target other : VariableSite} (away : target.Away view) (otherAway : other.Away view) :
      Matches view target other

theorem VariableSite.Away.visit {view : SlotView} {target : VariableSite} (away : target.Away view)
    {place : Visit} (visits : place.site? = some target) : place.Away view := by
  intro other same
  rw [visits] at same
  cases same
  exact away

/-- The arenas have the same expressions but for the slots of other variables, and the sites of the
view are those of its variable. -/
structure Arena.Matches (view : SlotView) (left right : Arena) : Prop where
  size : left.size = right.size
  exprs : ∀ expression,
    Option.Rel (Expr.VariesBeside view.slot) (left.get? expression) (right.get? expression)
  sites : ∀ expression target, left.site? expression = some target →
    (view.sites expression ↔ target.slot = view.slot)
  otherSites : ∀ expression target, right.site? expression = some target →
    (view.sites expression ↔ target.slot = view.slot)

namespace Arena.Matches

variable {view : SlotView} {left middle right : Arena}

theorem symm (matching : left.Matches view right) : right.Matches view left where
  size := matching.size.symm
  exprs := by
    intro expression
    have varies := matching.exprs expression
    generalize left.get? expression = first at varies ⊢
    generalize right.get? expression = second at varies ⊢
    cases varies with
    | some varies => exact .some varies.symm
    | none => exact .none
  sites := matching.otherSites
  otherSites := matching.sites

theorem trans (first : left.Matches view middle) (second : middle.Matches view right) :
    left.Matches view right where
  size := first.size.trans second.size
  exprs := by
    intro expression
    have varies := first.exprs expression
    have further := second.exprs expression
    generalize left.get? expression = leftExpr at varies ⊢
    generalize middle.get? expression = middleExpr at varies further
    generalize right.get? expression = rightExpr at further ⊢
    cases varies with
    | some varies =>
        cases further with
        | some further => exact .some (varies.trans further)
    | none =>
        cases further
        exact .none
  sites := first.sites
  otherSites := second.otherSites

variable (matching : left.Matches view right)

include matching

/-- At one expression there are matching variables. -/
theorem site (expression : ExprId) : Option.Rel (VariableSite.Matches view)
    (left.site? expression) (right.site? expression) := by
  have varies := matching.exprs expression
  have sites := matching.sites expression
  have otherSites := matching.otherSites expression
  unfold Arena.site? Arena.access? at sites otherSites ⊢
  generalize left.get? expression = first at varies sites ⊢
  generalize right.get? expression = second at varies otherSites ⊢
  cases varies with
  | none => exact .none
  | @some expr other varies =>
      cases varies with
      | same =>
          cases accessed : expr.access? with
          | none =>
              rw [Option.bind_some, accessed]
              exact .none
          | some access =>
              rw [Option.bind_some, accessed, Option.map_some] at sites ⊢
              by_cases here : access.slot = view.slot
              · exact .some (.here here ((sites _ rfl).2 here))
              · have away : VariableSite.Away view ⟨expression, access.slot, access.debugName⟩ :=
                  ⟨here, fun inside => here ((sites _ rfl).1 inside)⟩
                exact .some (.away away away)
      | «variable» access other elsewhere otherElsewhere =>
          exact .some (.away ⟨elsewhere, fun inside => elsewhere ((sites _ rfl).1 inside)⟩
            ⟨otherElsewhere, fun inside => otherElsewhere ((otherSites _ rfl).1 inside)⟩)

end Arena.Matches

/-! ## Terms -/

/-- Terms of one shape with matching courses. -/
structure Term.Matches (view : SlotView) (left right : Term) : Prop where
  course : left.course.Matches view right.course
  site : Option.Rel (VariableSite.Matches view) left.site? right.site?
  field : left.isField = right.isField

namespace Term.Matches

variable {view : SlotView} {left right : Term}

theorem of_course (course : left.course.Matches view right.course) (site : left.site? = none)
    (otherSite : right.site? = none) (field : left.isField = right.isField) :
    left.Matches view right := by
  refine ⟨course, ?_, field⟩
  rw [site, otherSite]
  exact .none

private theorem nothing : Term.Matches view .nothing .nothing := of_course .free rfl rfl rfl

theorem afterWrite (matching : left.Matches view right) :
    left.afterWrite.Matches view right.afterWrite := by
  unfold Term.afterWrite
  rw [matching.field]
  split
  · exact .visit (.away nofun nofun)
  · exact .free

private theorem read {target other : VariableSite} (sites : target.Matches view other) :
    Term.Matches view (.variable target) (.variable other) := by
  refine ⟨?_, .some sites, rfl⟩
  cases sites with
  | here same inside => exact .visit (.read same inside)
  | away away otherAway => exact .visit (.away (away.visit rfl) (otherAway.visit rfl))

private theorem assign {target value otherTarget otherValue : Term}
    (targets : target.Matches view otherTarget) (values : value.Matches view otherValue) :
    Term.Matches view (.assign target value) (.assign otherTarget otherValue) := by
  refine of_course ?_ rfl rfl rfl
  have sites := targets.site
  unfold Term.course
  generalize target.site? = site at sites ⊢
  generalize otherTarget.site? = otherSite at sites ⊢
  cases sites with
  | none => exact .chain targets.course (.chain values.course targets.afterWrite)
  | some sites =>
      refine .chain values.course ?_
      cases sites with
      | here same inside => exact .visit (.assign same inside)
      | away away otherAway => exact .visit (.away (away.visit rfl) (otherAway.visit rfl))

private theorem increment {target other : Term} (targets : target.Matches view other) :
    Term.Matches view (.increment target) (.increment other) := by
  refine of_course ?_ rfl rfl rfl
  have sites := targets.site
  unfold Term.course
  generalize target.site? = site at sites ⊢
  generalize other.site? = otherSite at sites ⊢
  cases sites with
  | none => exact .chain targets.course targets.afterWrite
  | some sites =>
      cases sites with
      | here same inside => exact .visit (.increment same inside)
      | away away otherAway => exact .visit (.away (away.visit rfl) (otherAway.visit rfl))

private theorem chainOf {operand other : ExprId → Term}
    (each : ∀ expression, (operand expression).Matches view (other expression))
    (operands : List ExprId) :
    (Term.chainOf (operands.map operand)).Matches view (Term.chainOf (operands.map other)) := by
  induction operands with
  | nil => exact nothing
  | cons head tail induction => exact of_course (.chain (each head).course induction.course) rfl rfl rfl

private theorem clobber (matching : left.Matches view right) :
    Term.Matches view (.clobber left) (.clobber right) :=
  of_course (.chain matching.course (.visit (.away nofun nofun))) rfl rfl rfl

end Term.Matches

namespace Arena.Matches

variable {view : SlotView} {left right : Arena} (matching : left.Matches view right)

include matching

private theorem typeTest {operand other : Term} (operands : operand.Matches view other)
    (binding : Option ExprId) :
    Term.Matches view (.typeTest operand (left.binding binding))
      (.typeTest other (right.binding binding)) := by
  refine .of_course (.chain operands.course ?_) rfl rfl rfl
  cases binding with
  | none => exact .free
  | some expression =>
      have sites := matching.site expression
      unfold Arena.binding
      dsimp only
      generalize left.site? expression = site at sites ⊢
      generalize right.site? expression = otherSite at sites ⊢
      cases sites with
      | none => exact .stuck _
      | some sites =>
          refine .test .free (.chain ?_ (.settled true)) (.settled false)
          cases sites with
          | here same inside => exact .visit (.define same inside)
          | away away otherAway => exact .visit (.away (away.visit rfl) (otherAway.visit rfl))

private theorem termOf {operand other : ExprId → Term}
    (each : ∀ expression, (operand expression).Matches view (other expression)) (owner : ExprId)
    (expr : Expr) (noVariable : expr.access? = none) :
    (left.termOf operand owner expr).Matches view (right.termOf other owner expr) := by
  have course (expression : ExprId) := (each expression).course
  cases expr with
  | header condition => exact .of_course (course condition) rfl rfl rfl
  | assignment target value compound =>
      cases compound with
      | some operator => exact .of_course (.stuck _) rfl rfl rfl
      | none => exact .assign (each target) (each value)
  | «variable» access => exact nomatch noVariable
  | field receiver name =>
      refine .of_course (.chain ?_ (.visit (.away nofun nofun))) rfl rfl rfl
      cases receiver with
      | none => exact .free
      | some inner => exact course inner
  | ternary condition onTrue onFalse =>
      exact .of_course (.test (course condition) (course onTrue) (course onFalse)) rfl rfl rfl
  | and first second =>
      exact .of_course (.test (course first) (course second) (.settled false)) rfl rfl rfl
  | or first second =>
      exact .of_course (.test (course first) (.settled true) (course second)) rfl rfl rfl
  | not inner =>
      exact .of_course (.test (course inner) (.settled false) (.settled true)) rfl rfl rfl
  | typeTest inner binding => exact matching.typeTest (each inner) binding
  | increment target form => exact .increment (each target)
  | call receiver name arguments => exact .clobber (.chainOf each _)
  | newObject arguments => exact .clobber (.chainOf each _)
  | _ => exact .chainOf each _

private theorem unfold (depth : Nat) (expression : ExprId) :
    (left.unfold depth expression).Matches view (right.unfold depth expression) := by
  induction depth generalizing expression with
  | zero => exact .of_course (.stuck _) rfl rfl rfl
  | succ depth induction =>
      have varies := matching.exprs expression
      have sites := matching.site expression
      unfold Arena.site? Arena.access? at sites
      unfold Arena.unfold
      cases stored : left.get? expression with
      | none =>
          cases otherStored : right.get? expression with
          | none => exact .of_course (.stuck _) rfl rfl rfl
          | some other =>
              rw [stored, otherStored] at varies
              cases varies
      | some expr =>
          cases otherStored : right.get? expression with
          | none =>
              rw [stored, otherStored] at varies
              cases varies
          | some other =>
              rw [stored, otherStored] at varies sites
              cases varies with
              | some varies =>
                  cases varies with
                  | same =>
                      cases accessed : expr.access? with
                      | none => exact matching.termOf induction expression expr accessed
                      | some access =>
                          cases expr with
                          | «variable» =>
                              cases sites with
                              | some sites => exact .read sites
                          | _ => cases accessed
                  | «variable» =>
                      cases sites with
                      | some sites => exact .read sites

theorem term (expression : ExprId) :
    (left.term expression).Matches view (right.term expression) := by
  unfold Arena.term
  rw [matching.size]
  exact matching.unfold _ _

end Arena.Matches

/-! ## Nodes -/

namespace Body

variable {view : SlotView} {first second : Body} {slot : Slot}

private theorem chainCourses_matches (matching : first.arena.Matches view second.arena)
    {course other : Course} (courses : course.Matches view other) (expressions : List ExprId) :
    (first.chainCourses course expressions).Matches view
      (second.chainCourses other expressions) := by
  induction expressions generalizing course other with
  | nil => exact courses
  | cons head tail induction => exact induction (.chain courses (matching.term head).course)

private theorem firstCourse_matches (matching : first.arena.Matches view second.arena)
    (kind : FlowNodeKind) (expression : ExprId) :
    (first.firstCourse kind expression).Matches view (second.firstCourse kind expression) := by
  have sites := matching.site expression
  have courses := (matching.term expression).course
  unfold firstCourse
  generalize first.arena.site? expression = site at sites ⊢
  generalize second.arena.site? expression = otherSite at sites ⊢
  cases sites with
  | none => cases kind <;> exact courses
  | some sites =>
      cases kind with
      | forEachBinding =>
          cases sites with
          | here same inside => exact .visit (.define same inside)
          | away away otherAway => exact .visit (.away (away.visit rfl) (otherAway.visit rfl))
      | _ => exact courses

/-- At every node there are matching courses. -/
theorem course_matches (matching : first.arena.Matches view second.arena)
    (graph : second.graph = first.graph) (name : NodeId) :
    (first.course name).Matches view (second.course name) := by
  unfold course nodeCourse
  rw [graph]
  split
  · split
    · exact .free
    · exact chainCourses_matches matching (firstCourse_matches matching _ _) _
  · exact .free

end Body

/-- The view of a variable of a body. -/
def Body.view (body : Body) (config : Config) (slot : Slot) (ordinary : 0 ≤ slot) : SlotView where
  config := config
  slot := slot
  ordinary := ordinary
  sites := fun expression =>
    ∃ target, body.arena.site? expression = some target ∧ target.slot = slot

/-- Entries at one position of related lists are related. -/
private theorem getElem?_of_forall₂ {α β : Type} {related : α → β → Prop} {left : List α}
    {right : List β} (each : List.Forall₂ related left right) (position : Nat) :
    Option.Rel related left[position]? right[position]? := by
  induction each generalizing position with
  | nil => exact .none
  | cons holds rest induction =>
      cases position with
      | zero => exact .some holds
      | succ position => exact induction position

namespace Body.VariesBeside

variable {first second : Body} {slot : Slot} (varies : first.VariesBeside slot second)

include varies

theorem get? (expression : ExprId) : Option.Rel (Expr.VariesBeside slot)
    (first.arena.get? expression) (second.arena.get? expression) := by
  unfold Arena.get?
  rw [← Array.getElem?_toList, ← Array.getElem?_toList]
  exact getElem?_of_forall₂ varies.exprs expression

/-- A variable of the slot is the same in both bodies. -/
theorem access?_iff (expression : ExprId) (access : VariableAccess) (here : access.slot = slot) :
    second.arena.access? expression = some access ↔
      first.arena.access? expression = some access := by
  have exprs := varies.get? expression
  unfold Arena.access?
  generalize first.arena.get? expression = expr at exprs ⊢
  generalize second.arena.get? expression = other at exprs ⊢
  cases exprs with
  | none => rfl
  | some exprs =>
      cases exprs with
      | same => rfl
      | «variable» stored other elsewhere otherElsewhere =>
          constructor
          · intro found
            cases found
            exact absurd here otherElsewhere
          · intro found
            cases found
            exact absurd here elsewhere

private theorem site?_iff (expression : ExprId) (target : VariableSite)
    (here : target.slot = slot) :
    second.arena.site? expression = some target ↔ first.arena.site? expression = some target := by
  unfold Arena.site?
  rw [Option.map_eq_some_iff, Option.map_eq_some_iff]
  refine exists_congr fun access => and_congr_left fun names => ?_
  rw [← names] at here
  exact varies.access?_iff expression access here

theorem size : first.arena.size = second.arena.size := by
  have lengths := varies.exprs.length_eq
  rw [Array.length_toList, Array.length_toList] at lengths
  exact lengths

/-- Bodies that vary beside a slot match in its view. -/
theorem arenas (config : Config) (ordinary : 0 ≤ slot) :
    first.arena.Matches (first.view config slot ordinary) second.arena where
  size := varies.size
  exprs := varies.get?
  sites := by
    intro expression target found
    constructor
    · rintro ⟨other, known, same⟩
      rw [found] at known
      cases known
      exact same
    · exact fun same => ⟨target, found, same⟩
  otherSites := by
    intro expression target found
    constructor
    · rintro ⟨other, known, same⟩
      rw [← varies.site?_iff expression other same, found] at known
      cases known
      exact same
    · exact fun same => ⟨target, (varies.site?_iff expression target same).1 found, same⟩

private theorem operands (expression : ExprId) :
    second.arena.operands expression = first.arena.operands expression := by
  have exprs := varies.get? expression
  unfold Arena.operands
  generalize first.arena.get? expression = expr at exprs ⊢
  generalize second.arena.get? expression = other at exprs ⊢
  cases exprs with
  | none => rfl
  | some exprs => exact congrArg (fun operands => (some operands).getD []) exprs.operands

theorem uses : second.uses = first.uses := by
  unfold Body.uses
  rw [varies.graph, varies.size, funext varies.operands]

theorem unshared (unshared : first.Unshared) : second.Unshared where
  built := varies.graph ▸ unshared.built
  usedOnce := varies.uses ▸ unshared.usedOnce
  noShortPaths := varies.graph ▸ unshared.noShortPaths
  noExtraNodes := varies.graph ▸ unshared.noExtraNodes

/-- As many versions are discarded. -/
theorem versionedCount : second.arena.versionedCount = first.arena.versionedCount := by
  have exprs := varies.exprs
  rw [Arena.versionedCount_eq, Arena.versionedCount_eq]
  generalize first.arena.exprs.toList = left at exprs ⊢
  generalize second.arena.exprs.toList = right at exprs ⊢
  induction exprs with
  | nil => rfl
  | cons holds rest induction =>
      rw [List.countP_cons, List.countP_cons, induction]
      cases holds <;> rfl

end Body.VariesBeside

/-! ## Without negative slots -/

/-- The same expression, with the next slot in place of all other slots. -/
def Expr.isolated (slot : Slot) : Expr → Expr
  | .variable access =>
      if access.slot = slot then .variable access else .variable { access with slot := slot + 1 }
  | other => other

/-- The same body, with the next slot in place of all other slots. -/
def Body.isolated (slot : Slot) (body : Body) : Body :=
  { body with arena := { exprs := body.arena.exprs.map (Expr.isolated slot) } }

private theorem Expr.variesBeside_isolated (slot : Slot) (expr : Expr) :
    expr.VariesBeside slot (expr.isolated slot) := by
  cases expr with
  | «variable» access =>
      simp only [isolated]
      split
      · exact .same _
      · next elsewhere =>
          exact .variable access (slot + 1) elsewhere (Int.ne_of_gt (Int.lt_succ slot))
  | _ => exact .same _

theorem Body.variesBeside_isolated (slot : Slot) (body : Body) :
    body.VariesBeside slot (body.isolated slot) where
  statements := rfl
  graph := rfl
  signature := rfl
  exprs := by
    unfold isolated
    dsimp only
    rw [Array.toList_map, List.forall₂_map_right_iff]
    exact List.forall₂_same.2 fun expr _ => expr.variesBeside_isolated slot

private theorem Body.ordinary_isolated {slot : Slot} (ordinary : 0 ≤ slot) (body : Body)
    (expression : ExprId) (target : VariableSite)
    (found : (body.isolated slot).arena.site? expression = some target) : 0 ≤ target.slot := by
  rcases Option.map_eq_some_iff.1 found with ⟨access, stored, rfl⟩
  rcases Option.bind_eq_some_iff.1 stored with ⟨expr, present, isVariable⟩
  change (body.arena.exprs.map (Expr.isolated slot))[expression]? = some expr at present
  rw [Array.getElem?_map] at present
  rcases Option.map_eq_some_iff.1 present with ⟨original, -, rfl⟩
  cases original with
  | «variable» access =>
      simp only [Expr.isolated] at isVariable
      split at isVariable
      · next same =>
          cases isVariable
          exact same ▸ ordinary
      · cases isVariable
        exact Int.le_add_one ordinary
  | _ => exact nomatch isVariable

/-- The exchanged body is regular. -/
theorem Body.Unshared.regular_isolated {body : Body} (unshared : body.Unshared) {slot : Slot}
    (ordinary : 0 ≤ slot) : (body.isolated slot).Regular where
  built := unshared.built
  usedOnce := (body.variesBeside_isolated slot).uses ▸ unshared.usedOnce
  ordinary := body.ordinary_isolated ordinary
  noShortPaths := unshared.noShortPaths
  noExtraNodes := unshared.noExtraNodes

end SlotVersioning
