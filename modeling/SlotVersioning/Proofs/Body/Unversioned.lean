import SlotVersioning.Proofs.Course.Node
import SlotVersioning.Proofs.Pass.Rounds

/-!
# Bodies without their versions

The versions that are stored in a body have no part in what a run does: no course depends on them,
and so no visit, no pass and no loop does (`RunM.versionAll_unversioned`). Writing versions replaces
all of them, and clearing leaves none (`Arena.clearVersions_eq`).
-/

namespace SlotVersioning

open Std

/-! ## Expressions -/

namespace Expr

@[simp] theorem withVersion_withVersion (expr : Expr) (first second : Version) :
    (expr.withVersion first).withVersion second = expr.withVersion second := by
  cases expr <;> rfl

@[simp] theorem access?_withVersion (expr : Expr) (version : Version) :
    (expr.withVersion version).access? =
      expr.access?.map fun access => { access with version } := by
  cases expr <;> rfl

end Expr

namespace Arena

variable (arena : Arena) (versions others : ExprId → Version)

@[simp] theorem get?_withVersions (expression : ExprId) :
    (arena.withVersions versions).get? expression =
      (arena.get? expression).map (Expr.withVersion (versions expression)) :=
  Array.getElem?_mapIdx

@[simp] theorem size_withVersions : (arena.withVersions versions).size = arena.size :=
  Array.size_mapIdx

@[simp] theorem withVersions_withVersions :
    (arena.withVersions versions).withVersions others = arena.withVersions others := by
  unfold withVersions
  rw [Array.mapIdx_mapIdx]
  simp only [Function.comp_def, Expr.withVersion_withVersion]

@[simp] theorem site?_withVersions : (arena.withVersions versions).site? = arena.site? := by
  funext expression
  unfold site? access?
  rw [get?_withVersions]
  cases arena.get? expression with
  | none => rfl
  | some expr => cases expr <;> rfl

@[simp] theorem binding_withVersions : (arena.withVersions versions).binding = arena.binding := by
  funext expression
  unfold binding
  rw [site?_withVersions]

private theorem termOf_withVersions (operand : ExprId → Term) (expression : ExprId) (expr : Expr)
    (version : Version) :
    (arena.withVersions versions).termOf operand expression (expr.withVersion version) =
      arena.termOf operand expression expr := by
  cases expr <;> simp only [Expr.withVersion, termOf, binding_withVersions]

/-- No term depends on versions. -/
@[simp] theorem term_withVersions : (arena.withVersions versions).term = arena.term := by
  have same (depth : Nat) : (arena.withVersions versions).unfold depth = arena.unfold depth := by
    induction depth with
    | zero => rfl
    | succ depth induction =>
        funext expression
        unfold unfold
        rw [get?_withVersions, induction]
        cases arena.get? expression with
        | none => rfl
        | some expr => exact arena.termOf_withVersions versions _ _ _ _
  unfold term
  rw [size_withVersions, same]

end Arena

/-! ## Cleared arenas -/

/-- Whether the expression is an access that has a version. -/
def Expr.isVersioned (expr : Expr) : Bool := expr.access?.any fun access => access.version ≠ 0

namespace Arena

variable {arena : Arena}

private theorem pushCleared_eq (done : Arena × Nat) (expr : Expr) :
    pushCleared done expr =
      ((done.1.push (expr.withVersion 0)).1, done.2 + if expr.isVersioned then 1 else 0) := by
  cases expr with
  | «variable» access =>
      unfold pushCleared Expr.isVersioned
      by_cases unversioned : access.version = 0
      · -- An access without a version is appended as it is.
        have same : { access with version := 0 } = access := by rw [← unversioned]
        simp [Expr.access?, Expr.withVersion, unversioned, same]
      · simp [Expr.access?, Expr.withVersion, unversioned]
  | _ => rfl

private theorem foldl_pushCleared (exprs : List Expr) (done : Arena × Nat) :
    exprs.foldl pushCleared done =
      ({ exprs := done.1.exprs ++ (exprs.map (Expr.withVersion 0)).toArray },
        done.2 + exprs.countP Expr.isVersioned) := by
  induction exprs generalizing done with
  | nil => simp
  | cons expr rest induction =>
      rw [List.foldl_cons, induction, pushCleared_eq, List.countP_cons, Nat.add_assoc,
        Nat.add_comm (List.countP _ _)]
      simp [push]

theorem versionedCount_eq (arena : Arena) :
    arena.versionedCount = arena.exprs.toList.countP Expr.isVersioned := by
  unfold versionedCount accesses
  suffices counts : ∀ first,
      ((arena.exprs.toList.zipIdx first).filterMap fun entry =>
        entry.1.access?.map (entry.2, ·)).countP (fun entry => entry.2.version ≠ 0) =
        arena.exprs.toList.countP Expr.isVersioned from counts 0
  induction arena.exprs.toList with
  | nil => exact fun _ => rfl
  | cons expr rest induction =>
      intro first
      rw [List.zipIdx_cons, List.filterMap_cons, List.countP_cons, ← induction (first + 1)]
      unfold Expr.isVersioned
      cases expr.access? with
      | none => rfl
      | some access => exact List.countP_cons

/-- Clearing leaves no version, and counts every version that was there. -/
theorem clearVersions_eq (arena : Arena) :
    arena.clearVersions = (arena.unversioned, arena.versionedCount) := by
  have cleared : arena.exprs.mapIdx (fun _ => Expr.withVersion 0) =
      (arena.exprs.toList.map (Expr.withVersion 0)).toArray := by
    rw [Array.mapIdx_eq_iff]
    intro expression
    rw [List.getElem?_toArray, List.getElem?_map, Array.getElem?_toList]
  unfold clearVersions unversioned withVersions
  rw [← Array.foldl_toList, foldl_pushCleared, versionedCount_eq, cleared, Array.empty_append,
    Nat.zero_add]

/-! ## Stored versions -/

theorem mem_accesses {entry : ExprId × VariableAccess} :
    entry ∈ arena.accesses ↔ arena.access? entry.1 = some entry.2 := by
  unfold accesses access? get?
  rw [List.mem_filterMap, Option.bind_eq_some_iff]
  constructor
  · rintro ⟨⟨expr, expression⟩, member, listed⟩
    rcases Option.map_eq_some_iff.1 listed with ⟨access, isAccess, rfl⟩
    refine ⟨expr, ?_, isAccess⟩
    rw [← Array.getElem?_toList]
    exact List.mem_zipIdx_iff_getElem?.1 member
  · rintro ⟨expr, stored, isAccess⟩
    rw [← Array.getElem?_toList] at stored
    exact ⟨(expr, entry.1), List.mem_zipIdx_iff_getElem?.2 stored,
      Option.map_eq_some_iff.2 ⟨entry.2, isAccess, rfl⟩⟩

private theorem pairwise_accesses (arena : Arena) :
    arena.accesses.Pairwise fun left right => left.1 ≠ right.1 := by
  have places : arena.exprs.toList.zipIdx.Pairwise fun left right => left.2 ≠ right.2 := by
    rw [← List.pairwise_map (R := (· ≠ ·)), List.zipIdx_map_snd]
    exact List.nodup_range'
  refine List.pairwise_filterMap.2 (places.imp fun apart entry listed other otherListed => ?_)
  rcases Option.map_eq_some_iff.1 listed with ⟨access, -, rfl⟩
  rcases Option.map_eq_some_iff.1 otherListed with ⟨otherAccess, -, rfl⟩
  exact apart

/-- What is stored at an expression is the version of the access there. -/
theorem getD_storedVersions (arena : Arena) (expression : ExprId) :
    arena.storedVersions.getD expression 0 =
      ((arena.access? expression).map VariableAccess.version).getD 0 := by
  unfold storedVersions
  by_cases versioned : ∃ access, arena.access? expression = some access ∧ access.version ≠ 0
  · rcases versioned with ⟨access, stored, versioned⟩
    rw [stored, Option.map_some, Option.getD_some]
    refine ExtTreeMap.getD_ofList_of_mem compare_self ?_ (List.mem_map.2 ⟨(expression, access),
      List.mem_filter.2 ⟨mem_accesses.2 stored, decide_eq_true versioned⟩, rfl⟩)
    rw [List.pairwise_map]
    exact (arena.pairwise_accesses.filter _).imp fun apart same =>
      apart (LawfulEqCmp.eq_of_compare same)
  · rw [ExtTreeMap.getD_ofList_of_contains_eq_false]
    · cases stored : arena.access? expression with
      | none => rfl
      | some access =>
          exact (Decidable.byContradiction fun differs => versioned ⟨access, stored, differs⟩).symm
    · rw [Bool.eq_false_iff]
      intro listed
      rcases List.mem_map.1 (List.contains_iff_mem.1 listed) with ⟨_, member, rfl⟩
      rcases List.mem_map.1 member with ⟨entry, kept, rfl⟩
      rcases List.mem_filter.1 kept with ⟨listed, differs⟩
      exact versioned ⟨entry.2, mem_accesses.1 listed, of_decide_eq_true differs⟩

/-- In an arena without versions nothing is stored. -/
theorem storedVersions_unversioned (arena : Arena) : arena.unversioned.storedVersions = ∅ := by
  unfold storedVersions
  rw [List.filter_eq_nil_iff.2]
  · rfl
  · rintro ⟨expression, access⟩ member
    have stored := mem_accesses.1 member
    unfold access? unversioned at stored
    rw [get?_withVersions, Option.bind_map, Option.bind_eq_some_iff] at stored
    rcases stored with ⟨expr, -, isAccess⟩
    rw [Function.comp_apply, Expr.access?_withVersion] at isAccess
    rcases Option.map_eq_some_iff.1 isAccess with ⟨before, -, ⟨⟩⟩
    exact Bool.false_ne_true

end Arena

/-! ## Bodies -/

namespace Body

variable (body : Body)

private theorem nodeCourse_unversioned (node : FlowNode) :
    body.unversioned.nodeCourse node = body.nodeCourse node := by
  unfold nodeCourse chainCourses firstCourse unversioned Arena.unversioned
  simp only [Arena.term_withVersions, Arena.site?_withVersions]

/-- Versions are not checked. -/
theorem validate_unversioned : body.unversioned.validate = body.validate := by
  unfold validate unversioned FlowGraph.validate FlowGraph.fault? FlowGraph.nodeFault?
    Arena.unversioned Arena.contains
  simp only [Arena.size_withVersions]

theorem withVersions_unversioned {other : Body} (same : body.unversioned = other.unversioned)
    (versions : ExprId → Version) :
    ({ body with arena := body.arena.withVersions versions } : Body) =
      { other with arena := other.arena.withVersions versions } := by
  have arenas := congrArg (fun body : Body => body.arena.withVersions versions) same
  simp only [unversioned, Arena.unversioned, Arena.withVersions_withVersions] at arenas
  rw [arenas]
  unfold unversioned at same
  injection same with arenasLeft statements graph signature
  rw [statements, graph, signature]

end Body

/-! ## Runs -/

/-- The same context for the body without its versions. -/
def Context.unversioned (context : Context) : Context :=
  { context with body := context.body.unversioned }

namespace RunM

variable (context : Context)

private theorem visit_unversioned (live : Bool) (dirty : DirtyNodes) (entry : FlowNode × NodeId) :
    visit context.unversioned live dirty entry = visit context live dirty entry := by
  rcases entry with ⟨node, name⟩
  rw [visit_course, visit_course]
  have courses : context.unversioned.body.nodeCourse node = context.body.nodeCourse node :=
    context.body.nodeCourse_unversioned node
  rw [courses]
  rfl

theorem pass_unversioned (live : Bool) (dirty : DirtyNodes) :
    pass context.unversioned live dirty = pass context live dirty := by
  unfold pass
  simp only [funext fun dirty => funext (visit_unversioned context live dirty)]
  rfl

private theorem settle_unversioned (fuel : Nat) (dirty : DirtyNodes) :
    settle context.unversioned fuel dirty = settle context fuel dirty := by
  induction fuel generalizing dirty with
  | zero => rfl
  | succ fuel induction =>
      simp only [settle, pass_unversioned, induction]
      rfl

/-- A run does not depend on the versions that the body had. -/
theorem versionAll_unversioned : versionAll context.unversioned = versionAll context := by
  unfold versionAll liveRound
  simp only [settle_unversioned, pass_unversioned]
  rfl

end RunM

end SlotVersioning
