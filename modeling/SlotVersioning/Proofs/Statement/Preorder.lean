import SlotVersioning.Proofs.Sequences
import SlotVersioning.Proofs.Statement.Trees

/-!
# Pre-order

Requests to add statements grow a tree from its root; one that names an unknown parent is refused.
The walk along a stack, which `StatementTree.preorder` is, ends and lists the statements as the
recursion over children does (`Visits.eq_flatMap`).
-/

namespace SlotVersioning

namespace StatementTree

variable {tree next : StatementTree} {parent child statement : StatementId} {kind : StatementKind}

/-! ## Adding in place -/

/-- Adds a last child of `parent` in place, first the statement and then its place as a child. -/
def attach (parent : StatementId) (kind : StatementKind) :
    EStateM Fault StatementTree StatementId := do
  let tree ← get
  if tree.contains parent then
    modify fun tree => { statements := tree.statements.push { kind, parent := some parent } }
    modify fun grown => { statements := grown.statements.modify parent fun statement =>
      { statement with children := statement.children ++ [tree.size] } }
    return tree.size
  else
    throw (.unknownParent parent)

/-- A statement at the end is not the one that is modified. -/
private theorem modify_push {statements : Array Statement} (known : parent < statements.size)
    (edit : Statement → Statement) (last : Statement) :
    (statements.push last).modify parent edit = (statements.modify parent edit).push last := by
  refine Array.ext_getElem? fun position => ?_
  rw [Array.getElem?_modify, Array.getElem?_push, Array.getElem?_push, Array.getElem?_modify,
    Array.size_modify]
  by_cases isLast : position = statements.size
  · have different : parent ≠ position := isLast ▸ Nat.ne_of_lt known
    rw [if_neg different, if_pos isLast, if_pos isLast]
  · rw [if_neg isLast, if_neg isLast]

theorem attach_eq_checked (parent : StatementId) (kind : StatementKind) :
    attach parent kind = Attempts.checked fun tree => tree.add parent kind := by
  refine Attempts.ext fun tree => ?_
  by_cases known : tree.contains parent = true
  · rw [Attempts.run_checked_of_ok (by rw [add, if_pos known]),
      ← modify_push (of_decide_eq_true known)]
    simp only [attach, EStateM.run_bind, EStateM.run_get, known, if_true, EStateM.run_modify,
      EStateM.run_pure]
  · rw [Attempts.run_checked_of_error (by rw [add, if_neg known])]
    simp only [attach, EStateM.run_bind, EStateM.run_get, known, if_false, Bool.false_eq_true]
    rfl

/-! ## The recursion over children -/

/-- A statement, then what is met below its children, one child after the other. The recursion ends
because children come later than their parents. -/
def Sound.descend (sound : tree.Sound) (statement : StatementId) : List StatementId :=
  statement :: (tree.children statement).attach.flatMap fun child => sound.descend child.1
termination_by tree.size - statement
decreasing_by
  have linked := (sound.agree statement child.1).1 child.2
  have later := sound.above statement child.1 linked
  exact Nat.sub_lt_sub_left (Nat.lt_trans later (lt_size_of_parent? linked)) later

private theorem Sound.descend_eq (sound : tree.Sound) (statement : StatementId) :
    sound.descend statement =
      statement :: (tree.children statement).flatMap sound.descend := by
  rw [descend, List.flatMap_subtype fun _ _ => rfl, List.unattach_attach]

/-- A walk along a stack descends from every statement on it, from the first one first. -/
theorem Visits.eq_flatMap {stack order : List StatementId} (visits : tree.Visits stack order)
    (sound : tree.Sound) : order = stack.flatMap sound.descend := by
  induction visits with
  | done => rfl
  | visit rest induction =>
      rw [List.flatMap_append] at induction
      rw [List.flatMap_cons, sound.descend_eq, List.cons_append, induction]

/-! ## Trees that requests grow -/

/-- The tree after requests to add statements, each below a parent and of some kind. -/
def grownBy (requests : List (StatementId × StatementKind)) : StatementTree :=
  Attempts.run (fun request => attach request.1 request.2) requests {}

private theorem grown_grownBy (requests : List (StatementId × StatementKind)) :
    (grownBy requests).Grown := by
  refine Attempts.run_keeps (fun request current grown => ?_) requests Grown.root
  rw [attach_eq_checked]
  exact Attempts.checked_keeps (fun _ _ added => grown.add added) grown

/-- The children of a statement are listed in the order in which they were added. -/
private theorem Grown.children_eq (grown : tree.Grown) (parent : StatementId) :
    tree.children parent =
      (List.range tree.size).filter fun child => tree.parent? child = some parent := by
  induction grown with
  | root => cases parent <;> rfl
  | @add tree next above child kind grown added induction =>
      rcases get?_add added with ⟨known, rfl, size, -⟩
      have parents := parent?_add added
      have earlier : (List.range tree.size).filter (fun child => next.parent? child = some parent) =
          tree.children parent := by
        rw [induction]
        refine List.filter_congr fun child member => ?_
        rw [parents, if_neg (Nat.ne_of_lt (List.mem_range.1 member))]
      rw [size, List.range_succ, List.filter_append, earlier, children_add added,
        List.filter_singleton, parents, if_pos rfl]
      by_cases isParent : parent = above
      · simp [isParent]
      · simp [isParent, Ne.symm isParent]

/-- A request that names a statement is granted. -/
private theorem attach_known (known : tree.contains parent = true) (kind : StatementKind) :
    ∃ next, (attach parent kind).run tree = .ok tree.size next ∧ next.size = tree.size + 1 ∧
      next.get? tree.size = some { kind, parent := some parent } ∧
      ∀ other < tree.size, next.parent? other = tree.parent? other := by
  obtain ⟨next, added⟩ : ∃ next, tree.add parent kind = .ok (next, tree.size) := by
    rw [add, if_pos known]
    exact ⟨_, rfl⟩
  rcases get?_add added with ⟨-, -, size, found⟩
  refine ⟨next, ?_, size, ?_, fun other earlier => ?_⟩
  · rw [attach_eq_checked]
    exact Attempts.run_checked_of_ok added
  · rw [found, if_pos rfl]
  · rw [parent?_add added, if_neg (Nat.ne_of_lt earlier)]

/-- A request that names no statement is refused, and the tree is as it was. -/
private theorem attach_unknown (unknown : ¬ tree.contains parent = true) (kind : StatementKind) :
    (attach parent kind).run tree = .error (.unknownParent parent) tree := by
  rw [attach_eq_checked]
  exact Attempts.run_checked_of_error (by rw [add, if_neg unknown])

/-- Whatever was requested, the statements form a tree, and walking it from the root ends and lists
each of them once, as the recursion over children does. The next request is carried out in place as
the checked addition is: it is granted, or it is refused and changes nothing. -/
theorem preorder_grownBy (requests : List (StatementId × StatementKind)) :
    let tree := grownBy requests
    (∀ parent child, child ∈ tree.children parent ↔ tree.parent? child = some parent) ∧
    (∀ parent, tree.children parent =
      (List.range tree.size).filter fun child => tree.parent? child = some parent) ∧
    tree.parent? root = none ∧
    (∀ statement < tree.size, statement ≠ root →
      ∃ parent < statement, tree.parent? statement = some parent) ∧
    (∀ order, tree.Visits [root] order ↔ order = tree.preorder) ∧
    tree.preorder.Perm (List.range tree.size) ∧
    (∃ sound : tree.Sound, tree.preorder = sound.descend root) ∧
    (∀ parent kind, attach parent kind = Attempts.checked fun tree => tree.add parent kind) ∧
    ∀ parent kind,
      if tree.contains parent then
        ∃ next, (attach parent kind).run tree = .ok tree.size next ∧ next.size = tree.size + 1 ∧
          next.get? tree.size = some { kind, parent := some parent } ∧
          ∀ other < tree.size, next.parent? other = tree.parent? other
      else
        (attach parent kind).run tree = .error (.unknownParent parent) tree := by
  intro tree
  have grown : tree.Grown := grown_grownBy requests
  have sound := grown.sound
  have visits := sound.visits_preorder
  refine ⟨sound.agree, grown.children_eq, sound.parent?_root, ?_, ?_, sound.perm_preorder,
    ⟨sound, ?_⟩, attach_eq_checked, ?_⟩
  · intro statement known notRoot
    rcases sound.below statement notRoot known with ⟨parent, linked⟩
    exact ⟨parent, sound.above parent statement linked, linked⟩
  · exact fun order => ⟨fun visited => visited.unique visits, fun same => same ▸ visits⟩
  · rw [visits.eq_flatMap sound, List.flatMap_singleton]
  · intro parent kind
    split
    · next known => exact attach_known known kind
    · next unknown => exact attach_unknown unknown kind

/-- Two of these requests name a statement that is not there: one that never is, and one that is
added by the next request. -/
def refusing : List (StatementId × StatementKind) :=
  [(0, .sequence), (7, .basic), (1, .basic), (0, .basic), (4, .basic), (1, .loop), (4, .basic)]

theorem preorder_grownBy_refusing :
    (5 < (grownBy refusing).size ∧ 5 ≠ root) ∧
      (∃ parent < 5, (grownBy refusing).parent? 5 = some parent) ∧
      (grownBy refusing).preorder.Perm (List.range 6) ∧
      (grownBy refusing).preorder = [0, 1, 2, 4, 5, 3] ∧
      (attach 6 .basic).run (grownBy refusing) = .error (.unknownParent 6) (grownBy refusing) := by
  obtain ⟨-, -, -, above, -, lists, -, -, next⟩ := preorder_grownBy refusing
  have inside : 5 < (grownBy refusing).size := by decide
  have unknown : ¬ (grownBy refusing).contains 6 = true := by decide
  refine ⟨⟨inside, by decide⟩, above 5 inside (by decide), lists, by decide, ?_⟩
  exact (if_neg unknown).mp (next 6 .basic)

end StatementTree

end SlotVersioning
