import Mathlib.Data.List.Nodup
import Mathlib.Data.List.Perm.Subperm
import SlotVersioning.Statement.Traversal

/-!
# Statement trees

A tree that grew from its root has each statement but the root below exactly one earlier statement
(`StatementTree.Sound`). So a walk from the root meets no statement twice, its fuel is enough for it
to end (`Sound.visits_preorder`), and it comes to every statement (`mem_preorder`).
-/

namespace SlotVersioning

namespace StatementTree

/-- Trees to which statements were added one by one. -/
inductive Grown : StatementTree → Prop
  | root : Grown {}
  | add {tree next : StatementTree} {parent child : StatementId} {kind : StatementKind}
      (grown : Grown tree) (added : tree.add parent kind = .ok (next, child)) : Grown next

/-- Parents and children agree, and parents come first. -/
structure Sound (tree : StatementTree) : Prop where
  rooted : 0 < tree.size
  agree : ∀ parent child, child ∈ tree.children parent ↔ tree.parent? child = some parent
  once : ∀ parent, (tree.children parent).Nodup
  above : ∀ parent child, tree.parent? child = some parent → parent < child
  below : ∀ child, child ≠ root → child < tree.size → ∃ parent, tree.parent? child = some parent

variable {tree next : StatementTree} {parent child statement : StatementId}
  {kind : StatementKind}

theorem lt_size_of_get? {stored : Statement} (found : tree.get? statement = some stored) :
    statement < tree.size :=
  (Array.getElem?_eq_some_iff.1 found).1

theorem lt_size_of_parent? (found : tree.parent? child = some parent) : child < tree.size := by
  rcases Option.bind_eq_some_iff.1 found with ⟨stored, present, -⟩
  exact lt_size_of_get? present

/-! ## Adding -/

/-- Statements after a child was added. -/
theorem get?_add (added : tree.add parent kind = .ok (next, child)) :
    parent < tree.size ∧ child = tree.size ∧ next.size = tree.size + 1 ∧
      ∀ other, next.get? other =
        if other = child then some { kind, parent := some parent }
        else if parent = other then (tree.get? other).map fun stored =>
          { stored with children := stored.children ++ [child] }
        else tree.get? other := by
  unfold add at added
  split at added
  · next contained =>
      cases added
      refine ⟨of_decide_eq_true contained, rfl, by simp [size], fun other => ?_⟩
      unfold get? size
      rw [Array.getElem?_push, Array.size_modify, Array.getElem?_modify]
  · exact nomatch added

theorem parent?_add (added : tree.add parent kind = .ok (next, child)) (other : StatementId) :
    next.parent? other = if other = child then some parent else tree.parent? other := by
  unfold parent?
  rw [(get?_add added).2.2.2 other]
  split
  · rfl
  · split
    · cases tree.get? other <;> rfl
    · rfl

theorem children_add (added : tree.add parent kind = .ok (next, child)) (other : StatementId) :
    next.children other =
      if other = parent then tree.children parent ++ [child] else tree.children other := by
  rcases get?_add added with ⟨known, rfl, -, found⟩
  unfold children
  rw [found]
  by_cases isParent : other = parent
  · subst isParent
    rw [if_neg (Nat.ne_of_lt known), if_pos rfl, if_pos rfl]
    cases stored : tree.get? other with
    | none => exact absurd known (Nat.not_lt_of_le (Array.getElem?_eq_none_iff.1 stored))
    | some statement => rfl
  · rw [if_neg isParent, if_neg (Ne.symm isParent)]
    split
    · next isChild =>
        have absent : tree.get? other = none := Array.getElem?_eq_none (Nat.le_of_eq isChild.symm)
        rw [absent]
        rfl
    · rfl

theorem Sound.lt_size_of_child (sound : tree.Sound) (member : child ∈ tree.children parent) :
    child < tree.size :=
  lt_size_of_parent? ((sound.agree parent child).1 member)

theorem Sound.add (sound : tree.Sound) (added : tree.add parent kind = .ok (next, child)) :
    next.Sound := by
  have parents := parent?_add added
  have children := children_add added
  rcases get?_add added with ⟨known, rfl, size, -⟩
  have new (other : StatementId) : tree.size ∉ tree.children other := fun member =>
    absurd (sound.lt_size_of_child member) (Nat.lt_irrefl _)
  refine ⟨?_, fun above below => ?_, fun above => ?_, fun above below linked => ?_,
    fun below notRoot inside => ?_⟩
  · rw [size]
    exact Nat.succ_pos _
  · rw [children, parents]
    by_cases isChild : below = tree.size
    · rw [if_pos isChild, isChild]
      split
      · next isParent => simp [isParent]
      · next notParent => simp [new, Ne.symm notParent]
    · rw [if_neg isChild]
      split
      · next isParent => simp [isParent, isChild, sound.agree]
      · exact sound.agree above below
  · rw [children]
    split
    · rw [← List.concat_eq_append]
      exact .concat (new parent) (sound.once parent)
    · exact sound.once above
  · rw [parents] at linked
    split at linked
    · next isChild =>
        cases linked
        rw [isChild]
        exact known
    · exact sound.above above below linked
  · rw [parents]
    split
    · exact ⟨parent, rfl⟩
    · next notChild =>
        rw [size] at inside
        exact sound.below below notRoot (Nat.lt_of_le_of_ne (Nat.le_of_lt_succ inside) notChild)

private theorem sound_root : Sound {} where
  rooted := Nat.one_pos
  agree := fun parent child => by
    cases parent <;> cases child <;> simp [children, parent?, get?]
  once := fun parent => by cases parent <;> simp [children, get?]
  above := fun parent child found => by cases child <;> simp [parent?, get?] at found
  below := fun child notRoot inside => absurd (Nat.lt_one_iff.1 inside) notRoot

theorem Grown.sound (grown : tree.Grown) : tree.Sound := by
  induction grown with
  | root => exact sound_root
  | add _ added induction => exact induction.add added

/-! ## Walking -/

/-- A walk that met some statements and has others on its stack. -/
structure Walking (tree : StatementTree) (met stack : List StatementId) : Prop where
  once : (met ++ stack).Nodup
  inside : ∀ statement ∈ met ++ stack, statement < tree.size
  reached : ∀ statement ∈ met ++ stack, ∀ parent, tree.parent? statement = some parent →
    parent ∈ met
  rooted : root ∈ met ++ stack
  closed : ∀ parent ∈ met, ∀ child ∈ tree.children parent, child ∈ met ++ stack

theorem Walking.step {met stack : List StatementId} (sound : tree.Sound)
    (walking : tree.Walking met (statement :: stack)) :
    tree.Walking (met ++ [statement]) (tree.children statement ++ stack) := by
  have unmet : statement ∉ met := fun member =>
    List.disjoint_of_nodup_append walking.once member List.mem_cons_self
  -- A child that was known before had its parent met before.
  have new (child : StatementId) (member : child ∈ tree.children statement) :
      child ∉ met ++ statement :: stack := fun known =>
    unmet (walking.reached child known statement ((sound.agree statement child).1 member))
  have regroup : (met ++ statement :: stack ++ tree.children statement).Perm
      (met ++ [statement] ++ (tree.children statement ++ stack)) := by
    rw [List.append_assoc met, List.append_assoc met]
    exact (List.Perm.cons statement List.perm_append_comm).append_left met
  have members (other : StatementId) :
      other ∈ met ++ [statement] ++ (tree.children statement ++ stack) ↔
        other ∈ met ++ statement :: stack ∨ other ∈ tree.children statement := by
    rw [← regroup.mem_iff, List.mem_append]
  refine ⟨regroup.nodup_iff.1 (walking.once.append (sound.once statement) ?_), fun other member => ?_,
    fun other member parent linked => ?_, (members _).2 (.inl walking.rooted),
    fun parent member child below => (members _).2 ?_⟩
  · exact fun other known below => new other below known
  · rcases (members other).1 member with known | below
    · exact walking.inside other known
    · exact sound.lt_size_of_child below
  · rcases (members other).1 member with known | below
    · exact List.mem_append_left _ (walking.reached other known parent linked)
    · rw [(sound.agree statement other).1 below] at linked
      cases linked
      exact List.mem_append_right _ List.mem_cons_self
  · rcases List.mem_append.1 member with earlier | now
    · exact .inl (walking.closed parent earlier child below)
    · rw [List.mem_singleton.1 now] at below
      exact .inr below

/-- A walk with an empty stack has met every statement. -/
theorem Walking.mem_met {met : List StatementId} (sound : tree.Sound)
    (walking : tree.Walking met []) (known : statement < tree.size) : statement ∈ met := by
  have rooted := walking.rooted
  have closed := walking.closed
  rw [List.append_nil] at rooted closed
  induction statement using Nat.strongRecOn with
  | ind statement induction =>
      by_cases isRoot : statement = root
      · rw [isRoot]
        exact rooted
      · rcases sound.below statement isRoot known with ⟨parent, linked⟩
        have before := sound.above parent statement linked
        exact closed parent (induction parent before (Nat.lt_trans before known)) statement
          ((sound.agree parent statement).2 linked)

private theorem Walking.length_le {met stack : List StatementId}
    (walking : tree.Walking met stack) : met.length + stack.length ≤ tree.size := by
  rw [← List.length_append, ← List.length_range (n := tree.size)]
  exact (walking.once.subperm fun other member =>
    List.mem_range.2 (walking.inside other member)).length_le

/-- The walk from the statements on the stack ends, and it has met these, in this order. -/
inductive Visits (tree : StatementTree) : List StatementId → List StatementId → Prop
  | done : Visits tree [] []
  | visit {statement : StatementId} {stack order : List StatementId}
      (rest : Visits tree (tree.children statement ++ stack) order) :
      Visits tree (statement :: stack) (statement :: order)

theorem Visits.unique {stack order other : List StatementId} (first : tree.Visits stack order)
    (second : tree.Visits stack other) : order = other := by
  induction first generalizing other with
  | done =>
      cases second with
      | done => rfl
  | visit rest induction =>
      cases second with
      | visit otherRest => rw [induction otherRest]

private theorem Visits.walking {met stack order : List StatementId}
    (visits : tree.Visits stack order) (sound : tree.Sound) (walking : tree.Walking met stack) :
    tree.Walking (met ++ order) [] := by
  induction visits generalizing met with
  | done =>
      rw [List.append_nil]
      exact walking
  | visit rest induction =>
      have walked := induction (walking.step sound)
      rw [List.append_assoc] at walked
      exact walked

/-- Fuel for every statement that is not met yet is enough. -/
private theorem Walking.visits_preorderFrom {met stack : List StatementId} (sound : tree.Sound)
    (walking : tree.Walking met stack) {fuel : Nat} (enough : tree.size ≤ met.length + fuel) :
    tree.Visits stack (tree.preorderFrom fuel stack) := by
  induction fuel generalizing met stack with
  | zero =>
      have few := walking.length_le
      obtain rfl : stack = [] := List.eq_nil_of_length_eq_zero (by omega)
      exact .done
  | succ fuel induction =>
      cases stack with
      | nil => exact .done
      | cons top stack => exact .visit (induction (walking.step sound) (by simp; omega))

theorem Sound.parent?_root (sound : tree.Sound) : tree.parent? root = none :=
  Option.eq_none_iff_forall_ne_some.2 fun parent linked =>
    Nat.not_lt_zero _ (sound.above parent root linked)

theorem Sound.walking_root (sound : tree.Sound) : tree.Walking [] [root] := by
  refine ⟨List.nodup_singleton _, ?_, ?_, List.mem_cons_self, fun _ member => nomatch member⟩
  · exact List.forall_mem_singleton.2 sound.rooted
  · exact List.forall_mem_singleton.2 fun parent linked =>
      nomatch sound.parent?_root.symm.trans linked

/-- The walk from the root ends. -/
theorem Sound.visits_preorder (sound : tree.Sound) : tree.Visits [root] tree.preorder :=
  sound.walking_root.visits_preorderFrom sound (Nat.le_of_eq (Nat.zero_add _).symm)

private theorem Sound.walking_preorder (sound : tree.Sound) : tree.Walking tree.preorder [] :=
  sound.visits_preorder.walking sound sound.walking_root

/-- The walk from the root meets every statement once. -/
theorem Sound.perm_preorder (sound : tree.Sound) : tree.preorder.Perm (List.range tree.size) := by
  have once := sound.walking_preorder.once
  have inside := sound.walking_preorder.inside
  rw [List.append_nil] at once inside
  refine (List.perm_ext_iff_of_nodup once List.nodup_range).2 fun statement => ?_
  rw [List.mem_range]
  exact ⟨inside statement, sound.walking_preorder.mem_met sound⟩

/-- A walk from the root comes to every statement. -/
theorem mem_preorder (grown : tree.Grown) (known : statement < tree.size) :
    statement ∈ tree.preorder :=
  grown.sound.perm_preorder.mem_iff.2 (List.mem_range.2 known)

end StatementTree

end SlotVersioning
