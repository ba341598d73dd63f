import Mathlib.Logic.Relation
import SlotVersioning.Proofs.Statement.Trees

/-!
# Protection

A statement protects what lies in its protected child. In a tree that grew from its root, climbing
from a statement finds the innermost statement that protects it (`innermost_protector?`).
-/

namespace SlotVersioning

namespace StatementTree

open Relation

section

variable (tree : StatementTree)

/-- The lower statement is the upper one or a descendant of it. -/
def Encloses (upper lower : StatementId) : Prop :=
  ReflTransGen (fun child parent => tree.parent? child = some parent) lower upper

/-- The protected child of `protector` encloses the statement. -/
def Protects (protector statement : StatementId) : Prop :=
  ∃ stored child, tree.get? protector = some stored ∧ stored.protectedChild? = some child ∧
    tree.Encloses child statement

/-- What protects the statement and lies in everything else that does; nothing when nothing
protects the statement. -/
def Innermost (statement : StatementId) : Option StatementId → Prop
  | none => ∀ protector, ¬ tree.Protects protector statement
  | some protector => tree.Protects protector statement ∧
      ∀ other, tree.Protects other statement → tree.Encloses other protector

end

variable {tree : StatementTree} {statement parent protector child : StatementId}
  {stored : Statement}

theorem mem_of_protectedChild? (isProtected : stored.protectedChild? = some child) :
    child ∈ stored.children := by
  unfold Statement.protectedChild? at isProtected
  split at isProtected
  · exact List.mem_of_getElem? isProtected
  · exact List.mem_of_getElem? isProtected
  · exact List.mem_of_getElem? isProtected
  · exact nomatch isProtected

namespace Sound

variable (sound : tree.Sound)

include sound

/-- A statement is the parent of the child that it protects. -/
theorem parent?_of_protected (found : tree.get? protector = some stored)
    (isProtected : stored.protectedChild? = some child) : tree.parent? child = some protector := by
  refine (sound.agree protector child).1 ?_
  unfold children
  rw [found]
  exact mem_of_protectedChild? isProtected

/-- What protects a statement encloses it. -/
private theorem encloses_of_protects (protects : tree.Protects protector statement) :
    tree.Encloses protector statement := by
  rcases protects with ⟨stored, child, found, isProtected, encloses⟩
  exact encloses.tail (sound.parent?_of_protected found isProtected)

/-- The root is protected by nothing. -/
theorem not_protects_of_no_parent (orphan : tree.parent? statement = none) :
    ¬ tree.Protects protector statement := by
  rintro ⟨stored, child, found, isProtected, encloses⟩
  cases encloses.cases_head with
  | inl same =>
      subst same
      exact nomatch orphan.symm.trans (sound.parent?_of_protected found isProtected)
  | inr further =>
      rcases further with ⟨above, linked, -⟩
      exact nomatch orphan.symm.trans linked

/-- What protects a statement is its parent, by this child, or protects the parent. -/
theorem protects_iff (linked : tree.parent? statement = some parent)
    (found : tree.get? parent = some stored) :
    tree.Protects protector statement ↔
      (protector = parent ∧ stored.protectedChild? = some statement) ∨
        tree.Protects protector parent := by
  constructor
  · rintro ⟨other, child, otherFound, isProtected, encloses⟩
    cases encloses.cases_head with
    | inl same =>
        subst same
        have above := sound.parent?_of_protected otherFound isProtected
        rw [linked] at above
        cases above
        rw [found] at otherFound
        cases otherFound
        exact .inl ⟨rfl, isProtected⟩
    | inr further =>
        rcases further with ⟨above, step, encloses⟩
        rw [linked] at step
        cases step
        exact .inr ⟨other, child, otherFound, isProtected, encloses⟩
  · rintro (⟨rfl, isProtected⟩ | ⟨other, child, otherFound, isProtected, encloses⟩)
    · exact ⟨stored, statement, found, isProtected, .refl⟩
    · exact ⟨other, child, otherFound, isProtected, .head linked encloses⟩

private theorem innermost_of_parent {innermost : Option StatementId}
    (linked : tree.parent? statement = some parent) (found : tree.get? parent = some stored)
    (exposed : stored.protectedChild? ≠ some statement)
    (above : tree.Innermost parent innermost) : tree.Innermost statement innermost := by
  have same (protector : StatementId) :
      tree.Protects protector statement ↔ tree.Protects protector parent := by
    rw [sound.protects_iff linked found]
    exact or_iff_right fun both => exposed both.2
  cases innermost with
  | none => exact fun protector protects => above protector ((same protector).1 protects)
  | some protector =>
      exact ⟨(same protector).2 above.1, fun other protects => above.2 other ((same other).1 protects)⟩

/-- Climbing comes to an end because parents come before their children. -/
private theorem innermost_protectorFrom {fuel : Nat} (enough : statement < fuel) :
    tree.Innermost statement (tree.protectorFrom fuel statement) := by
  induction fuel generalizing statement with
  | zero => exact absurd enough (Nat.not_lt_zero _)
  | succ fuel induction =>
      unfold protectorFrom
      cases linked : tree.parent? statement with
      | none => exact fun protector => sound.not_protects_of_no_parent linked
      | some parent =>
          have before := sound.above parent statement linked
          have inside : parent < tree.size := Nat.lt_trans before (lt_size_of_parent? linked)
          have found : tree.get? parent = some tree.statements[parent] :=
            Array.getElem?_eq_getElem inside
          simp only [Option.bind_eq_bind, Option.bind_some, found]
          split
          · next isProtected =>
              refine ⟨(sound.protects_iff linked found).2 (.inl ⟨rfl, isProtected⟩),
                fun other protects => ?_⟩
              rcases (sound.protects_iff linked found).1 protects with ⟨rfl, -⟩ | outer
              · exact .refl
              · exact sound.encloses_of_protects outer
          · next exposed =>
              exact sound.innermost_of_parent linked found exposed
                (induction (Nat.lt_of_lt_of_le before (Nat.le_of_lt_succ enough)))

end Sound

/-- The protector of a statement is the innermost statement that protects it. -/
theorem innermost_protector? (grown : tree.Grown) (statement : StatementId) :
    tree.Innermost statement (tree.protector? statement) := by
  have sound := grown.sound
  by_cases known : statement < tree.size
  · exact sound.innermost_protectorFrom known
  · have absent : tree.get? statement = none := Array.getElem?_eq_none (Nat.le_of_not_lt known)
    have orphan : tree.parent? statement = none := by
      unfold parent?
      rw [absent]
      rfl
    have nothing : tree.protector? statement = none := by
      unfold protector?
      cases tree.size with
      | zero => rfl
      | succ fuel =>
          unfold protectorFrom
          rw [orphan]
          rfl
    rw [nothing]
    exact fun protector => sound.not_protects_of_no_parent orphan

end StatementTree

end SlotVersioning
