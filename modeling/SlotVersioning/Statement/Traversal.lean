import SlotVersioning.Statement.Tree

/-!
# Walking the statement tree

Downwards, `StatementTree.preorder` lists every statement before its descendants. Upwards,
`StatementTree.protector?` finds the innermost statement that protects a given one.
-/

namespace SlotVersioning

namespace StatementTree

/-- Visits the statements on the stack, each before its descendants. -/
def preorderFrom (tree : StatementTree) : (fuel : Nat) → List StatementId → List StatementId
  | 0, _ => []
  | _ + 1, [] => []
  | fuel + 1, statement :: stack =>
      statement :: tree.preorderFrom fuel (tree.children statement ++ stack)

/-- Every statement, each before its descendants and siblings in order. -/
def preorder (tree : StatementTree) : List StatementId := tree.preorderFrom tree.size [root]

/-- Climbs from `statement` to the first ancestor that protects the child passed through. -/
def protectorFrom (tree : StatementTree) : (fuel : Nat) → StatementId → Option StatementId
  | 0, _ => none
  | fuel + 1, statement => do
      let parent ← tree.parent? statement
      let enclosing ← tree.get? parent
      if enclosing.protectedChild? = some statement then
        some parent
      else
        tree.protectorFrom fuel parent

/-- The innermost statement that protects `statement`. A handler is not protected by the statement
that it belongs to. -/
def protector? (tree : StatementTree) (statement : StatementId) : Option StatementId :=
  tree.protectorFrom tree.size statement

end StatementTree

end SlotVersioning
