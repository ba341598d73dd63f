import SlotVersioning.Version.Key
import SlotVersioning.Fault

/-!
# Statements

The structured statements of a method body form a tree. Statement zero is the root, and a statement
is added below one that is already there, so every parent precedes its children.
-/

namespace SlotVersioning

/-- The first child of a `tryCatch` or `catchAll` is protected by it, and every further child
handles exceptions; `handlerSlots` are the slots of the handlers in order. The first child of a
`synchronized` acquires its lock, and the second one is protected. -/
inductive StatementKind
  | root
  | basic
  | sequence
  | conditional
  | loop
  | switch
  | tryCatch (handlerSlots : List Slot)
  | catchAll (handlerSlots : List Slot)
  | synchronized
  | general
deriving DecidableEq, Repr

def StatementKind.handlerSlots? : StatementKind → Option (List Slot)
  | tryCatch slots | catchAll slots => some slots
  | _ => none

structure Statement where
  kind : StatementKind
  parent : Option StatementId := none
  children : List StatementId := []
deriving DecidableEq, Repr

/-- The child that the statement protects. -/
def Statement.protectedChild? (statement : Statement) : Option StatementId :=
  match statement.kind with
  | .tryCatch _ | .catchAll _ => statement.children[0]?
  | .synchronized => statement.children[1]?
  | _ => none

structure StatementTree where
  statements : Array Statement := #[{ kind := .root }]
deriving DecidableEq, Repr

namespace StatementTree

instance : Inhabited StatementTree := ⟨{}⟩

def root : StatementId := 0

def size (tree : StatementTree) : Nat := tree.statements.size

def get? (tree : StatementTree) (statement : StatementId) : Option Statement :=
  tree.statements[statement]?

def contains (tree : StatementTree) (statement : StatementId) : Bool := statement < tree.size

def parent? (tree : StatementTree) (statement : StatementId) : Option StatementId :=
  (tree.get? statement).bind Statement.parent

def children (tree : StatementTree) (statement : StatementId) : List StatementId :=
  ((tree.get? statement).map Statement.children).getD []

/-- Adds a last child of `parent` and names it. -/
def add (tree : StatementTree) (parent : StatementId) (kind : StatementKind) :
    Except Fault (StatementTree × StatementId) :=
  if tree.contains parent then
    let child := tree.size
    let linked := tree.statements.modify parent fun statement =>
      { statement with children := statement.children ++ [child] }
    .ok ({ statements := linked.push { kind, parent := some parent } }, child)
  else
    .error (.unknownParent parent)

end StatementTree

end SlotVersioning
