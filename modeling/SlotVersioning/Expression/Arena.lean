import SlotVersioning.Expression.Basic

/-!
# Arenas

All expressions of one method body in one list; the name of an expression is its position. A run
changes nothing in an arena but the versions of its variable accesses.
-/

namespace SlotVersioning

structure Arena where
  exprs : Array Expr := #[]
deriving DecidableEq, Repr

namespace Arena

instance : Inhabited Arena := ⟨{}⟩

def size (arena : Arena) : Nat := arena.exprs.size

def get? (arena : Arena) (expression : ExprId) : Option Expr := arena.exprs[expression]?

def contains (arena : Arena) (expression : ExprId) : Bool := expression < arena.size

def push (arena : Arena) (expr : Expr) : Arena × ExprId :=
  ({ exprs := arena.exprs.push expr }, arena.size)

def access? (arena : Arena) (expression : ExprId) : Option VariableAccess :=
  (arena.get? expression).bind Expr.access?

def isField (arena : Arena) (expression : ExprId) : Bool :=
  (arena.get? expression).any Expr.isField

/-- The operands of a known expression, none of an unknown one. -/
def operands (arena : Arena) (expression : ExprId) : List ExprId :=
  ((arena.get? expression).map Expr.operands).getD []

/-- Gives every variable access the version that `versions` assigns to its position. -/
def withVersions (arena : Arena) (versions : ExprId → Version) : Arena :=
  { exprs := arena.exprs.mapIdx fun expression expr => expr.withVersion (versions expression) }

def withVersionAt (arena : Arena) (expression : ExprId) (version : Version) : Arena :=
  { exprs := arena.exprs.modify expression (Expr.withVersion version) }

def accesses (arena : Arena) : List (ExprId × VariableAccess) :=
  arena.exprs.toList.zipIdx.filterMap fun (expr, expression) =>
    expr.access?.map (expression, ·)

def versionedCount (arena : Arena) : Nat :=
  arena.accesses.countP fun (_, access) => access.version ≠ 0

def unversioned (arena : Arena) : Arena := arena.withVersions fun _ => 0

/-- Appends an expression without its version, and counts it if it had one. -/
def pushCleared (done : Arena × Nat) (expr : Expr) : Arena × Nat :=
  match expr.access? with
  | some access =>
      if access.version ≠ 0 then
        ((done.1.push (expr.withVersion 0)).1, done.2 + 1)
      else
        ((done.1.push expr).1, done.2)
  | none => ((done.1.push expr).1, done.2)

/-- Clears the version of every variable access, and counts the accesses that had one. -/
def clearVersions (arena : Arena) : Arena × Nat := arena.exprs.foldl pushCleared ({}, 0)

end Arena

end SlotVersioning
