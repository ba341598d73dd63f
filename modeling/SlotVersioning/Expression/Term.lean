import SlotVersioning.Expression.Arena

/-!
# Terms

A term is an expression with its operands in place, reduced to what matters for the flow of
versions. It is unfolded from the arena. References that do not resolve stay visible as `missing`,
so an evaluation can meet them in its own order.
-/

namespace SlotVersioning

structure VariableSite where
  expression : ExprId
  slot : Slot
  debugName : Option DebugName := none
deriving DecidableEq, Repr

/-- What a successful type test binds. -/
inductive Binding
  | none
  | variable (site : VariableSite)
  | invalid (expression : ExprId)
deriving DecidableEq, Repr

inductive Term
  | nothing
  | missing (expression : ExprId)
  | header (condition : Term)
  | variable (site : VariableSite)
  | field (expression : ExprId) (receiver : Term)
  | assign (target value : Term)
  /-- An updating assignment, which has no versioned meaning. -/
  | compound (operator : Operator) (expression : ExprId)
  | ternary (condition onTrue onFalse : Term)
  | and (left right : Term)
  | or (left right : Term)
  | not (operand : Term)
  | typeTest (operand : Term) (binding : Binding)
  | increment (target : Term)
  /-- One operand before the others. -/
  | chain (first rest : Term)
  /-- A call or a construction, which may write any field once its operands are there. -/
  | clobber (operands : Term)
deriving DecidableEq, Repr

namespace Term

def chainOf (operands : List Term) : Term := operands.foldr chain nothing

def site? : Term → Option VariableSite
  | .variable site => some site
  | _ => none

def isField : Term → Bool
  | .field .. => true
  | _ => false

end Term

namespace Arena

def site? (arena : Arena) (expression : ExprId) : Option VariableSite :=
  (arena.access? expression).map fun access =>
    { expression, slot := access.slot, debugName := access.debugName }

def binding (arena : Arena) : Option ExprId → Binding
  | none => .none
  | some expression =>
      match arena.site? expression with
      | some site => .variable site
      | none => .invalid expression

/-- The term of `expr`, found at `expression`, over the terms of its operands. -/
def termOf (arena : Arena) (operand : ExprId → Term) (expression : ExprId) : Expr → Term
  | .header condition => .header (operand condition)
  | .assignment target value none => .assign (operand target) (operand value)
  | .assignment _ _ (some operator) => .compound operator expression
  | .variable access => .variable { expression, slot := access.slot, debugName := access.debugName }
  | .field receiver _ => .field expression ((receiver.map operand).getD .nothing)
  | .ternary condition onTrue onFalse =>
      .ternary (operand condition) (operand onTrue) (operand onFalse)
  | .and left right => .and (operand left) (operand right)
  | .or left right => .or (operand left) (operand right)
  | .not inner => .not (operand inner)
  | .typeTest inner binding => .typeTest (operand inner) (arena.binding binding)
  | .increment target _ => .increment (operand target)
  | .call receiver _ arguments =>
      .clobber (.chainOf ((receiver.toList ++ arguments).map operand))
  | .newObject arguments => .clobber (.chainOf (arguments.map operand))
  | expr => .chainOf (expr.operands.map operand)

def unfold (arena : Arena) : (depth : Nat) → ExprId → Term
  | 0, expression => .missing expression
  | depth + 1, expression =>
      match arena.get? expression with
      | none => .missing expression
      | some expr => arena.termOf (arena.unfold depth) expression expr

/-- The term of an expression. Without cycles no chain of operands is longer than the arena. -/
def term (arena : Arena) (expression : ExprId) : Term := arena.unfold (arena.size + 1) expression

end Arena

end SlotVersioning
