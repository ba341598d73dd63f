import SlotVersioning.Expression.Operator
import SlotVersioning.Fault
import SlotVersioning.Version.Key

/-!
# Expressions

The expressions of a method body refer to their operands by name. Only what matters for the flow of
values is kept: there are no types.
-/

namespace SlotVersioning

/-- The declared name and type of a local variable. -/
structure DebugName where
  name : String
  descriptor : String
deriving DecidableEq, Repr

structure VariableAccess where
  slot : Slot
  /-- Zero until a run assigns one. -/
  version : Version := 0
  debugName : Option DebugName := none
deriving DecidableEq, Repr

inductive Expr
  /-- The header of a structured condition or loop. -/
  | header (condition : ExprId)
  /-- An assignment; `compound` is the operator of an updating one. -/
  | assignment (target value : ExprId) (compound : Option Operator)
  | variable (access : VariableAccess)
  /-- A field access; static fields have no receiver. -/
  | field (receiver : Option ExprId) (name : String)
  | ternary (condition onTrue onFalse : ExprId)
  | and (left right : ExprId)
  | or (left right : ExprId)
  | not (operand : ExprId)
  /-- A type test, which may bind a variable where it succeeds. -/
  | typeTest (operand : ExprId) (binding : Option ExprId)
  | increment (target : ExprId) (form : IncrementForm)
  | call (receiver : Option ExprId) (name : String) (arguments : List ExprId)
  | newObject (arguments : List ExprId)
  | newArray (arguments : List ExprId)
  | operation (operator : Operator) (operands : List ExprId)
  | element (array index : ExprId)
  | exit (form : ExitForm) (value : Option ExprId)
  | monitor (form : MonitorForm) (value : ExprId)
  | selector (value : ExprId)
  | literal (value : Literal)
deriving DecidableEq, Repr

namespace Expr

/-- The operands in evaluation order. -/
def operands : Expr → List ExprId
  | header condition => [condition]
  | assignment target value _ => [target, value]
  | .variable _ => []
  | field receiver _ => receiver.toList
  | ternary condition onTrue onFalse => [condition, onTrue, onFalse]
  | and left right => [left, right]
  | or left right => [left, right]
  | not operand => [operand]
  | typeTest operand binding => operand :: binding.toList
  | increment target _ => [target]
  | call receiver _ arguments => receiver.toList ++ arguments
  | newObject arguments => arguments
  | newArray arguments => arguments
  | operation _ operands => operands
  | element array index => [array, index]
  | exit _ value => value.toList
  | monitor _ value => [value]
  | selector value => [value]
  | literal _ => []

def isField : Expr → Bool
  | field .. => true
  | _ => false

def access? : Expr → Option VariableAccess
  | .variable access => some access
  | _ => none

/-- The expression with another version, when it is a variable. -/
def withVersion (version : Version) : Expr → Expr
  | .variable access => .variable { access with version }
  | other => other

end Expr

end SlotVersioning
