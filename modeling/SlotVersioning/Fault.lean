import SlotVersioning.Feature

/-!
# Faults

Everything that can go wrong, one constructor per cause. `Fault.kind` sorts the causes, and
`Fault.message` is the sentence shown to a user. A *refusal* answers a request that the chosen
features, or the state of a value, do not allow.
-/

namespace SlotVersioning

/-- Expressions, flow nodes and statements are named by their position in their list. -/
abbrev ExprId := Nat
abbrev NodeId := Nat
abbrev StatementId := Nat

def exprName (expression : ExprId) : String := s!"e{expression}"
def nodeName (node : NodeId) : String := s!"n{node}"
def statementName (statement : StatementId) : String := s!"s{statement}"

inductive Fault
  -- broken references in a body
  | unknownExpression (expression : ExprId)
  | notVariable (expression : ExprId)
  | unknownNode (node : NodeId)
  | unknownParent (parent : StatementId)
  | unknownEntry (node : NodeId)
  | noEntry
  | nodeStatement (node : NodeId) (statement : StatementId)
  | nodeExpression (node : NodeId) (expression : ExprId)
  | nodeLink (node other : NodeId)
  | branchLeavesGraph (source target : NodeId)
  | finallyPaths (exit : NodeId)
  | statementStart (statement : StatementId) (node : NodeId)
  | handlerVariable (handler statement : StatementId)
  | handlerStart (handler statement : StatementId)
  -- expressions that have no versioned meaning
  | compoundAssignment (symbol : String) (expression : ExprId)
  -- configurations that cannot be honoured
  | graphRequired (feature : Feature)
  | mergesUnrecorded
  | noPasses
  -- exhausted limits
  | recursionLimit (limit : Nat)
  | notConverged (passes : Nat)
  -- refusals
  | featureOff (feature : Feature)
  | noDominators
  | splitFacts
deriving DecidableEq, Repr

inductive FaultKind
  | malformed
  | unsupportedExpression
  | invalidConfig
  | recursionLimit
  | notConverged
  | refusal
deriving DecidableEq, Repr

/-- The sentence for a fault of this kind with the given detail. -/
def FaultKind.sentence (kind : FaultKind) (detail : String) : String :=
  match kind with
  | malformed => s!"Malformed - {detail}"
  | unsupportedExpression => s!"Unsupported expression - {detail}"
  | invalidConfig => s!"Invalid configuration - {detail}"
  | recursionLimit => s!"Reach the maximum recursion level allowed - {detail}"
  | notConverged => s!"Version propagation did not converge after {detail} passes"
  | refusal => detail

namespace Fault

def kind : Fault → FaultKind
  | compoundAssignment .. => .unsupportedExpression
  | graphRequired .. | mergesUnrecorded | noPasses => .invalidConfig
  | recursionLimit .. => .recursionLimit
  | notConverged .. => .notConverged
  | featureOff .. | noDominators | splitFacts => .refusal
  | _ => .malformed

def detail : Fault → String
  | unknownExpression expression => s!"Unknown expression {exprName expression}"
  | notVariable expression => s!"Expression {exprName expression} is not a variable"
  | unknownNode node => s!"Unknown flow node {nodeName node}"
  | unknownParent parent => s!"Unknown parent statement {statementName parent}"
  | unknownEntry node => s!"Entry node {nodeName node} does not exist"
  | noEntry => "Graph has nodes but no entry"
  | nodeStatement node statement =>
      s!"Node {nodeName node} refers to unknown statement {statementName statement}"
  | nodeExpression node expression =>
      s!"Node {nodeName node} refers to unknown expression {exprName expression}"
  | nodeLink node other => s!"Node {nodeName node} is linked to unknown node {nodeName other}"
  | branchLeavesGraph source target =>
      s!"Branch {nodeName source} -> {nodeName target} leaves the graph"
  | finallyPaths exit => s!"Finally paths of {nodeName exit} refer to unknown nodes"
  | statementStart statement node =>
      s!"Statement entry {statementName statement} -> {nodeName node} does not resolve"
  | handlerVariable handler statement =>
      s!"Handler {statementName handler} of {statementName statement} has no exception variable"
  | handlerStart handler statement =>
      s!"Handler {statementName handler} of {statementName statement} has no entry node"
  | compoundAssignment symbol expression =>
      "compound assignment \x60" ++ symbol ++ "=\x60 at " ++ exprName expression
  | graphRequired feature => s!"{feature.name} requires {Feature.versionGraph.name}"
  | mergesUnrecorded =>
      s!"{Feature.phiTable.name} is required unless {Feature.usageVersions.name} is enabled"
  | noPasses => "max_passes must be positive"
  | recursionLimit limit => toString limit
  | notConverged passes => toString passes
  | featureOff feature => s!"{feature.name} is disabled"
  | noDominators => "init_dominators must run before dominance queries"
  | splitFacts => "branch facts are split"

def message (fault : Fault) : String := fault.kind.sentence fault.detail

example : (recursionLimit 64).message = "Reach the maximum recursion level allowed - 64" := by
  decide

end Fault

end SlotVersioning
