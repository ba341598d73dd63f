import SlotVersioning.Proofs.Checked.Actions
import SlotVersioning.Versioning.Pass

/-!
# Checked evaluation

An evaluation that refuses facts that are split, at every term that it enters and wherever the
single facts of a holder are read. It follows the evaluation from joined facts, which is how a node
enters its expressions and a term its operands.
-/

namespace SlotVersioning

namespace CheckedM

/-- The single facts of a joined holder; a split one is refused. -/
def single : OutcomeFacts → CheckedM Facts
  | .joined facts => return facts
  | .split _ _ => liftM (none : Option Facts)

def joinArms (onTrue onFalse : OutcomeFacts) : CheckedM OutcomeFacts := do
  if onTrue.isJoined && onFalse.isJoined then
    return .joined (onTrue.ifTrue ∪ (← single onFalse))
  else
    return (onTrue.separate.mergeTrue onFalse.ifTrue).mergeFalse onFalse.ifFalse

/-- The outcome of a term, which is refused if the facts before it are split. -/
def evaluate (site : Site) : Term → OutcomeFacts → CheckedM OutcomeFacts
  | .nothing, entry => do
      return .joined (← single entry)
  | .missing expression, entry => do
      discard <| single entry
      throw (.unknownExpression expression)
  | .compound operator expression, entry => do
      discard <| single entry
      throw (.compoundAssignment operator.symbol expression)
  | .header condition, entry => do
      discard <| single entry
      evaluate site condition entry
  | .variable target, entry => do
      return .joined (← read site target (← single entry))
  | .field expression receiver, entry => do
      discard <| single entry
      let facts := (← evaluate site receiver entry).merged
      if site.config.has .fieldVersions then
        return .joined (facts.pin (← slotOfField expression) 1)
      else
        return .joined facts
  | .assign target value, entry => do
      discard <| single entry
      match target.site? with
      | some defined => do
          let facts := (← evaluate site value entry).merged
          let facts ← define site defined facts
          RunM.recordCopy defined value
          return .joined facts
      | none => do
          let before ← evaluate site target entry
          let facts := (← evaluate site value before.join).merged
          return .joined (if target.isField then RunM.clobberFields site facts else facts)
  | .ternary condition onTrue onFalse, entry => do
      discard <| single entry
      let tested ← evaluate site condition entry
      let left ← evaluate site onTrue (.joined tested.ifTrue)
      let right ← evaluate site onFalse (.joined tested.ifFalse)
      joinArms left right
  | .and left right, entry => do
      discard <| single entry
      let tested ← evaluate site left entry
      let second ← evaluate site right (.joined tested.ifTrue)
      return (tested.setTrue second.ifTrue).mergeFalse second.ifFalse
  | .or left right, entry => do
      discard <| single entry
      let tested ← evaluate site left entry
      let second ← evaluate site right (.joined tested.ifFalse)
      return (tested.mergeTrue second.ifTrue).setFalse second.ifFalse
  | .not operand, entry => do
      discard <| single entry
      return (← evaluate site operand entry).negate
  | .typeTest operand binding, entry => do
      discard <| single entry
      let tested ← evaluate site operand entry
      match binding with
      | .none => return tested.join
      | .invalid expression => throw (.notVariable expression)
      | .variable target =>
          let bound ← define site target tested.merged
          return tested.join.setTrue bound
  | .increment target, entry => do
      discard <| single entry
      let facts := (← evaluate site target entry).merged
      match target.site? with
      | some incremented => return .joined (← incrementVariable site incremented facts)
      | none => return .joined (if target.isField then RunM.clobberFields site facts else facts)
  | .chain first rest, entry => do
      discard <| single entry
      let before ← evaluate site first entry
      evaluate site rest before.join
  | .clobber operands, entry => do
      discard <| single entry
      let facts := (← evaluate site operands entry).merged
      return .joined (RunM.clobberFields site facts)

/-! ## One node -/

def evaluateExpression (context : Context) (site : Site) (entry : OutcomeFacts)
    (expression : ExprId) : CheckedM OutcomeFacts :=
  evaluate site (context.body.arena.term expression) entry.join

def evaluateFirst (context : Context) (site : Site) (kind : FlowNodeKind) (entry : OutcomeFacts)
    (expression : ExprId) : CheckedM OutcomeFacts :=
  match kind, context.body.arena.site? expression with
  | .forEachBinding, some bound => do
      return .joined (← define site bound (← single entry.join))
  | _, _ => evaluateExpression context site entry expression

def evaluateNode (context : Context) (site : Site) (node : FlowNode) (entry : Facts) :
    CheckedM OutcomeFacts :=
  match node.expressions with
  | [] => return .joined entry
  | first :: rest => do
      let outcome ← evaluateFirst context site node.kind (.joined entry) first
      rest.foldlM (evaluateExpression context site) outcome

end CheckedM

/-! ## What it follows -/

namespace Follows

variable {bound : Nat} {site : Site} {context : Context}

private theorem joinArms (onTrue onFalse : OutcomeFacts) :
    Follows bound (CheckedM.joinArms onTrue onFalse)
      (Pure.pure (RunM.joinArms onTrue onFalse)) := by
  cases onTrue with
  | split => exact pure _
  | joined left =>
      cases onFalse with
      | split => exact pure _
      | joined right => exact pure _

/-- A term that is entered with joined facts enters its operands with joined facts. -/
private theorem evaluate (term : Term) (facts : Facts) :
    Follows bound (CheckedM.evaluate site term (.joined facts))
      (RunM.evaluate site term (.joined facts)) := by
  induction term generalizing facts with
  | nothing => exact pure _
  | missing expression => exact throw _
  | compound operator expression => exact throw _
  | header condition induction => exact induction facts
  | «variable» target => exact read.bind fun _ => pure _
  | field expression receiver induction =>
      unfold CheckedM.evaluate RunM.evaluate
      refine (induction facts).bind fun outcome => ?_
      dsimp only
      split
      · exact (slotOfField _).bind fun _ => pure _
      · exact pure _
  | assign target value targetInduction valueInduction =>
      unfold CheckedM.evaluate RunM.evaluate
      cases target.site? with
      | some defined =>
          exact (valueInduction facts).bind fun _ => define.bind fun _ =>
            (perform (.recordCopy_inRange value)).bind fun _ => pure _
      | none =>
          exact (targetInduction facts).bind fun _ => (valueInduction _).bind fun _ => pure _
  | ternary condition onTrue onFalse induction trueInduction falseInduction =>
      exact (induction facts).bind fun _ => (trueInduction _).bind fun _ =>
        (falseInduction _).bind fun _ => joinArms _ _
  | and left right induction rightInduction =>
      exact (induction facts).bind fun _ => (rightInduction _).bind fun _ => pure _
  | or left right induction rightInduction =>
      exact (induction facts).bind fun _ => (rightInduction _).bind fun _ => pure _
  | not operand induction => exact (induction facts).bind fun _ => pure _
  | typeTest operand binding induction =>
      unfold CheckedM.evaluate RunM.evaluate
      refine (induction facts).bind fun tested => ?_
      cases binding with
      | none => exact pure _
      | invalid expression => exact throw _
      | «variable» target => exact define.bind fun _ => pure _
  | increment target induction =>
      unfold CheckedM.evaluate RunM.evaluate
      refine (induction facts).bind fun outcome => ?_
      cases target.site? with
      | some incremented => exact incrementVariable.bind fun _ => pure _
      | none => exact pure _
  | chain first rest induction restInduction =>
      exact (induction facts).bind fun _ => restInduction _
  | clobber operands induction => exact (induction facts).bind fun _ => pure _

example (site : Site) (onTrue onFalse : Facts) (state : RunState) :
    CheckedM.evaluate site (.not .nothing) (.split onTrue onFalse) state = none := rfl

/-- The facts are joined before every expression of a node. -/
theorem evaluateExpression (entry : OutcomeFacts) (expression : ExprId) :
    Follows bound (CheckedM.evaluateExpression context site entry expression)
      (RunM.evaluateExpression context site entry expression) :=
  evaluate _ entry.merged

private theorem evaluateFirst (kind : FlowNodeKind) (entry : OutcomeFacts) (expression : ExprId) :
    Follows bound (CheckedM.evaluateFirst context site kind entry expression)
      (RunM.evaluateFirst context site kind entry expression) := by
  unfold CheckedM.evaluateFirst RunM.evaluateFirst
  cases context.body.arena.site? expression with
  | none => cases kind <;> exact evaluateExpression entry expression
  | some target =>
      cases kind with
      | forEachBinding => exact define.bind fun _ => pure _
      | _ => exact evaluateExpression entry expression

theorem evaluateNode (node : FlowNode) (entry : Facts) :
    Follows bound (CheckedM.evaluateNode context site node entry)
      (RunM.evaluateNode context site node entry) := by
  unfold CheckedM.evaluateNode RunM.evaluateNode
  cases node.expressions with
  | nil => exact pure _
  | cons first rest =>
      exact (evaluateFirst _ _ _).bind fun outcome =>
        foldlM (fun entry expression _ => evaluateExpression entry expression) outcome

end Follows

end SlotVersioning
