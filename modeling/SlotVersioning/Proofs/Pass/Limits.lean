import SlotVersioning.Proofs.Pass.Beginning

/-!
# Limited runs

The number of passes that is allowed has no part in what a pass does. So a run that is allowed fewer
rounds than it takes stops in the state after those rounds, and a run that is allowed more is the
same run (`RunM.versionAll_limitedTo`, `Versioner.run_of_rounds`).
-/

namespace SlotVersioning

open Std

/-! ## Changing the limits -/

def Config.withLimits (config : Config) (passes depth : Nat) : Config :=
  { config with maxPasses := passes, maxFinallyDepth := depth }

def Site.withLimits (site : Site) (passes depth : Nat) : Site :=
  { site with config := site.config.withLimits passes depth }

def Context.withLimits (context : Context) (passes depth : Nat) : Context :=
  { context with config := context.config.withLimits passes depth }

def Config.limitedTo (config : Config) (passes : Nat) : Config :=
  { config with maxPasses := passes }

def Context.limitedTo (context : Context) (passes : Nat) : Context :=
  { context with config := context.config.limitedTo passes }

def Versioner.limitedTo (versioner : Versioner) (passes : Nat) : Versioner :=
  { versioner with config := versioner.config.limitedTo passes }

private theorem Tables.exitFacts_limitedTo (tables : Tables) (graph : FlowGraph) (config : Config)
    (passes : Nat) (destination : NodeId) (depth : Nat) (node exit : NodeId) :
    tables.exitFacts graph (config.limitedTo passes) destination depth node exit =
      tables.exitFacts graph config destination depth node exit := by
  induction depth generalizing node exit with
  | zero => rfl
  | succ depth induction => simp only [exitFacts, induction]

namespace RunM

section Sites

variable (site : Site) (passes depth : Nat)

theorem read_withLimits : read (site.withLimits passes depth) = read site := rfl

theorem define_withLimits : define (site.withLimits passes depth) = define site := rfl

theorem incrementVariable_withLimits :
    incrementVariable (site.withLimits passes depth) = incrementVariable site := rfl

theorem clobberFields_withLimits :
    clobberFields (site.withLimits passes depth) = clobberFields site := rfl

/-- The limits have no part in what a term does. -/
private theorem evaluate_withLimits (term : Term) (entry : OutcomeFacts) :
    evaluate (site.withLimits passes depth) term entry = evaluate site term entry := by
  induction term generalizing entry with
  | nothing | missing | compound => rfl
  | header condition induction => simp only [evaluate, induction]
  | «variable» target => simp only [evaluate, read_withLimits]
  | field expression receiver induction =>
      simp only [evaluate, induction]
      rfl
  | assign target value targetInduction valueInduction =>
      simp only [evaluate, targetInduction, valueInduction, define_withLimits,
        clobberFields_withLimits]
  | ternary condition onTrue onFalse conditionInduction trueInduction falseInduction =>
      simp only [evaluate, conditionInduction, trueInduction, falseInduction]
  | and left right leftInduction rightInduction | or left right leftInduction rightInduction =>
      simp only [evaluate, leftInduction, rightInduction]
  | not operand induction => simp only [evaluate, induction]
  | typeTest operand binding induction => simp only [evaluate, induction, define_withLimits]
  | increment target induction =>
      simp only [evaluate, induction, incrementVariable_withLimits, clobberFields_withLimits]
  | chain first rest firstInduction restInduction =>
      simp only [evaluate, firstInduction, restInduction]
  | clobber operands induction => simp only [evaluate, induction, clobberFields_withLimits]

end Sites

/-- The limits have no part in what the expressions of a node do. -/
theorem evaluateNode_withLimits (context : Context) (passes depth : Nat)
    (statement : StatementId) (live : Bool) (node : FlowNode) (entry : Facts) :
    evaluateNode (context.withLimits passes depth)
        ((context.withLimits passes depth).site statement live) node entry =
      evaluateNode context (context.site statement live) node entry := by
  have sites : (context.withLimits passes depth).site statement live =
      (context.site statement live).withLimits passes depth := rfl
  have each (outcome : OutcomeFacts) (expression : ExprId) :
      evaluateExpression (context.withLimits passes depth)
          ((context.withLimits passes depth).site statement live) outcome expression =
        evaluateExpression context (context.site statement live) outcome expression := by
    rw [sites]
    exact evaluate_withLimits _ _ _ _ _
  have first (kind : FlowNodeKind) (outcome : OutcomeFacts) (expression : ExprId) :
      evaluateFirst (context.withLimits passes depth)
          ((context.withLimits passes depth).site statement live) kind outcome expression =
        evaluateFirst context (context.site statement live) kind outcome expression := by
    unfold evaluateFirst
    simp only [each]
    rfl
  unfold evaluateNode
  cases node.expressions with
  | nil => rfl
  | cons head tail =>
      simp only [first]
      exact congrArg (evaluateFirst context _ node.kind _ head >>= ·)
        (funext fun outcome => by simp only [funext fun outcome => funext (each outcome)])

section Passes

variable (context : Context) (passes : Nat)

private theorem arrive_limitedTo (node : NodeId) :
    arrive (context.limitedTo passes) node = arrive context node := by
  have arriving (tables : Tables) (source : NodeId) :
      tables.arriving (context.limitedTo passes).graph (context.limitedTo passes).config node
          source = tables.arriving context.graph context.config node source :=
    tables.exitFacts_limitedTo _ _ _ _ _ _ _
  unfold arrive
  simp only [arriving]
  rfl

private theorem evaluateNode_limitedTo (statement : StatementId) (live : Bool) (node : FlowNode)
    (entry : Facts) :
    evaluateNode (context.limitedTo passes) ((context.limitedTo passes).site statement live) node
        entry = evaluateNode context (context.site statement live) node entry :=
  evaluateNode_withLimits context passes context.config.maxFinallyDepth statement live node entry

private theorem visit_limitedTo (live : Bool) (dirty : DirtyNodes) (entry : FlowNode × NodeId) :
    visit (context.limitedTo passes) live dirty entry = visit context live dirty entry := by
  unfold visit
  simp only [arrive_limitedTo, evaluateNode_limitedTo]
  rfl

theorem pass_limitedTo (live : Bool) (dirty : DirtyNodes) :
    pass (context.limitedTo passes) live dirty = pass context live dirty := by
  unfold pass
  simp only [funext fun dirty => funext (visit_limitedTo context passes live dirty)]
  rfl

private theorem round_limitedTo : round (context.limitedTo passes) = round context := by
  funext dirty
  unfold round
  simp only [pass_limitedTo]
  rfl

private theorem liveRound_limitedTo : liveRound (context.limitedTo passes) = liveRound context := by
  unfold liveRound
  simp only [pass_limitedTo]

private theorem settle_limitedTo (fuel : Nat) (dirty : DirtyNodes) :
    settle (context.limitedTo passes) fuel dirty = settle context fuel dirty := by
  induction fuel generalizing dirty with
  | zero => rfl
  | succ fuel induction => simp only [settle_succ, round_limitedTo, induction]

theorem versionAll_limitedTo {entry : NodeId} (found : context.graph.entry = some entry) :
    versionAll (context.limitedTo passes) = (do
      seeding context entry
      settle context passes ∅
      if context.config.has .liveRound then liveRound context else pure ()) := by
  have foundLimited : (context.limitedTo passes).graph.entry = some entry := found
  rw [versionAll_seeding foundLimited, settle_limitedTo, liveRound_limitedTo]
  rfl

end Passes

/-! ## Rounds in a row -/

variable {context : Context} {start state : RunState} {count : Nat} {dirty : DirtyNodes}

/-- After some rounds the loop goes on from where they ended. -/
theorem settle_of_rounds (rounds : Rounds context start count dirty state)
    (unsettled : count ≠ 0 → dirty.isEmpty = false) (fuel : Nat) :
    settle context (count + fuel) ∅ start = settle context fuel dirty state := by
  induction rounds generalizing fuel with
  | none => rw [Nat.zero_add]
  | more earlier before last induction =>
      rw [Nat.add_right_comm, Nat.add_assoc, induction before, settle_succ, bind_eq last,
        unsettled (Nat.succ_ne_zero _)]
      rfl

/-- The loop ends after the rounds that leave no dirty node. -/
theorem settle_of_settled (rounds : Rounds context start count ∅ state) (positive : 0 < count)
    (fuel : Nat) : settle context (count + fuel) ∅ start = .ok () state := by
  generalize left : (∅ : DirtyNodes) = remaining at rounds
  cases rounds with
  | none => exact absurd positive (Nat.lt_irrefl 0)
  | more earlier before last =>
      subst left
      rw [Nat.add_right_comm, Nat.add_assoc, settle_of_rounds earlier before, settle_succ,
        bind_eq last, if_pos ExtTreeSet.isEmpty_empty]
      rfl

end RunM

/-! ## Whole runs -/

namespace Versioner

variable {versioner : Versioner} {body : Body}

/-- A run with another limit begins like the run. -/
theorem run_limitedTo (passes : Nat) (valid : body.validate = .ok ()) :
    (versioner.limitedTo passes).run body =
      concluded (versioner.config.limitedTo passes) body
        (RunM.versionAll ((Context.mk versioner.config body).limitedTo passes)
          (start versioner.config body)) :=
  run_of_valid valid

/-- A run that may make no more rounds than leave dirty nodes stops after them. -/
theorem run_of_rounds {entry : NodeId} {seeded last : RunState} {dirty : DirtyNodes}
    {passes : Nat} (valid : body.validate = .ok ()) (entered : body.graph.entry = some entry)
    (seeds : RunM.seeding { config := versioner.config, body } entry
      (start versioner.config body) = .ok () seeded)
    (rounds : RunM.Rounds { config := versioner.config, body } seeded passes dirty last)
    (unsettled : passes ≠ 0 → dirty.isEmpty = false) :
    (versioner.limitedTo passes).run body =
      finish (versioner.config.limitedTo passes) body last
        (.error (.notConverged last.tables.passes)) := by
  have stopped := RunM.settle_of_rounds rounds unsettled 0
  rw [Nat.add_zero, RunM.settle, RunM.bind_eq (RunM.tables_apply _)] at stopped
  rw [run_limitedTo passes valid,
    RunM.versionAll_limitedTo (Context.mk versioner.config body) passes entered,
    RunM.bind_eq seeds, RunM.bind_error stopped]
  rfl

end Versioner

end SlotVersioning
