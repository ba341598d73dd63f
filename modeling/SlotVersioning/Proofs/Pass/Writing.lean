import SlotVersioning.Proofs.Body.Regular
import SlotVersioning.Proofs.Course.Stuck
import SlotVersioning.Proofs.Pass.Beginning
import SlotVersioning.Proofs.Run.Maintaining

/-!
# What a run writes

However a run ends, it has written versions at variables that the nodes list or that are below what
they list, and it has changed nothing else of the body (`writesVersionsOnly_of_run`).
-/

namespace SlotVersioning

/-! ## Sites are reached -/

private theorem Arena.below_of_mem {arena : Arena} {depth : Nat} {root expression : ExprId}
    (member : expression ∈ arena.below depth root) : arena.Below root expression := by
  induction depth generalizing root with
  | zero =>
      rcases List.mem_singleton.1 member with rfl
      exact .refl
  | succ depth induction =>
      rcases List.mem_cons.1 member with rfl | further
      · exact .refl
      · rcases List.mem_flatMap.1 further with ⟨operand, isOperand, inside⟩
        exact .head isOperand (induction inside)

/-- Versions are written only at what the nodes list and below. -/
private theorem Body.reached_of_site {body : Body} {node : FlowNode}
    (known : node ∈ body.graph.nodes) {expression : ExprId}
    (isSite : expression ∈ (body.nodeCourse node).sites) : body.Reached expression := by
  have counted := Nat.lt_of_lt_of_le (List.count_pos_iff.2 isSite)
    (body.count_sites_nodeCourse node expression)
  rcases List.mem_flatMap.1 (List.count_pos_iff.1 counted) with ⟨root, listed, inside⟩
  exact ⟨root, List.mem_flatMap.2 ⟨node, Array.mem_toList_iff.2 known, listed⟩,
    Arena.below_of_mem inside⟩

/-! ## Passes -/

/-- Every expression at which a node writes a version is allowed. -/
def Context.WritesWithin (context : Context) (allowed : ExprId → Prop) : Prop :=
  ∀ node ∈ context.graph.nodes, ∀ expression ∈ (context.body.nodeCourse node).sites,
    allowed expression

namespace RunM

namespace Maintains

variable {context : Context} {allowed : ExprId → Prop}

private theorem arrive (name : NodeId) :
    Maintains (RunState.WrittenWithin allowed) (arrive context name) :=
  tables.bind fun _ => (ofExcept _).bind fun _ => (editTables _).bind fun _ => pure _

private theorem leave (name : NodeId) (outcome : OutcomeFacts) :
    Maintains (RunState.WrittenWithin allowed) (leave context name outcome) := by
  refine tables.bind fun before => ?_
  split
  · exact (report _).bind fun _ => (editTables _).bind fun _ => pure _
  · exact pure _

private theorem evaluateNode {site : Site} {node : FlowNode}
    (within : ∀ expression ∈ (context.body.nodeCourse node).sites, allowed expression)
    (entry : Facts) :
    Maintains (RunState.WrittenWithin allowed) (evaluateNode context site node entry) := by
  refine of_map OutcomeFacts.branches ?_
  rw [evaluateNode_branches]
  exact Course.run_maintains within entry

theorem seedVersion (statement : StatementId) (facts : Facts) (slot : Slot) :
    Maintains (RunState.WrittenWithin allowed) (seedVersion context statement facts slot) :=
  (mint _ _ _).bind fun _ => (editGraph _).bind fun _ => pure _

private theorem seedParameters (entry : NodeId) :
    Maintains (RunState.WrittenWithin allowed) (seedParameters context entry) :=
  (foldlM (fun facts slot _ => seedVersion _ facts slot) _).bind fun _ => editTables _

private theorem seedHandler (statement : StatementId) (slots : List Slot)
    (handler : StatementId × Nat) :
    Maintains (RunState.WrittenWithin allowed) (seedHandler context statement slots handler) := by
  unfold RunM.seedHandler
  dsimp only
  split
  · exact throw _
  · exact throw _
  · exact (seedVersion _ _ _).bind fun _ => editTables _

private theorem seedHandlers (statement : StatementId) :
    Maintains (RunState.WrittenWithin allowed) (seedHandlers context statement) := by
  unfold RunM.seedHandlers
  dsimp only
  split
  · exact pure ()
  · exact forM fun handler _ => seedHandler _ _ handler

variable (allows : context.WritesWithin allowed)

include allows

theorem pass (live : Bool) (dirty : DirtyNodes) :
    Maintains (RunState.WrittenWithin allowed) (pass context live dirty) := by
  refine foldlM (fun dirty entry member => ?_) dirty
  rcases entry with ⟨node, name⟩
  have known : node ∈ context.graph.nodes :=
    Array.mem_toList_iff.1 (List.fst_mem_of_mem_zipIdx member)
  refine (arrive name).bind fun facts => (evaluateNode (allows node known) facts).bind
    fun outcome => (leave name _).bind fun changed => ?_
  split <;> exact pure _

private theorem settle (fuel : Nat) (dirty : DirtyNodes) :
    Maintains (RunState.WrittenWithin allowed) (settle context fuel dirty) := by
  induction fuel generalizing dirty with
  | zero => exact tables.bind fun _ => throw _
  | succ fuel induction =>
      refine (editTables _).bind fun _ => (pass allows false dirty).bind fun left =>
        tables.bind fun _ => (report _).bind fun _ => ?_
      split
      · exact pure ()
      · exact induction left

private theorem liveRound : Maintains (RunState.WrittenWithin allowed) (liveRound context) := by
  refine (editTables _).bind fun _ => ((pass allows true ∅).bind fun _ => pure _).bind fun _ =>
    (editGraph _).bind fun _ => tables.bind fun after => ?_
  split
  · exact report _
  · exact pure ()

private theorem versionAll : Maintains (RunState.WrittenWithin allowed) (versionAll context) := by
  unfold RunM.versionAll
  split
  · exact report _
  · refine (seedParameters _).bind fun _ =>
      (forM fun statement _ => seedHandlers statement).bind fun _ =>
        (settle allows _ _).bind fun _ => ?_
    split
    · exact liveRound allows
    · exact pure ()

end Maintains

end RunM

/-! ## Whole runs -/

/-- What a run leaves of a body, however it ends: everything but the versions of variables. -/
structure RunResult.WritesVersionsOnly (result : RunResult) (body : Body) : Prop where
  statements : result.body.statements = body.statements
  graph : result.body.graph = body.graph
  signature : result.body.signature = body.signature
  size : result.body.arena.size = body.arena.size
  /-- An expression has another version at most. -/
  expressions : ∀ expression, ∃ version,
    result.body.arena.get? expression = (body.arena.get? expression).map (Expr.withVersion version)
  /-- What is not a variable is as it was. -/
  others : ∀ expression expr, body.arena.get? expression = some expr → expr.access? = none →
    result.body.arena.get? expression = some expr
  /-- Nothing is written into a body that is refused. -/
  refused : ∀ fault, body.validate = .error fault → result.body = body
  /-- A variable that no node evaluates has no version. -/
  unreached : body.validate = .ok () → ∀ expression access, ¬ body.Reached expression →
    result.body.arena.access? expression = some access → access.version = 0

namespace RunResult.WritesVersionsOnly

variable {body : Body} {result : RunResult}

private theorem of_refused {fault : Fault} (invalid : body.validate = .error fault)
    (same : result.body = body) : result.WritesVersionsOnly body where
  statements := by rw [same]
  graph := by rw [same]
  signature := by rw [same]
  size := by rw [same]
  expressions expression := by
    rw [same]
    refine ⟨((body.arena.access? expression).map VariableAccess.version).getD 0, ?_⟩
    unfold Arena.access?
    cases body.arena.get? expression with
    | none => rfl
    | some expr => cases expr <;> rfl
  others expression expr stored _ := by rw [same, stored]
  refused _ _ := same
  unreached valid := nomatch invalid.symm.trans valid

/-- A body whose versions are those of the state in which a run ends. -/
private theorem of_finish (config : Config) (state : RunState) (outcome : Except Fault Unit)
    (valid : body.validate = .ok ()) (within : state.WrittenWithin body.Reached) :
    (Versioner.finish config body state outcome).WritesVersionsOnly body where
  statements := rfl
  graph := rfl
  signature := rfl
  size := body.arena.size_withVersions _
  expressions expression := ⟨state.version expression, body.arena.get?_withVersions _ expression⟩
  others expression expr stored isOther := by
    refine (body.arena.get?_withVersions _ expression).trans ?_
    rw [stored]
    cases expr with
    | «variable» access => exact nomatch isOther
    | _ => rfl
  refused fault invalid := nomatch invalid.symm.trans valid
  unreached _ expression access unreached stored := by
    have stored : (((body.arena.withVersions state.version).get? expression).bind
      Expr.access?) = some access := stored
    rw [Arena.get?_withVersions] at stored
    rcases Option.bind_eq_some_iff.1 stored with ⟨written, isWritten, accesses⟩
    rcases Option.map_eq_some_iff.1 isWritten with ⟨expr, -, rfl⟩
    rw [Expr.access?_withVersion] at accesses
    rcases Option.map_eq_some_iff.1 accesses with ⟨before, -, rfl⟩
    exact within expression unreached

end RunResult.WritesVersionsOnly

/-- However a run ends, it has changed nothing of the body but versions, which it writes where nodes
evaluate variables. -/
theorem writesVersionsOnly_of_run (versioner : Versioner) (body : Body) :
    (versioner.run body).WritesVersionsOnly body := by
  cases valid : body.validate with
  | error fault =>
      rw [Versioner.run_of_invalid valid]
      exact .of_refused valid rfl
  | ok done =>
      cases done
      rw [Versioner.run_of_valid valid]
      have start : (Versioner.start versioner.config body).WrittenWithin body.Reached :=
        fun _ _ => rfl
      have writes : Context.WritesWithin { config := versioner.config, body } body.Reached :=
        fun _ known _ isSite => Body.reached_of_site known isSite
      have after := RunM.Maintains.versionAll writes _ start
      unfold RunM.stateAfter at after
      unfold Versioner.concluded
      split
      · next ended => exact .of_finish _ _ _ valid (by rwa [ended] at after)
      · next ended => exact .of_finish _ _ _ valid (by rwa [ended] at after)

end SlotVersioning
