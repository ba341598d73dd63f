import SlotVersioning.Proofs.Checked.Evaluation
import SlotVersioning.Versioning.Versioner

/-!
# Checked runs of a versioner

The seeds, the passes and the live round over checked evaluations, and a whole run. A run is never
refused: no index into the version graph or into the tables of the dominator algorithm is out of
range, and single facts are asked for only where facts are joined.
-/

namespace SlotVersioning

namespace CheckedM

def visit (context : Context) (live : Bool) (dirty : DirtyNodes) (entry : FlowNode × NodeId) :
    CheckedM DirtyNodes := do
  let (node, name) := entry
  let facts ← RunM.arrive context name
  let outcome ← evaluateNode context (context.site node.statement live) node facts
  let changed ← RunM.leave context name (RunM.leaving context node outcome)
  if changed && !context.graph.isExtra name then
    return (dirty.erase name).insertMany node.successors
  else
    return dirty.erase name

def pass (context : Context) (live : Bool) (dirty : DirtyNodes) : CheckedM DirtyNodes :=
  context.graph.nodes.toList.zipIdx.foldlM (visit context live) dirty

def settle (context : Context) : (fuel : Nat) → DirtyNodes → CheckedM Unit
  | 0, _ => do throw (.notConverged (← RunM.tables).passes)
  | fuel + 1, dirty => do
      RunM.countPass
      let dirty ← pass context false dirty
      RunM.report (.passFinished (← RunM.tables).passes context.graph.size dirty.size)
      if dirty.isEmpty then pure () else settle context fuel dirty

def liveRound (context : Context) : CheckedM Unit := do
  RunM.countPass
  discard <| pass context true ∅
  editGraph VersionGraph.computeDominators?
  match (← RunM.tables).graph with
  | some graph => RunM.report (.liveRoundFinished graph.size)
  | none => pure ()

def seedVersion (context : Context) (statement : StatementId) (facts : Facts) (slot : Slot) :
    CheckedM Facts := do
  let version ← RunM.mint context.body.statements slot (some statement)
  editGraph fun graph => do return (← graph.ensure? ⟨slot, version⟩ .definition).1
  return facts.pin slot version

def seedParameters (context : Context) (entry : NodeId) : CheckedM Unit := do
  let facts ← context.body.signature.arrivalSlots.foldlM
    (seedVersion context StatementTree.root) ∅
  RunM.storeSeeds entry facts

def seedHandler (context : Context) (statement : StatementId) (slots : List Slot)
    (handler : StatementId × Nat) : CheckedM Unit := do
  let (child, position) := handler
  match slots[position]?, context.graph.statementStart? child with
  | none, _ => throw (.handlerVariable child statement)
  | some _, none => throw (.handlerStart child statement)
  | some slot, some entry => RunM.storeSeeds entry (← seedVersion context statement ∅ slot)

def seedHandlers (context : Context) (statement : StatementId) : CheckedM Unit :=
  let tree := context.body.statements
  match (tree.get? statement).bind fun stored => stored.kind.handlerSlots? with
  | none => pure ()
  | some slots =>
      ((tree.children statement).drop 1).zipIdx.forM (seedHandler context statement slots)

def versionAll (context : Context) : CheckedM Unit :=
  match context.graph.entry with
  | none => RunM.report .nothingToDo
  | some entry => do
      seedParameters context entry
      context.body.statements.preorder.forM (seedHandlers context)
      settle context context.config.maxPasses ∅
      if context.config.has .liveRound then liveRound context else pure ()

end CheckedM

/-- A run that is refused at an index out of range, and where single facts of a split holder are
asked for. -/
def Versioner.run? (versioner : Versioner) (body : Body) : Option RunResult :=
  let config := versioner.config
  let tables := versioner.tables.reset config
  match body.validate with
  | .error fault =>
      some { versioner := { config, tables }, body, outcome := .error fault, events := [] }
  | .ok () => do
      let (arena, stale) := body.arena.clearVersions
      let cleared := { body with arena }
      match ← CheckedM.versionAll { config, body := cleared } (begin tables arena stale) with
      | (.ok (), state) => return finish config cleared state (.ok ())
      | (.error fault, state) => return finish config cleared state (.error fault)

variable {bound : Nat} {context : Context}

/-! ## Passes -/

namespace RunM.Maintains

private theorem arrive_inRange (node : NodeId) :
    Maintains (RunState.InRange bound) (RunM.arrive context node) :=
  tables.bind fun _ => (ofExcept _).bind fun _ =>
    bind (editTables_inRange fun _ => rfl) fun _ => pure _

private theorem leave_inRange (node : NodeId) (outcome : OutcomeFacts) :
    Maintains (RunState.InRange bound) (RunM.leave context node outcome) := by
  refine tables.bind fun before => ?_
  split
  · exact (report_inRange _).bind fun _ =>
      bind (editTables_inRange fun _ => rfl) fun _ => pure _
  · exact pure _

end RunM.Maintains

namespace Follows

private theorem visit (live : Bool) (dirty : DirtyNodes) (entry : FlowNode × NodeId) :
    Follows bound (CheckedM.visit context live dirty entry)
      (RunM.visit context live dirty entry) := by
  rcases entry with ⟨node, name⟩
  refine (perform (.arrive_inRange name)).bind fun facts => (evaluateNode node facts).bind
    fun outcome => (perform (.leave_inRange name _)).bind fun changed => ?_
  split
  · exact pure _
  · exact pure _

theorem pass (live : Bool) (dirty : DirtyNodes) :
    Follows bound (CheckedM.pass context live dirty) (RunM.pass context live dirty) :=
  foldlM (fun dirty entry _ => visit live dirty entry) dirty

theorem countPass : Follows bound (liftM RunM.countPass) RunM.countPass := editTables fun _ => rfl

private theorem settle (fuel : Nat) (dirty : DirtyNodes) :
    Follows bound (CheckedM.settle context fuel dirty) (RunM.settle context fuel dirty) := by
  induction fuel generalizing dirty with
  | zero => exact tables fun _ _ => throw _
  | succ fuel induction =>
      refine countPass.bind fun _ => (pass false dirty).bind fun dirty => tables fun _ _ =>
        (report _).bind fun _ => ?_
      split
      · exact pure ()
      · exact induction dirty

theorem discard {α : Type} {checked : CheckedM α} {action : RunM α}
    (follows : Follows bound checked action) :
    Follows bound (Functor.discard checked) (Functor.discard action) := by
  rw [Functor.discard, Functor.discard, map_const, map_const, Function.comp_apply,
    Function.comp_apply, map_eq_pure_bind, map_eq_pure_bind]
  exact follows.bind fun _ => pure _

private theorem permitted_computeDominators :
    Permitted bound VersionGraph.computeDominators? VersionGraph.computeDominators :=
  fun _ inRange _ => ⟨inRange.computeDominators?_eq, inRange.computeDominators, Nat.le_refl _⟩

private theorem liveRound :
    Follows bound (CheckedM.liveRound context) (RunM.liveRound context) := by
  refine countPass.bind fun _ => (pass true ∅).discard.bind fun _ =>
    (editGraph permitted_computeDominators).bind fun _ => tables fun before _ => ?_
  cases before.graph with
  | none => exact pure ()
  | some graph => exact report _

/-! ## Seeds -/

theorem seedVersion (statement : StatementId) (facts : Facts) (slot : Slot) :
    Follows bound (CheckedM.seedVersion context statement facts slot)
      (RunM.seedVersion context statement facts slot) :=
  (mint _ _ _).bind fun _ =>
    (editGraph (permitted_ensure _ _ _)).bind fun _ => pure _

theorem storeSeeds (node : NodeId) (facts : Facts) :
    Follows bound (liftM (RunM.storeSeeds node facts)) (RunM.storeSeeds node facts) :=
  editTables fun _ => rfl

private theorem seedParameters (entry : NodeId) :
    Follows bound (CheckedM.seedParameters context entry) (RunM.seedParameters context entry) :=
  (foldlM (fun facts slot _ => seedVersion _ facts slot) _).bind fun _ => storeSeeds _ _

private theorem seedHandler (statement : StatementId) (slots : List Slot)
    (handler : StatementId × Nat) :
    Follows bound (CheckedM.seedHandler context statement slots handler)
      (RunM.seedHandler context statement slots handler) := by
  rcases handler with ⟨child, position⟩
  unfold CheckedM.seedHandler RunM.seedHandler
  dsimp only
  cases slots[position]? with
  | none => exact throw _
  | some slot =>
      cases context.graph.statementStart? child with
      | none => exact throw _
      | some entry => exact (seedVersion _ _ _).bind fun _ => storeSeeds _ _

private theorem seedHandlers (statement : StatementId) :
    Follows bound (CheckedM.seedHandlers context statement)
      (RunM.seedHandlers context statement) := by
  unfold CheckedM.seedHandlers RunM.seedHandlers
  dsimp only
  cases (context.body.statements.get? statement).bind fun stored => stored.kind.handlerSlots? with
  | none => exact pure ()
  | some slots => exact forM fun handler _ => seedHandler _ _ handler

/-! ## A whole body -/

private theorem versionAll :
    Follows bound (CheckedM.versionAll context) (RunM.versionAll context) := by
  unfold CheckedM.versionAll RunM.versionAll
  cases context.graph.entry with
  | none => exact report _
  | some entry =>
      refine (seedParameters entry).bind fun _ =>
        (forM fun statement _ => seedHandlers statement).bind fun _ =>
          (settle _ _).bind fun _ => ?_
      split
      · exact liveRound
      · exact pure ()

end Follows

private theorem Tables.inRange_reset (tables : Tables) (config : Config) :
    (tables.reset config).InRange 0 := by
  intro graph found
  change (if config.has .versionGraph then some {} else none) = some graph at found
  split at found
  · cases found
    exact ⟨VersionGraph.inRange_empty, Nat.zero_le _⟩
  · exact nomatch found

/-- No run is refused. Whatever the body, every term is entered with joined facts, the single facts
of a split holder are never asked for, and no index into the version graph or into a table of its
dominator computation is out of range, in runs that succeed and in runs that fail. -/
theorem Versioner.never_refused (versioner : Versioner) (body : Body) :
    versioner.run? body = some (versioner.run body) := by
  unfold Versioner.run? Versioner.run
  cases body.validate with
  | error fault => rfl
  | ok valid =>
      rcases body.arena.clearVersions with ⟨arena, stale⟩
      dsimp only
      generalize begun : begin (versioner.tables.reset versioner.config) arena stale = state
      have inRange : state.InRange 0 :=
        begun ▸ Tables.inRange_reset versioner.tables versioner.config
      have follows : Follows 0
          (CheckedM.versionAll { config := versioner.config, body := { body with arena } })
          (RunM.versionAll { config := versioner.config, body := { body with arena } }) :=
        .versionAll
      rw [(follows state inRange).1, CheckedM.perform]
      cases RunM.versionAll { config := versioner.config, body := { body with arena } } state with
      | ok value final => rfl
      | error fault final => rfl

end SlotVersioning
