import SlotVersioning.Proofs.Pass.Limits
import SlotVersioning.Proofs.Pass.Seeding
import SlotVersioning.Proofs.Trace.Execution

/-!
# Runs within wider limits

The limits only refuse: nothing that is computed depends on a limit that was not reached. An action
*recurs* in another one that succeeds, in the same way, wherever the first does. Whatever a node, a
pass or the whole loop does within some limits recurs within wider ones, so a run that succeeds is
the same run there (`Versioner.run_within`).
-/

namespace SlotVersioning

/-- `wider` differs in its limits only, and none of them is smaller. -/
structure Config.Within (config wider : Config) : Prop where
  features : wider.features = config.features
  passes : config.maxPasses ≤ wider.maxPasses
  depth : config.maxFinallyDepth ≤ wider.maxFinallyDepth

private theorem Config.Within.eq_withLimits {config wider : Config} (within : config.Within wider) :
    wider = config.withLimits wider.maxPasses wider.maxFinallyDepth := by
  unfold withLimits
  rw [← within.features]

/-! ## Facts along exits -/

/-- Facts that were found along exits are found with more depth as well. -/
private theorem Tables.exitFacts_deeper {tables : Tables} {graph : FlowGraph}
    {config wider : Config} {destination : NodeId} {depth deeper : Nat} {node exit : NodeId}
    {facts : Facts} (bound : depth ≤ deeper)
    (found : tables.exitFacts graph config destination depth node exit = .ok facts) :
    tables.exitFacts graph wider destination deeper node exit = .ok facts := by
  induction depth generalizing deeper node exit facts with
  | zero => cases found
  | succ depth induction =>
      rcases Nat.exists_eq_add_of_le' (Nat.le_of_succ_le bound) with ⟨more, rfl⟩
      cases more with
      | zero => exact absurd bound (by omega)
      | succ more =>
          have nested (node exit : NodeId) (facts : Facts) :
              tables.exitFacts graph config destination depth node exit = .ok facts →
                tables.exitFacts graph wider destination (depth + more) node exit = .ok facts :=
            induction (Nat.le_add_right depth more)
          rw [show more + 1 + depth = depth + more + 1 by omega]
          simp only [exitFacts] at found ⊢
          split at found
          · exact found
          · split at found
            · next empty => rw [if_pos empty]; exact found
            · next present =>
                rw [if_neg present]
                refine Fault.bind_recurs (fun collected => Fault.foldlM_recurs ?_) ?_ found
                · intro collected path next
                  split
                  · refine Fault.bind_recurs (fun sourceFacts step => ?_) fun _ => id
                    cases inner : tables.exitFacts graph config destination depth path.entry
                        path.source with
                    | error fault =>
                        rw [inner] at step
                        cases step
                    | ok facts =>
                        rw [inner] at step
                        rw [nested _ _ _ inner]
                        exact step
                  · exact id
                · exact fun _ => id

namespace RunM

variable {α β : Type}

/-! ## Actions -/

/-- The other action succeeds, in the same way, wherever the action does. -/
def Recurs (action other : RunM α) : Prop :=
  ∀ state value final, action state = .ok value final → other state = .ok value final

namespace Recurs

theorem refl (action : RunM α) : Recurs action action := fun _ _ _ => id

theorem bind {action other : RunM α} {next following : α → RunM β} (first : Recurs action other)
    (later : ∀ value, Recurs (next value) (following value)) :
    Recurs (action >>= next) (other >>= following) := by
  intro state value final run
  rcases bind_ok run with ⟨result, middle, firstRun, secondRun⟩
  rw [bind_eq (first _ _ _ firstRun)]
  exact later result _ _ _ secondRun

theorem foldlM (list : List α) {step other : β → α → RunM β} (start : β)
    (each : ∀ value entry, Recurs (step value entry) (other value entry)) :
    Recurs (list.foldlM step start) (list.foldlM other start) := by
  induction list generalizing start with
  | nil => exact refl _
  | cons head tail induction =>
      rw [List.foldlM_cons, List.foldlM_cons]
      exact (each start head).bind induction

end Recurs

/-! ## Passes -/

section Passes

variable {context : Context} {depth : Nat} (passes : Nat)
  (deeper : context.config.maxFinallyDepth ≤ depth)

include deeper

private theorem arrive_recurs (name : NodeId) :
    Recurs (arrive context name) (arrive (context.withLimits passes depth) name) := by
  apply (Recurs.refl tables).bind
  intro before
  apply Recurs.bind ?_ fun _ => .refl _
  intro state value final run
  cases joining : (context.graph.predecessors name).foldlM (fun facts source =>
      return facts ∪ (← before.arriving context.graph context.config name source))
      (∅ : Facts) with
  | error fault =>
      rw [joining] at run
      exact nomatch run
  | ok joined =>
      have wider : ((context.withLimits passes depth).graph.predecessors name).foldlM
          (fun facts source => return facts ∪ (← before.arriving
            (context.withLimits passes depth).graph (context.withLimits passes depth).config name
            source)) (∅ : Facts) = .ok joined := by
        refine Fault.foldlM_recurs (fun facts source next => ?_) joining
        refine Fault.bind_recurs (fun brought => ?_) fun _ => id
        exact Tables.exitFacts_deeper (Nat.succ_le_succ deeper)
      rw [joining] at run
      rw [wider]
      exact run

private theorem visit_recurs (live : Bool) (dirty : DirtyNodes) (entry : FlowNode × NodeId) :
    Recurs (visit context live dirty entry)
      (visit (context.withLimits passes depth) live dirty entry) := by
  apply (arrive_recurs passes deeper entry.2).bind
  intro facts
  rw [evaluateNode_withLimits]
  exact .refl _

theorem pass_recurs (live : Bool) (dirty : DirtyNodes) :
    Recurs (pass context live dirty) (pass (context.withLimits passes depth) live dirty) :=
  .foldlM _ _ (visit_recurs passes deeper live)

private theorem round_recurs (dirty : DirtyNodes) :
    Recurs (round context dirty) (round (context.withLimits passes depth) dirty) :=
  (Recurs.refl _).bind fun _ => (pass_recurs passes deeper false dirty).bind fun _ => .refl _

private theorem liveRound_recurs :
    Recurs (liveRound context) (liveRound (context.withLimits passes depth)) :=
  (Recurs.refl _).bind fun _ =>
    ((pass_recurs passes deeper true ∅).bind fun _ => .refl _).bind fun _ => .refl _

/-- The loop does not need the fuel that it leaves. -/
private theorem settle_recurs {fuel more : Nat} (bound : fuel ≤ more) (dirty : DirtyNodes) :
    Recurs (settle context fuel dirty) (settle (context.withLimits passes depth) more dirty) := by
  induction fuel generalizing more dirty with
  | zero =>
      intro state value final run
      exact nomatch run
  | succ fuel induction =>
      cases more with
      | zero => exact absurd bound (Nat.not_succ_le_zero fuel)
      | succ more =>
          rw [settle_succ, settle_succ]
          apply (round_recurs passes deeper dirty).bind
          intro left
          split
          · exact .refl _
          · exact induction (Nat.le_of_succ_le_succ bound) left

private theorem versionAll_recurs (more : context.config.maxPasses ≤ passes) :
    Recurs (versionAll context) (versionAll (context.withLimits passes depth)) := by
  have entries : (context.withLimits passes depth).graph.entry = context.graph.entry := rfl
  have features : (context.withLimits passes depth).config.has .liveRound =
    context.config.has .liveRound := rfl
  unfold versionAll
  rw [entries, features]
  cases context.graph.entry with
  | none => exact .refl _
  | some entry =>
      apply (Recurs.refl (seedParameters context entry)).bind
      intro _
      apply (Recurs.refl (context.body.statements.preorder.forM (seedHandlers context))).bind
      intro _
      apply (settle_recurs passes deeper more ∅).bind
      intro _
      split
      · exact liveRound_recurs passes deeper
      · exact .refl _

end Passes

end RunM

/-! ## Whole runs -/

namespace Versioner

/-- A run that succeeds is the same run within wider limits: the same versions are written, and the
same tables are left, with the number of passes. -/
theorem run_within {versioner wider : Versioner} {body : Body}
    (within : versioner.config.Within wider.config)
    (succeeds : (versioner.run body).outcome = .ok ()) :
    (wider.run body).outcome = .ok () ∧
      (wider.run body).body = (versioner.run body).body ∧
      (wider.run body).versioner.tables = (versioner.run body).versioner.tables ∧
      (wider.run body).events = (versioner.run body).events := by
  rcases run_ok succeeds with ⟨final, valid, whole, finished⟩
  have recurs := @RunM.versionAll_recurs ⟨versioner.config, body⟩ wider.config.maxFinallyDepth
    wider.config.maxPasses within.depth within.passes _ _ _ whole
  have config : (Context.mk versioner.config body).withLimits wider.config.maxPasses
      wider.config.maxFinallyDepth = Context.mk wider.config body := by
    unfold Context.withLimits
    rw [← within.eq_withLimits]
  have begins : start versioner.config body = start wider.config body := by
    rw [within.eq_withLimits]
    rfl
  rw [config, begins] at recurs
  have again : wider.run body = finish wider.config body final (.ok ()) := by
    rw [run_of_valid valid, recurs]
    rfl
  rw [again, finished]
  exact ⟨rfl, rfl, rfl, rfl⟩

end Versioner

/-- The shared exit of a `finally` block leads into another one, after which a variable is read. -/
def Body.nesting : Body where
  arena.exprs := #[.variable { slot := 0 }, .literal .null, .assignment 0 1 none,
    .variable { slot := 0 }]
  graph.nodes := #[
    { kind := .direct, statement := 0, expressions := [2], successors := [1] },
    { kind := .direct, statement := 0, predecessors := [0], successors := [2] },
    { kind := .direct, statement := 0, predecessors := [1], successors := [3] },
    { kind := .direct, statement := 0, expressions := [3], predecessors := [2] }]
  graph.entry := some 0
  graph.shortPaths :=
    (Std.ExtTreeMap.empty.insert 1 [⟨0, 2, 1⟩]).insert 2 [⟨1, 3, 2⟩]
  graph.longPaths := Std.ExtTreeMap.empty.insert 1 [⟨0, 2, 1⟩, ⟨0, 3, 1⟩]
  signature.isStatic := true

namespace Versioner

/-- Two exits have to be resolved at the last node. -/
theorem run_within_nesting :
    ({ Config.plain with maxPasses := 1, maxFinallyDepth := 1 } : Config).Within .plain ∧
      (({ Config.plain with maxPasses := 1, maxFinallyDepth := 1 } : Config).versioner.run
        .nesting).outcome = .ok () ∧
      (Config.plain.versioner.run .nesting).outcome = .ok () ∧
      (Config.plain.versioner.run .nesting).versioner.tables.passes = 1 :=
  have within : ({ Config.plain with maxPasses := 1, maxFinallyDepth := 1 } : Config).Within
      .plain := ⟨rfl, by decide, by decide⟩
  have succeeds : (({ Config.plain with maxPasses := 1, maxFinallyDepth := 1 } :
      Config).versioner.run .nesting).outcome = .ok () := by decide +kernel
  have recurs := @run_within _ Config.plain.versioner _ within succeeds
  have passes : (({ Config.plain with maxPasses := 1, maxFinallyDepth := 1 } :
      Config).versioner.run .nesting).versioner.tables.passes = 1 := by decide +kernel
  ⟨within, succeeds, recurs.1, (congrArg Tables.passes recurs.2.2.1).trans passes⟩

/-- With less depth the inner exit is refused. -/
example : (({ Config.plain with maxFinallyDepth := 0 } : Config).versioner.run
    .nesting).outcome = .error (.recursionLimit 0) := by
  decide +kernel

end Versioner

end SlotVersioning
