import SlotVersioning.Proofs.Course.Stuck
import SlotVersioning.Proofs.Landing.Entering
import SlotVersioning.Proofs.Slots.Runs

/-!
# What runs are refused for

Once a body is valid and its handlers are known, nothing that a run needs is missing, and the first
pass goes through all expressions. So it fails at the first offender that is met, in the order of the
nodes and of evaluation, and a run over a body without offenders succeeds or runs out of passes
(`Versioner.verdict_of_run`).
-/

namespace SlotVersioning

open Std

/-! ## States that nothing is missing from -/

theorem SlotView.Agrees.founded_right {view : SlotView} {left right : RunState}
    (agrees : view.Agrees left right) : right.Founded view.config where
  ready := agrees.rightReady
  sound := by
    intro graph stored
    rcases agrees.symm.graphs stored with ⟨_, -, graphs⟩
    exact graphs.leftSound

/-- A view that nothing of the visited slot shows in. -/
def SlotView.beside (config : Config) (slot : Slot) : SlotView where
  config := config
  slot := if slot = 0 then 1 else 0
  ordinary := by
    split
    · exact Int.zero_le_ofNat 1
    · exact Int.le_refl 0
  sites := fun _ => False

private theorem SlotView.beside_ne (config : Config) (slot : Slot) :
    slot ≠ (SlotView.beside config slot).slot := by
  change slot ≠ if slot = 0 then 1 else 0
  split
  · next zero =>
      rw [zero]
      decide
  · next other => exact other

theorem RunState.Founded.beside {config : Config} {before after : RunState}
    (founded : before.Founded config) (beside : Beside before after) : after.Founded config :=
  have agrees : (SlotView.beside config 0).Agrees before before := .of_founded founded
  (agrees.beside beside).founded_right

namespace RunM

variable {α β : Type}

/-- Nothing that a visit needs is missing from a founded state. -/
private theorem act_founded {site : Site} {state : RunState} (founded : state.Founded site.config)
    (place : Visit) (facts : Facts) :
    Reaches (place.act site facts) state fun _ final => final.Founded site.config := by
  have apart (slot : Slot) (other : ∀ target, place.site? = some target → target.slot = slot) :
      Reaches (place.act site facts) state fun _ final => final.Founded site.config := by
    have agrees : (SlotView.beside site.config slot).Agrees state state := .of_founded founded
    have away : place.Away (.beside site.config slot) := by
      intro target visits
      rw [other target visits]
      exact ⟨SlotView.beside_ne site.config slot, not_false⟩
    exact (act_unseen ⟨rfl, agrees⟩ away rfl).imp fun _ _ met => met.agrees.founded_right
  cases visits : place.site? with
  | none => exact apart 0 fun target found => nomatch visits.symm.trans found
  | some target =>
      refine apart target.slot fun other found => ?_
      rw [visits] at found
      cases found
      rfl

/-! ## Conclusions -/

/-- The action fails with the fault, or without one it succeeds and keeps what is assumed. -/
def Concludes (holds : RunState → Prop) (fault? : Option Fault) (action : RunM α)
    (state : RunState) : Prop :=
  match fault? with
  | none => Reaches action state fun _ final => holds final
  | some fault => ∃ final, action state = .error fault final

namespace Concludes

variable {holds : RunState → Prop} {first later : Option Fault} {action : RunM α}
  {next : α → RunM β} {state : RunState}

theorem bind (begun : Concludes holds first action state)
    (rest : ∀ value middle, holds middle → Concludes holds later (next value) middle) :
    Concludes holds (first.or later) (action >>= next) state := by
  cases first with
  | some fault =>
      rcases begun with ⟨final, failed⟩
      exact ⟨final, bind_error failed⟩
  | none =>
      rcases begun with ⟨value, middle, succeeded, kept⟩
      have ends := rest value middle kept
      cases later with
      | some fault =>
          rcases ends with ⟨final, failed⟩
          exact ⟨final, (bind_eq succeeded).trans failed⟩
      | none =>
          rcases ends with ⟨result, final, ended, kept⟩
          exact ⟨result, final, (bind_eq succeeded).trans ended, kept⟩

/-- A step that cannot fail decides nothing. -/
theorem after {between : α → RunState → Prop} (begun : Reaches action state between)
    (rest : ∀ value middle, between value middle → Concludes holds later (next value) middle) :
    Concludes holds later (action >>= next) state := by
  rcases begun with ⟨value, middle, succeeded, so⟩
  have ends := rest value middle so
  cases later with
  | some fault =>
      rcases ends with ⟨final, failed⟩
      exact ⟨final, (bind_eq succeeded).trans failed⟩
  | none =>
      rcases ends with ⟨result, final, ended, kept⟩
      exact ⟨result, final, (bind_eq succeeded).trans ended, kept⟩

theorem before (begun : Concludes holds first action state)
    (rest : ∀ value middle, holds middle →
      Reaches (next value) middle fun _ final => holds final) :
    Concludes holds first (action >>= next) state := by
  have whole : Concludes holds (first.or none) (action >>= next) state := begun.bind rest
  rw [Option.or_none] at whole
  exact whole

theorem foldlM (list : List α) {step : β → α → RunM β} {fault? : α → Option Fault}
    (each : ∀ entry ∈ list, ∀ value state, holds state →
      Concludes holds (fault? entry) (step value entry) state) (start : β)
    (begun : holds state) :
    Concludes holds (list.findSome? fault?) (list.foldlM step start) state := by
  induction list generalizing start state with
  | nil => exact ⟨start, state, rfl, begun⟩
  | cons head tail induction =>
      rw [List.forall_mem_cons] at each
      rw [findSome?_cons_or, List.foldlM_cons]
      exact (each.1 start state begun).bind fun next _ kept => induction each.2 next kept

end Concludes

/-! ## Passes -/

/-- A course fails where it is stuck first, and nowhere else. -/
private theorem run_concludes {site : Site} (course : Course) (facts : Facts) {state : RunState}
    (founded : state.Founded site.config) :
    Concludes (RunState.Founded site.config) course.stuck? (course.run site facts) state := by
  induction course generalizing facts state with
  | free => exact .pure founded
  | settled outcome => cases outcome <;> exact Reaches.pure founded
  | stuck fault => exact ⟨state, rfl⟩
  | visit place => exact (act_founded founded place facts).bind fun _ _ kept => .pure kept
  | chain first rest firstInduction restInduction =>
      exact (firstInduction facts founded).bind fun _ _ kept => restInduction _ kept
  | test condition onTrue onFalse conditionInduction trueInduction falseInduction =>
      refine (conditionInduction facts founded).bind fun _ _ kept => ?_
      refine (trueInduction _ kept).bind fun _ _ kept => ?_
      exact (falseInduction _ kept).before fun _ _ kept => .pure kept

section

variable {context : Context} {state : RunState} {live : Bool} {dirty : DirtyNodes}
  (noShortPaths : ∀ exit, context.graph.shortPaths? exit = none)
  (founded : state.Founded context.config)

include noShortPaths founded

private theorem visit_concludes (node : FlowNode) (name : NodeId) :
    Concludes (RunState.Founded context.config) (context.body.nodeCourse node).stuck?
      (visit context live dirty (node, name)) state := by
  rw [visit_course]
  refine .after (arrive_reaches noShortPaths name state) ?_
  rintro facts _ ⟨rfl, -⟩
  have entered : (entered state name facts).Founded context.config :=
    founded.beside (.of_stores _ _ _ _ _)
  refine (@run_concludes (context.site node.statement live) _ facts _ entered).before
    fun outcome middle kept => ?_
  refine (leave_reaches _ middle).bind fun changed final departs => ?_
  have left := RunState.Founded.beside kept departs.beside
  split
  · exact .pure left
  · exact .pure left

/-- The fault of the first offender that a pass over the nodes meets. -/
theorem pass_concludes :
    Concludes (RunState.Founded context.config)
      (context.body.roots.findSome? fun root => (context.body.arena.term root).course.stuck?)
      (pass context live dirty) state := by
  have listed : (context.body.roots.findSome? fun root =>
      (context.body.arena.term root).course.stuck?) =
      context.graph.nodes.toList.zipIdx.findSome? fun entry =>
        (context.body.nodeCourse entry.1).stuck? := by
    unfold Body.roots
    rw [findSome?_flatMap]
    simp only [← Body.stuck?_nodeCourse]
    exact (congrArg _ (List.zipIdx_map_fst 0 _)).symm.trans List.findSome?_map
  rw [listed]
  exact .foldlM _ (fun entry _ dirty middle kept =>
    visit_concludes noShortPaths kept entry.1 entry.2) dirty founded

omit noShortPaths in
theorem countPass_founded :
    Reaches countPass state fun _ final => final.Founded context.config :=
  ⟨(), _, countPass_apply state,
    founded.beside (Aside.of_counted state (state.tables.passes + 1) state.events).toBeside⟩

theorem round_concludes :
    Concludes (RunState.Founded context.config)
      (context.body.roots.findSome? fun root => (context.body.arena.term root).course.stuck?)
      (round context dirty) state := by
  refine .after (countPass_founded founded) fun _ middle kept => ?_
  refine (pass_concludes noShortPaths kept).before fun left final kept => ?_
  refine .step (tables_apply _) (.step (report_apply _ _) (.pure ?_))
  exact kept.beside (Aside.of_counted final final.tables.passes (_ :: final.events)).toBeside

/-- The first round fails at the first offender. -/
private theorem settle_refused {offence : Fault}
    (stuck : (context.body.roots.findSome? fun root =>
      (context.body.arena.term root).course.stuck?) = some offence) (fuel : Nat) :
    ∃ final, settle context (fuel + 1) dirty state = .error offence final := by
  have first := @round_concludes context state dirty noShortPaths founded
  rw [stuck] at first
  rcases first with ⟨final, failed⟩
  rw [settle_succ]
  exact ⟨final, bind_error failed⟩

/-- Without offenders the loop ends, or it runs out of passes. -/
private theorem settle_ends
    (free : (context.body.roots.findSome? fun root =>
      (context.body.arena.term root).course.stuck?) = none) (fuel : Nat) :
    (Reaches (settle context fuel dirty) state fun _ final => final.Founded context.config) ∨
      ∃ passes final, settle context fuel dirty state = .error (.notConverged passes) final := by
  induction fuel generalizing dirty state with
  | zero => exact .inr ⟨state.tables.passes, state, rfl⟩
  | succ fuel induction =>
      have first := @round_concludes context state dirty noShortPaths founded
      rw [free] at first
      rcases first with ⟨left, middle, succeeded, kept⟩
      rw [settle_succ, Reaches, bind_eq succeeded]
      split
      · exact .inl ⟨(), middle, rfl, kept⟩
      · exact induction kept

private theorem liveRound_reaches
    (free : (context.body.roots.findSome? fun root =>
      (context.body.arena.term root).course.stuck?) = none) :
    Reaches (liveRound context) state fun _ _ => True := by
  refine .bind (countPass_founded founded) fun _ middle kept => ?_
  have passes := @pass_concludes context middle true ∅ noShortPaths kept
  rw [free] at passes
  refine .bind (.bind passes fun _ _ _ => .pure trivial) fun _ _ (_ : True) => ?_
  · refine .step (editGraph_apply _ _) (.step (tables_apply _) ?_)
    split
    · exact ⟨(), _, report_apply _ _, trivial⟩
    · exact .pure trivial

end

/-! ## Seeds -/

private theorem seedVersion_reaches (context : Context) (statement : StatementId) (facts : Facts)
    (slot : Slot) (state : RunState) :
    Reaches (seedVersion context statement facts slot) state fun _ _ => True :=
  .step (mint_apply _ _ _ _) (.step (editGraph_apply _ _) (.pure trivial))

end RunM

/-- Every handler has a variable, and a node where it starts. -/
def Body.HandlersKnown (body : Body) : Prop :=
  ∀ statement slots,
    ((body.statements.get? statement).bind fun stored => stored.kind.handlerSlots?) = some slots →
      ∀ position child, (body.statements.children statement)[position + 1]? = some child →
        ∃ slot node, body.Handles statement position slot node

namespace RunM

/-- Nothing that enters is missing. -/
theorem seeding_reaches (context : Context) (known : context.body.HandlersKnown) (entry : NodeId)
    {state : RunState} (founded : state.Founded context.config) :
    Reaches (seeding context entry) state fun _ final => final.Founded context.config := by
  have parameters (state : RunState) :
      Reaches (seedParameters context entry) state fun _ _ => True :=
    .bind (.foldlM _ (fun slot _ facts middle _ =>
      seedVersion_reaches context _ facts slot middle) ∅ trivial) fun _ middle _ =>
        ⟨(), _, editTables_apply _ _, trivial⟩
  have handlers (state : RunState) :
      Reaches (context.body.statements.preorder.forM (seedHandlers context)) state
        fun _ _ => True := by
    refine .forM _ (fun statement _ middle _ => ?_) trivial
    unfold seedHandlers
    dsimp only
    split
    · exact .pure trivial
    · next slots handles =>
        refine .forM _ (fun handler member middle _ => ?_) trivial
        rcases handler with ⟨child, position⟩
        have isChild := List.mem_zipIdx_iff_getElem?.1 member
        rw [List.getElem?_drop, Nat.add_comm] at isChild
        rcases known statement slots handles position child isChild with
          ⟨slot, node, ⟨_, same, hasSlot⟩, _, sameChild, starts⟩
        cases handles.symm.trans same
        cases isChild.symm.trans sameChild
        have starts : context.graph.statementStart? child = some node := starts
        unfold seedHandler
        dsimp only
        rw [hasSlot, starts]
        exact .bind (seedVersion_reaches context statement ∅ slot middle) fun _ last _ =>
          ⟨(), _, editTables_apply _ _, trivial⟩
  have succeeds : Reaches (seeding context entry) state fun _ _ => True :=
    .bind (parameters state) fun _ middle _ => handlers middle
  rcases succeeds with ⟨_, final, succeeded, -⟩
  exact ⟨(), final, succeeded, founded_seeding entry _ _ _ founded succeeded⟩

end RunM

/-! ## Whole runs -/

theorem Config.maxPasses_ne_zero {config : Config} (valid : config.validate = .ok ()) :
    config.maxPasses ≠ 0 := by
  intro zero
  have found : config.fault? ≠ none := by
    unfold fault?
    rw [if_pos zero]
    split
    · exact Option.some_ne_none _
    · split <;> exact Option.some_ne_none _
  unfold validate at valid
  split at valid
  · exact nomatch valid
  · next sound => exact found sound

namespace Versioner

variable {versioner : Versioner} {body : Body}

theorem outcome_eq (valid : body.validate = .ok ()) :
    (versioner.run body).outcome =
      match RunM.versionAll { config := versioner.config, body } (start versioner.config body) with
      | .ok () _ => .ok ()
      | .error fault _ => .error fault := by
  rw [run_of_valid valid]
  cases RunM.versionAll { config := versioner.config, body } (start versioner.config body) <;> rfl

section

variable (accepted : versioner.config.validate = .ok ()) (valid : body.validate = .ok ())
  (noShortPaths : ∀ exit, body.graph.shortPaths? exit = none) (known : body.HandlersKnown)

include accepted valid noShortPaths known

/-- A run fails at the first offender. -/
private theorem outcome_of_stuck {offence : Fault}
    (stuck : (body.roots.findSome? fun root => (body.arena.term root).course.stuck?) =
      some offence) : (versioner.run body).outcome = .error offence := by
  cases found : body.graph.entry with
  | none =>
      have empty : body.graph.nodes.toList = [] :=
        List.eq_nil_of_length_eq_zero (size_of_noEntry valid found)
      unfold Body.roots at stuck
      rw [empty] at stuck
      exact nomatch stuck
  | some entry =>
      have entered : (Context.mk versioner.config body).graph.entry = some entry := found
      rcases RunM.seeding_reaches ⟨versioner.config, body⟩ known entry
        (founded_start accepted body) with ⟨_, seeded, seeds, founded⟩
      rcases Nat.exists_eq_succ_of_ne_zero (Config.maxPasses_ne_zero accepted) with ⟨fuel, passes⟩
      rcases @RunM.settle_refused ⟨versioner.config, body⟩ seeded ∅ noShortPaths founded offence
        stuck fuel with ⟨final, refused⟩
      rw [← Nat.succ_eq_add_one, ← passes] at refused
      rw [outcome_eq valid, RunM.versionAll_seeding entered, RunM.bind_eq seeds,
        RunM.bind_error refused]

/-- A run without offenders succeeds or runs out of passes. -/
private theorem outcome_of_free
    (free : (body.roots.findSome? fun root => (body.arena.term root).course.stuck?) = none) :
    (versioner.run body).outcome = .ok () ∨
      ∃ passes, (versioner.run body).outcome = .error (.notConverged passes) := by
  cases found : body.graph.entry with
  | none =>
      rcases run_of_noEntry versioner valid found with ⟨final, -, -, result⟩
      rw [result]
      exact .inl rfl
  | some entry =>
      have entered : (Context.mk versioner.config body).graph.entry = some entry := found
      rcases RunM.seeding_reaches ⟨versioner.config, body⟩ known entry
        (founded_start accepted body) with ⟨_, seeded, seeds, founded⟩
      rw [outcome_eq valid, RunM.versionAll_seeding entered, RunM.bind_eq seeds]
      rcases @RunM.settle_ends ⟨versioner.config, body⟩ seeded ∅ noShortPaths founded free
        versioner.config.maxPasses with
        ⟨_, settled, settles, founded⟩ | ⟨passes, final, exhausted⟩
      · rw [RunM.bind_eq settles]
        left
        split
        · rfl
        · next fault final failed =>
          split at failed
          · rcases @RunM.liveRound_reaches ⟨versioner.config, body⟩ settled noShortPaths founded
              free with ⟨_, last, lived, -⟩
            exact nomatch lived.symm.trans failed
          · exact nomatch failed
      · rw [RunM.bind_error exhausted]
        exact .inr ⟨passes, rfl⟩

end

end Versioner

/-- What a run is refused for. -/
structure RunResult.Verdict (result : RunResult) (body : Body) : Prop where
  /-- A run is refused exactly if an offender can be reached. -/
  refused : (∃ fault, result.outcome = .error fault ∧
      (fault.kind = .unsupportedExpression ∨ fault.kind = .malformed)) ↔
    ∃ offender, body.Reached offender ∧ (body.arena.offence? offender).isSome
  /-- There is a first offender if there is any. -/
  first : ∀ offender, body.Reached offender → (body.arena.offence? offender).isSome →
    ∃ offender, body.Meets offender
  /-- The first offender is what the run is refused for. -/
  fault : ∀ offender, body.Meets offender →
    ∃ fault, body.arena.offence? offender = some fault ∧ result.outcome = .error fault
  /-- Compound assignments are unsupported, other offenders are malformed. -/
  kind : ∀ offender, body.Meets offender → ∀ fault, result.outcome = .error fault →
    fault.kind = if body.arena.isCompound offender then .unsupportedExpression else .malformed
  /-- Otherwise the run succeeds or runs out of passes. -/
  otherwise : (∀ offender, body.Reached offender → body.arena.offence? offender = none) →
    result.outcome = .ok () ∨ ∃ passes, result.outcome = .error (.notConverged passes)
  /-- A run never finds fault with its configuration. -/
  configured : ∀ fault, result.outcome = .error fault → fault.kind ≠ .invalidConfig

namespace RunResult.Verdict

variable {result : RunResult} {body : Body}

/-- The verdict where no offender can be reached. -/
private theorem of_sound (sound : ∀ root ∈ body.roots, body.arena.Sound root)
    (ends : result.outcome = .ok () ∨ ∃ passes, result.outcome = .error (.notConverged passes)) :
    result.Verdict body := by
  have clean (offender : ExprId) (reached : body.Reached offender) :
      body.arena.offence? offender = none := by
    rcases reached with ⟨root, listed, below⟩
    exact sound root listed offender below
  have none (offender : ExprId) (meets : body.Meets offender) : False := by
    rcases meets with ⟨before, root, after, split, -, meets⟩
    refine meets.not_sound (sound root ?_)
    rw [split]
    exact List.mem_append_right _ List.mem_cons_self
  have exhausted (fault : Fault) (failed : result.outcome = .error fault) :
      fault.kind = .notConverged := by
    rcases ends with succeeded | ⟨passes, ranOut⟩
    · rw [succeeded] at failed
      exact nomatch failed
    · rw [ranOut] at failed
      cases failed
      rfl
  refine ⟨⟨?_, ?_⟩, fun offender reached offends => ?_, fun offender meets => (none _ meets).elim,
    fun offender meets => (none _ meets).elim, fun _ => ends, fun fault failed => ?_⟩
  · rintro ⟨fault, failed, kinds⟩
    rw [exhausted fault failed] at kinds
    exact absurd kinds (by decide)
  · rintro ⟨offender, reached, offends⟩
    rw [clean offender reached] at offends
    exact nomatch offends
  · rw [clean offender reached] at offends
    exact nomatch offends
  · rw [exhausted fault failed]
    exact nofun

/-- The verdict where a first offender is met. -/
private theorem of_meets {offender : ExprId} {offence : Fault} (meets : body.Meets offender)
    (offends : body.arena.offence? offender = some offence)
    (fails : result.outcome = .error offence) : result.Verdict body := by
  have reached : body.Reached offender := meets.reached
  have kinds := Arena.kind_of_offence offends
  refine ⟨⟨fun _ => ⟨offender, reached, by rw [offends]; rfl⟩, fun _ => ⟨offence, fails, ?_⟩⟩,
    fun _ _ _ => ⟨offender, meets⟩, fun other first => ?_, fun other first fault failed => ?_,
    fun clean => ?_, fun fault failed => ?_⟩
  · rw [kinds]
    split
    · exact .inl rfl
    · exact .inr rfl
  · rw [first.only meets]
    exact ⟨offence, offends, fails⟩
  · rw [fails] at failed
    cases failed
    rw [first.only meets]
    exact kinds
  · rw [clean offender reached] at offends
    exact nomatch offends
  · rw [fails] at failed
    cases failed
    rw [kinds]
    split <;> exact nofun

end RunResult.Verdict

/-- A `try` with an expression in which a type test binds a literal before a compound assignment, at
which its handlers start. -/
def Body.refusing : Body where
  arena.exprs := #[.variable { slot := 0 }, .literal .null, .typeTest 0 (some 1),
    .variable { slot := 0 }, .literal .null, .assignment 3 4 (some .add), .operation .add [2, 5]]
  statements := Body.catching.statements
  graph.nodes := #[
    { kind := .try, statement := 2, expressions := [0], predecessors := [], successors := [1] },
    { kind := .direct, statement := 3, expressions := [6], predecessors := [0], successors := [] }]
  graph.entry := some 0
  graph.statementStarts := Body.catching.graph.statementStarts
  signature.isStatic := true

private theorem Body.handlersKnown_refusing : Body.refusing.HandlersKnown := by
  intro statement slots handles position child isChild
  have only : statement = 1 := by
    have each : ∀ other < 5, ((refusing.statements.get? other).bind
        fun stored => stored.kind.handlerSlots?).isSome → other = 1 := by decide
    rcases Option.bind_eq_some_iff.1 handles with ⟨stored, found, -⟩
    exact each statement (Array.getElem?_eq_some_iff.1 found).1 (by rw [handles]; rfl)
  subst only
  match position with
  | 0 => exact ⟨1, 1, ⟨[1, 2], rfl, rfl⟩, 3, rfl, by decide⟩
  | 1 => exact ⟨2, 1, ⟨[1, 2], rfl, rfl⟩, 4, rfl, by decide⟩
  | position + 2 => exact nomatch isChild

private theorem Body.acyclic_refusing : Body.refusing.arena.Acyclic :=
  Arena.acyclic_of_all (by decide)

private theorem Body.meets_refusing : Body.refusing.Meets 2 := by
  have sound : refusing.arena.Sound 0 := Arena.sound_of_site? rfl
  have meets : refusing.arena.Meets 2 2 :=
    .self (show _ = some (Fault.notVariable 1) from rfl) (List.forall_mem_singleton.2 sound)
  have first : refusing.arena.evaluated 6 = [] ++ 2 :: [5] := rfl
  exact ⟨[0], 6, [], rfl, List.forall_mem_singleton.2 sound,
    .operand first (fun _ member => nomatch member) meets⟩

namespace Versioner

/-- A run of a valid body with known handlers is refused for the first offender, or else not at
all. -/
theorem verdict_of_run {versioner : Versioner} {body : Body}
    (accepted : versioner.config.validate = .ok ()) (valid : body.validate = .ok ())
    (acyclic : body.arena.Acyclic) (noShortPaths : ∀ exit, body.graph.shortPaths? exit = none)
    (known : body.HandlersKnown) : (versioner.run body).Verdict body := by
  rcases body.sound_or_meets acyclic with ⟨sound, free⟩ | ⟨offender, meets, stuck⟩
  · exact .of_sound sound (outcome_of_free accepted valid noShortPaths known free)
  · rcases meets.offends with ⟨offence, offends⟩
    rw [offends] at stuck
    exact .of_meets meets offends (outcome_of_stuck accepted valid noShortPaths known stuck)

/-- The type test is met first, though the compound assignment offends as well. -/
theorem verdict_refusing :
    (Config.plain.versioner.run .refusing).Verdict .refusing ∧
      (Config.plain.versioner.run .refusing).outcome = .error (.notVariable 1) := by
  have verdict : (Config.plain.versioner.run .refusing).Verdict .refusing :=
    verdict_of_run rfl (by decide) Body.acyclic_refusing
      (fun _ => ExtTreeMap.getElem?_empty) Body.handlersKnown_refusing
  rcases verdict.fault 2 Body.meets_refusing with ⟨fault, offends, fails⟩
  cases offends
  exact ⟨verdict, fails⟩

end Versioner

end SlotVersioning
