import SlotVersioning.Proofs.Pass.Balanced
import SlotVersioning.Proofs.Pass.Limits
import SlotVersioning.Proofs.Rest.Courses
import SlotVersioning.Proofs.Trace.Usage

/-!
# Passes at rest

While a run goes on, what was visited stays at rest with what is stored before it, and a node that is
not dirty would have the same arrive again (`Resting`). So when no node is dirty, another pass finds
every node as its last visit left it, although that visit was in the middle of a pass: the pass
changes nothing but live facts, and no node becomes dirty (`Versioner.next_pass_idle`).
-/

namespace SlotVersioning

open Std VersionGraph Course

theorem Beside.undisturbed {place : Visit} {config : Config} {before after : RunState}
    (beside : Beside before after) : place.Undisturbed config before after :=
  .of_books beside.versions beside.phi ⟨beside.phantoms, beside.fields, beside.copies⟩
    beside.graph config place

namespace RunM

/-- What was visited rests, what is stored after it follows from what is stored before it, and just
that arrives at a node that is not dirty. -/
structure Resting (context : Context) (dirty : DirtyNodes) (state : RunState) : Prop
    extends Settling context dirty state where
  balanced : Balanced context state
  kept : Kept context (Composed context.body context.config) RunState.Admitted Versioned 0 state
  opened : state.tables.fields.isSome = context.config.has .fieldVersions
  rests : ∀ name facts, state.tables.inFacts[name]? = some facts →
    (context.body.course name).Rests context.config state facts
  arrives : ∀ name facts, state.tables.inFacts[name]? = some facts → name ∉ dirty →
    ∀ slot, state.tables.Joins context.graph name slot (facts.reaching slot)

variable {context : Context} {live : Bool} {node : FlowNode} {name : NodeId} {facts : Facts}
  {log : List (Visit × Facts)} {outcome : OutcomeFacts} {changed : Bool}
  {dirty dirtyAfter : DirtyNodes} {before middle after state final : RunState}

/-! ## While a run goes on -/

namespace Visited

variable (visited : Visited context live node name facts log outcome changed before middle after)

include visited

/-- What enters a node is admitted, because all that is stored is. -/
private theorem admitted (storing : before.Storing before.Admitted) : before.Admitted facts := by
  intro slot ordinary version member
  rcases (visited.joins slot version).1 member with ⟨source, -, brings⟩ | enters
  · rcases Tables.mem_brought.1 brings with ⟨edge, stored, reaches⟩
    exact storing.edgeFacts context.graph source name edge stored slot ordinary version reaches
  · rcases Tables.mem_seeded.1 enters with ⟨seeds, stored, reaches⟩
    exact storing.seeds name seeds stored slot ordinary version reaches

/-- The course of a visited node is run from a state that is ready for it. -/
private theorem primed (regular : context.body.Regular) (resting : Resting context dirty before) :
    Primed context.body context.config name [] (context.body.course name).visits facts
      (entered before name facts) := by
  have upholds := upholds_composed context.config regular.usedOnce regular.ordinary
  have enters : Beside before (entered before name facts) := .of_stores before _ _ _ before.events
  have begun := upholds.beside enters resting.kept.holds
  refine ⟨begun.1, begun.2.good _ (visited.admitted resting.kept.storing), fun _ member => member,
    resting.opened, context.body.prepared_course name [], ?_, fun _ seen => nomatch seen⟩
  exact regular.unshared.nodup_sites name

theorem keepsBooks : KeepsBooks before middle := by
  have enters : KeepsBooks before (entered before name facts) := .of_books ⟨rfl, rfl, rfl⟩
  exact enters.trans (Course.run_keepsBooks visited.run)

/-- A visited node rests, and the other nodes go on resting. -/
private theorem rests_after (regular : context.body.Regular)
    (found : context.graph.node? name = some node) (resting : Resting context dirty before)
    (other : NodeId) (stored : Facts) (entering : after.tables.inFacts[other]? = some stored) :
    (context.body.course other).Rests context.config after stored := by
  have primed := visited.primed regular resting
  have enters : Beside before (entered before name facts) := .of_stores before _ _ _ before.events
  have opened (recorded : middle.tables.fields.isSome) :
      context.config.has .fieldVersions = true :=
    resting.opened.symm.trans (visited.keepsBooks.fields.symm.trans recorded)
  refine visited.forall_stored
    (motive := fun other stored => (context.body.course other).Rests context.config after stored)
    ?_ ?_ other stored entering
  · have rested := Course.run_rests regular.usedOnce regular.ordinary ⟨node, found, rfl⟩
      primed visited.run
    exact (rested.rests.undisturbed (fun _ _ => visited.left.beside.undisturbed) opened).1
  · intro other stored different entering
    have rests := resting.rests other stored entering
    refine (rests.undisturbed (fun place member => ?_) fun recorded =>
      resting.opened.symm.trans recorded).1
    have elsewhere (expression : ExprId) (touches : expression ∈ place.touched) :
        expression ∉ (context.body.course name).sites :=
      regular.unshared.sites_apart different expression
        ((context.body.prepared_course other []).touched_written member expression touches)
    have ran := Course.run_undisturbed regular.usedOnce regular.ordinary ⟨node, found, rfl⟩
      (fun _ inside => inside) primed.composed primed.admitted visited.run member
      (rests.versioned member) elsewhere
    exact (enters.undisturbed.trans ran).trans visited.left.beside.undisturbed

private theorem arrives_after (regular : context.body.Regular)
    (found : context.graph.node? name = some node) (resting : Resting context dirty before)
    (other : NodeId) (stored : Facts) (entering : after.tables.inFacts[other]? = some stored)
    (clean : other ∉ dirtied node name changed dirty) (slot : Slot) :
    after.tables.Joins context.graph other slot (stored.reaching slot) := by
  refine visited.forall_stored
    (motive := fun other stored => other ∉ dirtied node name changed dirty →
      after.tables.Joins context.graph other slot (stored.reaching slot))
    ?_ ?_ other stored entering clean
  · exact fun clean =>
      visited.joins_same (unchanged_of_clean regular.built.linked found clean) (visited.joins slot)
  · intro other stored different entering clean
    have outside := (mem_dirtied clean).1.resolve_left different
    exact visited.joins_same (unchanged_of_clean regular.built.linked found clean)
      (resting.arrives other stored entering outside slot)

end Visited

/-- A visit of a node leaves it at rest, and the others too. -/
theorem Resting.visit (resting : Resting context dirty before) (regular : context.body.Regular)
    (found : context.graph.node? name = some node)
    (run : RunM.visit context live dirty (node, name) before = .ok dirtyAfter after) :
    Resting context dirtyAfter after := by
  have upholds := upholds_composed context.config regular.usedOnce regular.ordinary
  have kept := (upholds.visit resting.kept found run).1
  rcases visit_ok regular.unshared resting.fields found run with
    ⟨facts, log, outcome, changed, middle, visited, rfl⟩
  refine ⟨visited.settling regular.unshared found resting.toSettling,
    visited.balanced regular.unshared found resting.toSettling resting.balanced, kept, ?_,
    visited.rests_after regular found resting, visited.arrives_after regular found resting⟩
  rw [visited.left.beside.fields]
  exact visited.keepsBooks.fields.trans resting.opened

/-- What is counted and reported leaves everything at rest. -/
theorem Resting.aside (resting : Resting context dirty before) (regular : context.body.Regular)
    (aside : Aside before after) : Resting context dirty after := by
  have upholds := upholds_composed context.config regular.usedOnce regular.ordinary
  refine ⟨resting.toSettling.aside aside, resting.balanced.aside aside,
    upholds.aside resting.kept aside, ?_, fun name facts entering => ?_,
    fun name facts entering clean slot => ?_⟩
  · rw [aside.fields]
    exact resting.opened
  · rw [aside.inFacts] at entering
    exact ((resting.rests name facts entering).undisturbed
      (fun _ _ => aside.toBeside.undisturbed) fun recorded =>
        resting.opened.symm.trans recorded).1
  · rw [aside.inFacts] at entering
    rw [aside.joins]
    exact resting.arrives name facts entering clean slot

theorem resting_of_rounds (regular : context.body.Regular) {start : RunState} {count : Nat}
    (resting : Resting context ∅ start) (rounds : Rounds context start count dirty state) :
    Resting context dirty state := by
  induction rounds with
  | none => exact resting
  | more earlier unsettled last induction =>
      rcases round_ok last with ⟨begun, done, counted, passes, reported⟩
      refine Resting.aside ?_ regular reported
      exact pass_induction (motive := fun _ dirty state => Resting context dirty state)
        (fun name node dirty dirtyAfter before after found resting run =>
          resting.visit regular found run) passes (induction.aside regular counted)

/-- Before the first round nothing was visited. -/
theorem resting_seeded {config : Config} {body : Body} {entry : NodeId} {seeded : RunState}
    (valid : config.validate = .ok ()) (isEntry : body.graph.entry = some entry)
    (seeds : seeding { config, body } entry (Versioner.start config body) = .ok () seeded) :
    Resting { config, body } ∅ seeded := by
  have begins : Versioner.Begins config body seeded := .seeded isEntry seeds
  have unvisited := unvisited_seeded seeds
  have kept : Kept { config, body } (Accounts body config) RunState.Admitted Versioned 0 seeded :=
    begins.entering.kept
  refine ⟨unvisited.settling, balanced_seeded seeds, ⟨⟨kept.holds, fun usage =>
    begins.shaped valid usage _⟩, kept.storing, kept.visited⟩, ?_,
    fun _ _ entering => (unvisited.not_entering entering).elim,
    fun _ _ entering => (unvisited.not_entering entering).elim⟩
  rw [names_seeding _ entry _ _ _ rfl seeds]
  unfold Versioner.start Tables.fresh Tables.renew
  cases versioned : config.has .fieldVersions <;> rfl

/-! ## At rest -/

/-- What is stored arrives again. -/
private theorem arrive_same (noPaths : ∀ exit, context.graph.shortPaths? exit = none)
    (stored : state.tables.inFacts[name]? = some facts)
    (joins : ∀ slot, state.tables.Joins context.graph name slot (facts.reaching slot)) :
    arrive context name state = .ok facts state := by
  unfold arrive
  rw [bind_eq (tables_apply _), Tables.foldlM_arriving _ _ _ noPaths]
  generalize collected : (context.graph.predecessors name).foldl
    (fun facts source => facts ∪ (state.tables.edgeFacts? context.graph source name).getD ∅) ∅ =
      arrived
  have same : arrived ∪ (state.tables.seeds[name]?).getD ∅ = facts := by
    refine Facts.ext fun slot => VersionSet.ext fun version => ?_
    rw [joins slot version, Facts.reaching_union, VersionSet.mem_union, ← collected,
      Tables.mem_foldl_union, Facts.reaching_empty]
    simp only [VersionSet.not_mem_empty, false_or]
    rfl
  change EStateM.Result.ok _ { state with tables := { state.tables with
    inFacts := state.tables.inFacts.insert name _ } } = _
  rw [same, insert_stored stored]

/-- What is stored leaves again. -/
private theorem leave_same (out : state.tables.outFacts[name]? = some outcome.ifTrue)
    (negative : ∀ facts, state.tables.negativeFacts[name]? = some facts → facts = outcome.ifFalse) :
    leave context name outcome state = .ok false state := by
  have same : differs state.tables name outcome = false := by
    unfold differs
    rw [out]
    cases found : state.tables.negativeFacts[name]? with
    | none => simp
    | some facts => simp [negative facts found]
  unfold leave
  rw [bind_eq (tables_apply _), same]
  rfl

/-- The evaluation of a node at rest is idle. -/
private theorem evaluateNode_idle
    (rests : (context.body.course name).Rests context.config state facts)
    (found : context.graph.node? name = some node) (shaped : state.ShapedFor context.config)
    (opened : state.tables.fields.isSome → context.config.has .fieldVersions = true) (live : Bool) :
    ∃ outcome final,
      evaluateNode context (context.site node.statement live) node facts state =
        .ok outcome final ∧
      ((leaving context node outcome).ifTrue, (leaving context node outcome).ifFalse) =
        transferred context state name facts ∧ Idle live state final := by
  have idly : ∃ final,
      (context.body.course name).run (context.site node.statement live) facts state =
        .ok ((context.body.course name).transfer context.config state facts) final ∧
      Idle live state final := Course.run_idle rests shaped opened
  rcases idly with ⟨final, course, idle⟩
  rw [Body.course_of_node found, ← evaluateNode_branches, map_eq_pure_bind] at course
  rcases bind_ok course with ⟨outcome, last, evaluates, branches⟩
  rcases pure_ok branches with ⟨carried, rfl⟩
  have carried : (context.body.course name).transfer context.config state facts =
      outcome.branches := by
    rw [Body.course_of_node found]
    exact carried
  have departs := leaving_departing found outcome
  refine ⟨outcome, final, evaluates, ?_, idle⟩
  unfold transferred
  rw [departs.1, departs.2, carried]
  rfl

/-- What is stored before a node at rest leaves it as what is stored after it. -/
theorem Resting.departs_idle (resting : Resting context dirty state)
    (found : context.graph.node? name = some node)
    (stored : state.tables.inFacts[name]? = some facts) (live : Bool) :
    ∃ outcome final,
      evaluateNode context (context.site node.statement live) node facts state =
        .ok outcome final ∧
      leave context name (leaving context node outcome) final = .ok false final ∧
      Idle live state final := by
  rcases evaluateNode_idle (resting.rests name facts stored) found resting.kept.holds.shapedFor
    (fun recorded => resting.opened.symm.trans recorded) live with
    ⟨outcome, final, evaluates, transfers, idle⟩
  have still : KeepsAt (context.body.course name).sites state state := ⟨.refl _, fun _ _ => rfl⟩
  refine ⟨outcome, final, evaluates, leave_same ?_ ?_, idle⟩
  · rw [idle.same Tables.outFacts fun _ => rfl,
      resting.balanced.onTrue name facts stored state still, ← transfers]
  · intro negative present
    rw [idle.same Tables.negativeFacts fun _ => rfl] at present
    cases branch : context.graph.negativeBranch? name with
    | none =>
        rw [resting.balanced.noBranch name branch] at present
        exact nomatch present
    | some target =>
        rw [resting.balanced.onFalse name facts stored (branch ▸ rfl) state still,
          ← transfers] at present
        exact (Option.some.inj present).symm

namespace Resting

variable (resting : Resting context ∅ state) (regular : context.body.Regular)

include resting regular

/-- A visit of a node that was visited is idle when no node is dirty. -/
private theorem visit_idle (found : context.graph.node? name = some node)
    (stored : state.tables.inFacts[name]? = some facts) (live : Bool) :
    ∃ final, RunM.visit context live ∅ (node, name) state = .ok ∅ final ∧
      Idle live state final := by
  have arrives := arrive_same regular.noShortPaths stored
    (resting.arrives name facts stored ExtTreeSet.not_mem_empty)
  rcases resting.departs_idle found stored live with
    ⟨outcome, final, evaluates, unchanged, idle⟩
  refine ⟨final, ?_, idle⟩
  unfold RunM.visit
  dsimp only
  rw [bind_eq arrives, bind_eq evaluates, bind_eq unchanged]
  simp

variable (everywhere : ∀ name, name < context.graph.size →
  ∃ facts, state.tables.inFacts[name]? = some facts)

include everywhere

private theorem visits_idle (entries : List (FlowNode × NodeId))
    (inside : ∀ entry ∈ entries, context.graph.node? entry.2 = some entry.1) (live : Bool) :
    ∃ final, entries.foldlM (RunM.visit context live) ∅ state = .ok ∅ final ∧
      Idle live state final := by
  induction entries generalizing state with
  | nil => exact ⟨state, rfl, .refl _ _⟩
  | cons entry entries induction =>
      rw [List.forall_mem_cons] at inside
      rcases everywhere entry.2 (lt_size_of_node? inside.1) with ⟨facts, stored⟩
      rcases resting.visit_idle regular inside.1 stored live with ⟨middle, visits, idle⟩
      have sameInFacts := idle.same Tables.inFacts fun _ => rfl
      rcases induction (resting.visit regular inside.1 visits) (by rw [sameInFacts]; exact everywhere)
        inside.2 with ⟨final, passes, later⟩
      exact ⟨final, (bind_eq visits).trans passes, idle.trans later⟩

/-- A pass is idle when all nodes were visited and none is dirty. -/
theorem pass_idle (live : Bool) :
    ∃ final, pass context live ∅ state = .ok ∅ final ∧ Idle live state final := by
  refine resting.visits_idle regular everywhere _ (fun entry member => ?_) live
  rcases List.mem_zipIdx' member with ⟨known, same⟩
  unfold FlowGraph.node?
  rw [← Array.getElem?_toList, List.getElem?_eq_getElem known, same]

/-- A live round leaves everything at rest when all nodes were visited and none is dirty. -/
private theorem liveRound (run : RunM.liveRound context state = .ok () final) :
    Resting context ∅ final ∧ ∀ name, name < context.graph.size →
      ∃ facts, final.tables.inFacts[name]? = some facts := by
  rcases liveRound_ok run with ⟨begun, done, dirtyAfter, counted, passes, reported⟩
  have begins := resting.aside regular counted
  have known : ∀ name, name < context.graph.size →
      ∃ facts, begun.tables.inFacts[name]? = some facts := by
    rw [counted.inFacts]
    exact everywhere
  rcases begins.pass_idle regular known true with ⟨rested, idles, idle⟩
  rw [passes] at idles
  cases idles
  have passed : Resting context ∅ done := pass_induction
    (motive := fun _ dirty state => Resting context dirty state)
    (fun name node dirty dirtyAfter before after found resting run =>
      resting.visit regular found run) passes begins
  refine ⟨passed.aside regular reported, ?_⟩
  rw [reported.inFacts, idle.same Tables.inFacts fun _ => rfl]
  exact known

end Resting

end RunM

/-! ## Whole runs -/

namespace Versioner

variable {versioner : Versioner} {body : Body} {state : RunState}

/-- A successful run of a body with an entry ends at rest. -/
theorem resting_of_run (valid : versioner.config.validate = .ok ()) (regular : body.Regular)
    (success : (versioner.run body).outcome = .ok ()) {entry : NodeId}
    (found : body.graph.entry = some entry) :
    ∃ final, RunM.Resting { config := versioner.config, body } ∅ final ∧
      (∀ name, name < body.graph.size → ∃ facts, final.tables.inFacts[name]? = some facts) ∧
      versioner.run body = finish versioner.config body final (.ok ()) := by
  rcases parts_of_run success found with ⟨seeded, total, settled, final, parts⟩
  rcases parts.seeds with ⟨same, isEntry, seeds⟩
  have regularBody : (Context.mk versioner.config body).body.Regular := regular
  have resting := RunM.resting_of_rounds regularBody
    (RunM.resting_seeded valid isEntry seeds) parts.rounds
  have everywhere := (parts.everywhere regular.unshared).2
  cases round : versioner.config.has .liveRound with
  | true =>
      have lived := resting.liveRound regularBody everywhere (parts.live round)
      exact ⟨final, lived.1, lived.2, parts.result⟩
  | false =>
      obtain rfl : final = settled := parts.dead round
      exact ⟨final, resting, everywhere, parts.result⟩

/-- The pass loop of a run of this body stops in this state, because no node is dirty. -/
inductive StopsAt (versioner : Versioner) (body : Body) (state : RunState) : Prop
  | settled {entry : NodeId} {seeded : RunState} (valid : body.validate = .ok ())
      (isEntry : body.graph.entry = some entry)
      (seeds : RunM.seeding { config := versioner.config, body } entry
        (start versioner.config body) = .ok () seeded)
      (settles : RunM.settle { config := versioner.config, body } versioner.config.maxPasses ∅
        seeded = .ok () state)

private theorem Parts.stopsAt {seeded final : RunState} {total : Nat}
    (parts : Parts versioner body seeded total state final) : versioner.StopsAt body state := by
  rcases parts.seeds with ⟨entry, isEntry, seeds⟩
  refine .settled parts.valid isEntry seeds ?_
  rw [← Nat.add_sub_cancel' parts.few]
  exact RunM.settle_of_settled parts.rounds parts.positive _

/-- When the pass loop of a run stops, one more pass, with or without live facts, leaves no node
dirty and changes nothing, but for the live facts if it records them. -/
theorem next_pass_idle (valid : versioner.config.validate = .ok ()) (regular : body.Regular)
    (stops : versioner.StopsAt body state) (live : Bool) :
    ∃ final, RunM.pass { config := versioner.config, body } live ∅ state = .ok ∅ final ∧
      Idle live state final := by
  rcases stops with ⟨-, isEntry, seeds, settles⟩
  rcases RunM.settle_ok .none (fun positive => absurd rfl positive) settles with
    ⟨total, positive, -, rounds⟩
  have regularBody : (Context.mk versioner.config body).body.Regular := regular
  have resting := RunM.resting_of_rounds regularBody
    (RunM.resting_seeded valid isEntry seeds) rounds
  have everywhere := (RunM.settling_of_rounds regular.unshared (.trivial _)
    (RunM.unvisited_seeded seeds).settling trivial rounds).2.2 positive
  exact resting.pass_idle regularBody everywhere live

/-- The loop of `rereading` stops, and one more pass that records live facts is idle. -/
theorem next_pass_idle_rereading :
    ∃ state, Config.usage.versioner.StopsAt .rereading state ∧ ∃ final,
      RunM.pass { config := Config.usage.versioner.config, body := .rereading } true ∅ state =
        .ok ∅ final ∧ Idle true state final := by
  rcases parts_of_run success_rereading rfl with ⟨_, _, settled, _, parts⟩
  exact ⟨settled, parts.stopsAt,
    next_pass_idle (by decide) Body.regular_rereading parts.stopsAt true⟩

end Versioner

end SlotVersioning
