import SlotVersioning.Proofs.Facts.Order
import SlotVersioning.Proofs.Pass.Crossing
import SlotVersioning.Proofs.Pass.Rounds
import SlotVersioning.Proofs.Pass.Seeding

/-!
# What runs uphold

Runs of any body, with all copies of `finally` blocks, keep what their visits keep. What arrives at
a node is joined from stored facts, so what holds of all stored facts and passes to unions and to
smaller facts holds of what arrives (`exitFacts_good`). `Upholds` lists what visits have to keep;
passes carry it on then (`Upholds.carries`), and so does a whole run (`Versioner.upheld_of_run`).
-/

namespace SlotVersioning

open Std

/-- The node belongs to the statement. -/
def Body.Hosts (body : Body) (name : NodeId) (statement : StatementId) : Prop :=
  ∃ node, body.graph.node? name = some node ∧ node.statement = statement

/-- A property of facts that passes to unions and to smaller facts. -/
structure Facts.Closed (good : Facts → Prop) : Prop where
  empty : good ∅
  union : ∀ left right, good left → good right → good (left ∪ right)
  subset : ∀ fewer more, good more → fewer ⊆ more → good fewer

namespace Tables

variable {good : Facts → Prop} {tables : Tables} {graph : FlowGraph} {config : Config}

section

variable (closed : Facts.Closed good)
variable (edges : ∀ source target facts, tables.edgeFacts? graph source target = some facts →
  good facts)

include closed

private theorem passing_good {node : NodeId} {facts : Facts} (holds : good facts)
    (paths : PathFacts) : good (tables.passing node facts paths) := by
  refine closed.subset _ facts holds fun slot version member => ?_
  unfold passing at member
  rw [Facts.reaching_inter, VersionSet.mem_inter] at member
  exact member.1

include edges

/-- What comes over an edge from an exit is joined from stored facts. -/
theorem exitFacts_good {destination : NodeId} {depth : Nat} {node exit : NodeId} {facts : Facts}
    (run : tables.exitFacts graph config destination depth node exit = .ok facts) :
    good facts := by
  induction depth generalizing node exit facts with
  | zero => exact nomatch run
  | succ depth induction =>
      have edge : good ((tables.edgeFacts? graph exit node).getD ∅) := by
        cases stored : tables.edgeFacts? graph exit node with
        | none => exact closed.empty
        | some facts => exact edges exit node facts stored
      unfold exitFacts at run
      dsimp only at run
      split at run
      · cases run
        exact edge
      · split at run
        · cases run
          exact edge
        · rcases Fault.bind_ok run with ⟨collected, paths, run⟩
          have leading : good collected.leading := by
            refine Fault.foldlM_ok (motive := fun collected : PathFacts => good collected.leading) ?_
              closed.empty paths
            intro collected path next holds stepped
            have joined {brought : Facts} (joins : good brought)
                (stepped : (if leadsElsewhere graph exit node destination path then
                    { collected with elsewhere := collected.elsewhere ++ [brought] }
                  else { collected with leading := collected.leading ∪ brought }) = next) :
                good next.leading := by
              subst stepped
              split
              · exact holds
              · exact closed.union _ _ holds joins
            split at stepped
            · rcases Fault.bind_ok stepped with ⟨_, found, stepped⟩
              cases resolved : tables.exitFacts graph config destination depth path.entry
                  path.source with
              | error fault =>
                  rw [resolved] at found
                  exact nomatch found
              | ok brought =>
                  rw [resolved] at found
                  cases found
                  exact joined (induction resolved) (Except.ok.inj stepped)
            · cases stored : tables.edgeFacts? graph path.source path.entry with
              | none =>
                  rw [stored] at stepped
                  cases stepped
                  exact holds
              | some brought =>
                  rw [stored] at stepped
                  exact joined (edges _ _ brought stored) (Except.ok.inj stepped)
          split at run
          · cases run
            exact leading
          · cases run
            exact passing_good closed edge collected

end

end Tables

/-- All facts that are stored at nodes are good. -/
structure RunState.Storing (state : RunState) (good : Facts → Prop) : Prop where
  inFacts : ∀ (name : NodeId) (facts : Facts), state.tables.inFacts[name]? = some facts →
    good facts
  outFacts : ∀ (name : NodeId) (facts : Facts), state.tables.outFacts[name]? = some facts →
    good facts
  negativeFacts : ∀ (name : NodeId) (facts : Facts),
    state.tables.negativeFacts[name]? = some facts → good facts
  seeds : ∀ (name : NodeId) (facts : Facts), state.tables.seeds[name]? = some facts → good facts

namespace RunState.Storing

variable {state : RunState} {good better : Facts → Prop}

theorem imp (storing : state.Storing good) (implies : ∀ facts, good facts → better facts) :
    state.Storing better where
  inFacts := fun name facts stored => implies facts (storing.inFacts name facts stored)
  outFacts := fun name facts stored => implies facts (storing.outFacts name facts stored)
  negativeFacts := fun name facts stored => implies facts (storing.negativeFacts name facts stored)
  seeds := fun name facts stored => implies facts (storing.seeds name facts stored)

theorem of_stores {after : RunState} (storing : state.Storing good)
    (same : after.stores = state.stores) : after.Storing good where
  inFacts := by
    rw [show after.tables.inFacts = _ from congrArg Stores.inFacts same]
    exact storing.inFacts
  outFacts := by
    rw [show after.tables.outFacts = _ from congrArg Stores.outFacts same]
    exact storing.outFacts
  negativeFacts := by
    rw [show after.tables.negativeFacts = _ from congrArg Stores.negativeFacts same]
    exact storing.negativeFacts
  seeds := by
    rw [show after.tables.seeds = _ from congrArg Stores.seeds same]
    exact storing.seeds

theorem edgeFacts (storing : state.Storing good) (graph : FlowGraph) (source target : NodeId)
    (facts : Facts) (stored : state.tables.edgeFacts? graph source target = some facts) :
    good facts := by
  unfold Tables.edgeFacts? at stored
  split at stored
  · exact storing.negativeFacts source facts stored
  · exact storing.outFacts source facts stored

end RunState.Storing

namespace RunM

variable {context : Context} {name : NodeId} {node : FlowNode} {live : Bool}
  {before middle after : RunState}

theorem good_of_insert {good : Facts → Prop} {stored : ExtTreeMap NodeId Facts} {facts : Facts}
    (holds : good facts)
    (each : ∀ (other : NodeId) (facts : Facts), stored[other]? = some facts → good facts)
    (other : NodeId) (entry : Facts) (found : (stored.insert name facts)[other]? = some entry) :
    good entry := by
  rw [ExtTreeMap.getElem?_insert] at found
  split at found
  · cases found
    exact holds
  · exact each other entry found

/-- What arrives at a node is joined from stored facts, and is stored. -/
theorem arrive_good {good : Facts → Prop} (closed : Facts.Closed good)
    (storing : before.Storing good) {facts : Facts}
    (run : arrive context name before = .ok facts after) :
    after = entered before name facts ∧ good facts ∧ after.Storing good := by
  rcases arrive_parts run with ⟨joined, joining, rfl, rfl⟩
  have arrives : good (joined ∪ (before.tables.seeds[name]?).getD ∅) := by
    refine closed.union _ _ ?_ ?_
    · refine Fault.foldlM_ok (fun facts source next holds stepped => ?_) closed.empty
        joining
      rcases Fault.bind_ok stepped with ⟨brought, arrives, stepped⟩
      cases stepped
      exact closed.union _ _ holds
        (Tables.exitFacts_good closed (storing.edgeFacts context.graph) arrives)
    · cases seeded : before.tables.seeds[name]? with
      | none => exact closed.empty
      | some facts => exact storing.seeds name facts seeded
  exact ⟨rfl, arrives, good_of_insert arrives storing.inFacts, storing.outFacts,
    storing.negativeFacts, storing.seeds⟩

/-- What leaves a node is stored. -/
private theorem leave_good {good : Facts → Prop} (storing : before.Storing good)
    {outcome : OutcomeFacts} (onTrue : good outcome.ifTrue) (onFalse : good outcome.ifFalse)
    {changed : Bool} (run : leave context name outcome before = .ok changed after) :
    Beside before after ∧ after.Storing good := by
  unfold leave at run
  rw [bind_eq (tables_apply _)] at run
  split at run
  · rw [bind_eq (report_apply _ _), bind_eq (editTables_apply _ _)] at run
    rcases pure_ok run with ⟨-, rfl⟩
    refine ⟨.of_stores before before.tables.inFacts _ _ _, storing.inFacts,
      good_of_insert onTrue storing.outFacts, fun other entry found => ?_, storing.seeds⟩
    dsimp only at found
    split at found
    · exact good_of_insert onFalse storing.negativeFacts other entry found
    · exact storing.negativeFacts other entry found
  · rcases pure_ok run with ⟨-, rfl⟩
    exact ⟨.of_stores _ _ _ _ _, storing⟩

/-- A visit of a node is an arrival, a run of its course and a departure. -/
theorem visit_parts {dirty dirtyAfter : DirtyNodes}
    (found : context.graph.node? name = some node)
    (run : visit context live dirty (node, name) before = .ok dirtyAfter after) :
    ∃ facts enters outcome middle changed, arrive context name before = .ok facts enters ∧
      (context.body.course name).run (context.site node.statement live) facts enters =
        .ok outcome.branches middle ∧
      leave context name (leaving context node outcome) middle = .ok changed after := by
  rcases visit_steps run with
    ⟨facts, enters, outcome, middle, changed, arrival, evaluates, leaves, -⟩
  exact ⟨facts, enters, outcome, middle, changed, arrival,
    course_of_evaluateNode found evaluates, leaves⟩

/-! ## What passes carry on -/

/-- What passes carry on: `motive` of the state after a number of nodes. Another pass may start from
it, and it is left alone by what is counted and reported. -/
structure Carries (context : Context) (motive : Nat → RunState → Prop) : Prop where
  restart : ∀ (count : Nat) (state : RunState), motive count state → motive 0 state
  visit : ∀ {live : Bool} {node : FlowNode} {name : NodeId} {dirty dirtyAfter : DirtyNodes}
    {before after : RunState}, context.graph.node? name = some node → motive name before →
    RunM.visit context live dirty (node, name) before = .ok dirtyAfter after →
      motive (name + 1) after
  aside : ∀ (count : Nat) (before after : RunState), motive count before → Aside before after →
    motive count after

namespace Carries

variable {motive : Nat → RunState → Prop} (carries : Carries context motive)

include carries

theorem pass {dirty dirtyAfter : DirtyNodes} (begun : motive 0 before)
    (run : RunM.pass context live dirty before = .ok dirtyAfter after) :
    motive context.graph.size after :=
  pass_induction (motive := fun count _ state => motive count state)
    (fun _ _ _ _ _ _ found holds visits => carries.visit found holds visits) run begun

theorem rounds {count : Nat} {dirty : DirtyNodes} (positive : 0 < count) (begun : motive 0 before)
    (rounds : Rounds context before count dirty after) : motive context.graph.size after := by
  induction rounds with
  | none => exact absurd positive (Nat.lt_irrefl 0)
  | @more count _ _ middle _ earlier unsettled last induction =>
      rcases round_ok last with ⟨counted, done, aside, passes, reported⟩
      have start : motive 0 middle := by
        cases earlier with
        | none => exact begun
        | more => exact carries.restart _ _ (induction (Nat.succ_pos _))
      have passed := carries.pass (carries.aside _ _ _ start aside) passes
      exact carries.aside _ _ _ passed reported

theorem liveRound (begun : motive 0 before)
    (run : RunM.liveRound context before = .ok () after) : motive context.graph.size after := by
  rcases liveRound_ok run with ⟨counted, done, dirtyAfter, aside, passes, reported⟩
  have passed := carries.pass (carries.aside _ _ _ begun aside) passes
  exact carries.aside _ _ _ passed reported

theorem and {other : Nat → RunState → Prop} (others : Carries context other) :
    Carries context fun count state => motive count state ∧ other count state where
  restart := fun count state holds =>
    ⟨carries.restart count state holds.1, others.restart count state holds.2⟩
  visit := fun found holds run => ⟨carries.visit found holds.1 run, others.visit found holds.2 run⟩
  aside := fun count before after holds aside =>
    ⟨carries.aside count before after holds.1 aside, others.aside count before after holds.2 aside⟩

end Carries

/-! ## What visits keep -/

/-- What was good is good, and what was marked is marked. -/
structure Persists (good : RunState → Facts → Prop) (marked : RunState → Visit → Prop)
    (before after : RunState) : Prop where
  good : ∀ facts, good before facts → good after facts
  marked : ∀ place, marked before place → marked after place

namespace Persists

variable {good : RunState → Facts → Prop} {marked : RunState → Visit → Prop}

theorem refl (state : RunState) : Persists good marked state state :=
  ⟨fun _ holds => holds, fun _ holds => holds⟩

theorem trans (first : Persists good marked before middle)
    (second : Persists good marked middle after) : Persists good marked before after :=
  ⟨fun facts holds => second.good facts (first.good facts holds),
    fun place holds => second.marked place (first.marked place holds)⟩

end Persists

/-- What visits keep: `motive` of the state, `good` of the facts in it, and `marked` of the places
that were visited. -/
structure Upholds (context : Context) (motive : RunState → Prop) (good : RunState → Facts → Prop)
    (marked : RunState → Visit → Prop) : Prop where
  closed : ∀ state, Facts.Closed (good state)
  act : ∀ {live : Bool} {statement : StatementId} {name : NodeId} {place : Visit}
    {facts result : Facts} {before after : RunState}, context.body.Hosts name statement →
    place ∈ (context.body.course name).visits → motive before → good before facts →
    place.act (context.site statement live) facts before = .ok result after →
      motive after ∧ good after result ∧ marked after place ∧ Persists good marked before after
  beside : ∀ {before after : RunState}, Beside before after → motive before →
    motive after ∧ Persists good marked before after

/-- What the run of a course comes to. -/
structure Upheld (motive : RunState → Prop) (good : RunState → Facts → Prop)
    (marked : RunState → Visit → Prop) (visits : List Visit) (result : Facts × Facts)
    (before after : RunState) : Prop where
  holds : motive after
  onTrue : good after result.1
  onFalse : good after result.2
  persists : Persists good marked before after
  visited : ∀ place ∈ visits, marked after place

/-- The invariant of a pass of which some nodes are done. -/
structure Kept (context : Context) (motive : RunState → Prop) (good : RunState → Facts → Prop)
    (marked : RunState → Visit → Prop) (count : Nat) (state : RunState) : Prop where
  holds : motive state
  storing : state.Storing (good state)
  visited : ∀ name < count, ∀ place ∈ (context.body.course name).visits, marked state place

section

variable {motive : RunState → Prop} {good : RunState → Facts → Prop}
  {marked : RunState → Visit → Prop}

theorem Kept.restart {count : Nat} (kept : Kept context motive good marked count before) :
    Kept context motive good marked 0 before :=
  ⟨kept.holds, kept.storing, fun _ bound => absurd bound (Nat.not_lt_zero _)⟩

theorem Kept.imp {other : RunState → Prop} {count : Nat}
    (kept : Kept context motive good marked count before) (weaker : motive before → other before) :
    Kept context other good marked count before :=
  ⟨weaker kept.holds, kept.storing, kept.visited⟩

/-- Before the first round only what enters from outside is stored. -/
theorem Kept.of_unvisited (unvisited : Unvisited before) (holds : motive before)
    (seeds : ∀ (node : NodeId) (facts : Facts), before.tables.seeds[node]? = some facts →
      good before facts) : Kept context motive good marked 0 before := by
  refine ⟨holds, ⟨fun _ _ entering => absurd entering unvisited.not_entering, ?_, ?_, seeds⟩,
    fun _ bound => absurd bound (Nat.not_lt_zero _)⟩
  · exact fun name facts leaving => nomatch (unvisited.not_leaving name).1.symm.trans leaving
  · exact fun name facts leaving => nomatch (unvisited.not_leaving name).2.symm.trans leaving

namespace Upholds

variable (upholds : Upholds context motive good marked)

include upholds

theorem course {course : Course} {statement : StatementId} {facts : Facts}
    {result : Facts × Facts} (hosts : context.body.Hosts name statement)
    (inside : ∀ place ∈ course.visits, place ∈ (context.body.course name).visits)
    (holds : motive before) (enters : good before facts)
    (run : course.run (context.site statement live) facts before = .ok result after) :
    Upheld motive good marked course.visits result before after := by
  induction course generalizing facts result before after with
  | free =>
      rcases pure_ok run with ⟨rfl, rfl⟩
      exact ⟨holds, enters, enters, .refl _, fun _ member => nomatch member⟩
  | settled outcome =>
      have nothing := (upholds.closed before).empty
      cases outcome <;> obtain ⟨rfl, rfl⟩ := pure_ok run
      · exact ⟨holds, nothing, enters, .refl _, fun _ member => nomatch member⟩
      · exact ⟨holds, enters, nothing, .refl _, fun _ member => nomatch member⟩
  | stuck fault => exact nomatch run
  | visit place =>
      rcases Course.run_visit_ok run with ⟨carried, visited, rfl⟩
      have acts := upholds.act hosts (inside place List.mem_cons_self) holds enters visited
      exact ⟨acts.1, acts.2.1, acts.2.1, acts.2.2.2, List.forall_mem_singleton.2 acts.2.2.1⟩
  | chain first rest firstInduction restInduction =>
      rw [Course.visits, List.forall_mem_append] at inside
      rcases Course.run_chain_ok run with ⟨between, middle, firstRun, run⟩
      have before := firstInduction inside.1 holds enters firstRun
      have joined := (upholds.closed middle).union _ _ before.onTrue before.onFalse
      have after := restInduction inside.2 before.holds joined run
      refine ⟨after.holds, after.onTrue, after.onFalse, before.persists.trans after.persists, ?_⟩
      rw [Course.visits, List.forall_mem_append]
      exact ⟨fun place member => after.persists.marked place (before.visited place member),
        after.visited⟩
  | test condition onTrue onFalse conditionInduction trueInduction falseInduction =>
      rw [Course.visits, List.forall_mem_append, List.forall_mem_append] at inside
      rcases Course.run_test_ok run with
        ⟨tested, second, left, third, right, conditionRun, trueRun, falseRun, rfl⟩
      have tests := conditionInduction inside.1 holds enters conditionRun
      have held := trueInduction inside.2.1 tests.holds tests.onTrue trueRun
      have failed := falseInduction inside.2.2 held.holds (held.persists.good _ tests.onFalse)
        falseRun
      have later := held.persists.trans failed.persists
      refine ⟨failed.holds, ?_, ?_, tests.persists.trans later, ?_⟩
      · exact (upholds.closed _).union _ _ (failed.persists.good _ held.onTrue) failed.onTrue
      · exact (upholds.closed _).union _ _ (failed.persists.good _ held.onFalse) failed.onFalse
      · rw [Course.visits, List.forall_mem_append, List.forall_mem_append]
        exact ⟨fun place member => later.marked place (tests.visited place member),
          fun place member => failed.persists.marked place (held.visited place member),
          failed.visited⟩

/-- What leaves a node is no more than its course ends with. -/
private theorem leaves (node : FlowNode) {state : RunState} {outcome : OutcomeFacts}
    (onTrue : good state outcome.ifTrue) (onFalse : good state outcome.ifFalse) :
    good state (leaving context node outcome).ifTrue ∧
      good state (leaving context node outcome).ifFalse := by
  have fewer (facts : Facts) (holds : good state facts) : good state facts.withoutFields := by
    refine (upholds.closed state).subset _ facts holds fun slot version member => ?_
    rw [Facts.reaching_withoutFields] at member
    split at member
    · exact member
    · exact absurd member (VersionSet.not_mem_empty version)
  unfold leaving
  split
  · rw [OutcomeFacts.ifTrue_editEach, OutcomeFacts.ifFalse_editEach]
    exact ⟨fewer _ onTrue, fewer _ onFalse⟩
  · exact ⟨onTrue, onFalse⟩

theorem visit {count : Nat} {dirty dirtyAfter : DirtyNodes}
    (kept : Kept context motive good marked count before)
    (found : context.graph.node? name = some node)
    (run : RunM.visit context live dirty (node, name) before = .ok dirtyAfter after) :
    Kept context motive good marked count after ∧
      ∀ place ∈ (context.body.course name).visits, marked after place := by
  rcases visit_parts found run with
    ⟨facts, enters, outcome, middle, changed, arrival, course, leaves⟩
  -- Arriving stores facts only.
  rcases arrive_good (upholds.closed before) kept.storing arrival with ⟨rfl, arrives, storing⟩
  rcases upholds.beside (.of_stores before _ _ _ before.events) kept.holds with
    ⟨entersHolds, entersPersist⟩
  have ran := upholds.course ⟨node, found, rfl⟩ (fun _ member => member) entersHolds
    (entersPersist.good _ arrives) course
  have carried := ((storing.imp entersPersist.good).imp ran.persists.good).of_stores
    (Course.run_frame course).stores
  -- So does leaving.
  have departs := upholds.leaves node ran.onTrue ran.onFalse
  rcases leave_good carried departs.1 departs.2 leaves with ⟨beside, left⟩
  rcases upholds.beside beside ran.holds with ⟨holds, leftPersist⟩
  have persists := (entersPersist.trans ran.persists).trans leftPersist
  refine ⟨⟨holds, left.imp leftPersist.good, fun other bound place member => ?_⟩,
    fun place member => leftPersist.marked place (ran.visited place member)⟩
  exact persists.marked place (kept.visited other bound place member)

theorem aside {count : Nat} (kept : Kept context motive good marked count before)
    (aside : Aside before after) : Kept context motive good marked count after := by
  rcases upholds.beside aside.toBeside kept.holds with ⟨holds, persists⟩
  exact ⟨holds, (kept.storing.imp persists.good).of_stores aside.stores,
    fun name bound place member => persists.marked place (kept.visited name bound place member)⟩

theorem carries : Carries context (Kept context motive good marked) where
  restart := fun _ _ => .restart
  visit := by
    intro live node name dirty dirtyAfter before after found kept run
    rcases upholds.visit kept found run with ⟨later, visited⟩
    refine ⟨later.holds, later.storing, fun other bound => ?_⟩
    rcases Nat.lt_succ_iff_lt_or_eq.1 bound with earlier | rfl
    · exact later.visited other earlier
    · exact visited
  aside := fun _ _ _ => upholds.aside

end Upholds

end

end RunM

/-! ## Whole runs -/

namespace Versioner

/-- A successful run ends with what its passes carry on. -/
theorem carried_of_run {versioner : Versioner} {body : Body} {motive : Nat → RunState → Prop}
    (carries : RunM.Carries { config := versioner.config, body } motive)
    (begun : ∀ state, Begins versioner.config body state → motive 0 state)
    (success : (versioner.run body).outcome = .ok ()) :
    ∃ final, versioner.run body = finish versioner.config body final (.ok ()) ∧
      motive body.graph.size final := by
  cases found : body.graph.entry with
  | none =>
      rcases run_ok success with ⟨-, valid, -, -⟩
      rcases run_of_noEntry versioner valid found with ⟨final, -, aside, result⟩
      rw [size_of_noEntry valid found]
      exact ⟨final, result, carries.aside _ _ _ (begun _ (.bare found)) aside⟩
  | some entry =>
      rcases parts_of_run success found with ⟨seeded, total, settled, final, parts⟩
      rcases parts.seeds with ⟨entered, isEntry, seeds⟩
      have rested := carries.rounds parts.positive (begun _ (.seeded isEntry seeds)) parts.rounds
      refine ⟨final, parts.result, ?_⟩
      cases round : versioner.config.has .liveRound with
      | true => exact carries.liveRound (carries.restart _ _ rested) (parts.live round)
      | false =>
          rw [parts.dead round]
          exact rested

/-- A successful run keeps what its visits uphold. -/
theorem upheld_of_run {versioner : Versioner} {body : Body} {motive : RunState → Prop}
    {good : RunState → Facts → Prop} {marked : RunState → Visit → Prop}
    (upholds : RunM.Upholds { config := versioner.config, body } motive good marked)
    (begun : ∀ state, Begins versioner.config body state →
      RunM.Kept { config := versioner.config, body } motive good marked 0 state)
    (success : (versioner.run body).outcome = .ok ()) :
    ∃ final, versioner.run body = finish versioner.config body final (.ok ()) ∧
      RunM.Kept { config := versioner.config, body } motive good marked body.graph.size final :=
  carried_of_run upholds.carries begun success

end Versioner

end SlotVersioning
