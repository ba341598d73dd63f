import SlotVersioning.Proofs.Pass.Seeding

/-!
# Executions

An execution starts at the entry of a node with versions that enter there, walks through the
courses of nodes, and goes on along the edges that continue the outcomes. What is current in an
execution is among the versions that a settled run stores (`Settled.within_path`), and a visit that
an execution comes to is stable for them (`Settled.comes`).
-/

namespace SlotVersioning

open Std

/-! ## Paths -/

namespace Body

/-- The visits between the entry of `start` and the entry of another node. -/
inductive Path (body : Body) (start : NodeId) : List Visit → NodeId → Prop
  | start : Path body start [] start
  | step {visits more : List Visit} {source target : NodeId} {outcome : Bool}
      (before : Path body start visits source)
      (walk : (body.course source).Walk more outcome)
      (edge : target ∈ body.graph.successors source)
      (continues : outcome = body.graph.edgeOutcome source target) :
      Path body start (visits ++ more) target

/-- An execution from the entry of `start` comes to a visit at `node` after the visits `earlier`. -/
def Comes (body : Body) (start node : NodeId) (earlier : List Visit) (place : Visit) : Prop :=
  ∃ visits begun later outcome, earlier = visits ++ begun ∧ body.Path start visits node ∧
    (body.course node).Walk (begun ++ place :: later) outcome

/-- Every visit on a path is one of the course of some node. -/
theorem Path.visits_mem {body : Body} {start finish : NodeId} {visits : List Visit}
    (path : body.Path start visits finish) {place : Visit} (member : place ∈ visits) :
    ∃ name, place ∈ (body.course name).visits := by
  induction path with
  | start => exact nomatch member
  | @step _ _ source _ _ before walk edge continues induction =>
      rcases List.mem_append.1 member with early | late
      · exact induction early
      · exact ⟨source, walk.visits_mem late⟩

theorem Comes.visits_mem {body : Body} {start node : NodeId} {earlier : List Visit}
    {place other : Visit} (comes : body.Comes start node earlier place)
    (member : other ∈ earlier) : ∃ name, other ∈ (body.course name).visits := by
  rcases comes with ⟨visits, begun, later, outcome, rfl, path, walk⟩
  rcases List.mem_append.1 member with early | late
  · exact path.visits_mem early
  · exact ⟨node, walk.visits_mem (List.mem_append_left _ late)⟩

theorem Comes.mem_visits {body : Body} {start node : NodeId} {earlier : List Visit}
    {place : Visit} (comes : body.Comes start node earlier place) :
    place ∈ (body.course node).visits := by
  rcases comes with ⟨visits, begun, later, outcome, rfl, path, walk⟩
  exact walk.visits_mem (List.mem_append_right _ List.mem_cons_self)

/-- In the loop of `rereading` the read comes again after the assignment. -/
theorem comes_rereading : rereading.Comes 0 0
    [.read ⟨0, 0, none⟩, .assign ⟨1, 0, none⟩ .nothing] (.read ⟨0, 0, none⟩) := by
  have reads : (rereading.course 0).Walk [.read ⟨0, 0, none⟩] true := by
    rw [course_rereading.1]
    exact .visit _ true
  have assigns : (rereading.course 1).Walk [.assign ⟨1, 0, none⟩ .nothing] true := by
    rw [course_rereading.2]
    exact .chain (.free true) (.visit _ true)
  have forth : rereading.Path 0 [.read ⟨0, 0, none⟩] 1 :=
    .step .start reads (by decide) (by decide)
  have back : rereading.Path 0 [.read ⟨0, 0, none⟩, .assign ⟨1, 0, none⟩ .nothing] 0 :=
    .step forth assigns (by decide) (by decide)
  exact ⟨_, [], [], true, rfl, back, reads⟩

/-- A node whose course has a visit is one of the graph. -/
theorem lt_size_of_visits {body : Body} {name : NodeId} {place : Visit}
    (member : place ∈ (body.course name).visits) : name < body.graph.size := by
  unfold course at member
  split at member
  · next node found => exact (Array.getElem?_eq_some_iff.1 found).1
  · exact nomatch member

end Body

/-! ## What settled runs store -/

namespace Settled

variable {context : Context} {state : RunState} {start node : NodeId} {initial : Current}

/-- What is current where a path enters a node is stored there. -/
theorem within_path (settled : Settled context state) (regular : context.body.Regular)
    {visits : List Visit} (path : context.body.Path start visits node) {slot : Slot}
    (ordinary : 0 ≤ slot)
    (seeded : Course.Within initial slot (state.tables.seeded start slot)) {facts : Facts}
    (entering : state.tables.inFacts[node]? = some facts) :
    Course.Within (initial.after state.version visits) slot (facts.reaching slot) := by
  induction path generalizing facts with
  | start =>
      have joins := settled.joins start facts entering ExtTreeSet.not_mem_empty slot ordinary
      exact seeded.mono fun version member => (joins version).2 (.inr member)
  | @step visits more source target outcome before walk edge continues induction =>
      rcases settled.everywhere source (FlowGraph.lt_size_of_successor edge) with ⟨left, entered⟩
      have joins := settled.joins target facts entering ExtTreeSet.not_mem_empty slot ordinary
      have carried := settled.carried source left entered
      rw [Current.after_append]
      apply (Course.current_of_walk walk (induction entered)).mono
      intro version member
      refine (joins version).2 (.inl ⟨source, ?_, ?_⟩)
      · exact (regular.built.linked source target).1 edge
      · subst continues
        rw [carried.brought target ordinary]
        exact member

/-- A visit that an execution comes to is stable for the versions that reach it, and what is
current there is one of them. -/
theorem comes (settled : Settled context state) (regular : context.body.Regular)
    {earlier : List Visit} {place : Visit} {target : VariableSite}
    (comes : context.body.Comes start node earlier place) (visits : place.site? = some target)
    (seeded : ∀ slot, Course.Within initial slot (state.tables.seeded start slot)) :
    ∃ facts arriving, state.tables.inFacts[node]? = some facts ∧
      (place, arriving) ∈ (context.body.course node).arrivals state.version target.slot
        (facts.reaching target.slot) ∧
      Stable context.config state.version state.tables.merged? place.isRead target arriving ∧
      Course.Within (initial.after state.version earlier) target.slot arriving := by
  have known := Body.lt_size_of_visits comes.mem_visits
  have ordinary := regular.ordinary_of_visit comes.mem_visits visits
  rcases settled.everywhere node known with ⟨facts, entering⟩
  rcases comes with ⟨before, begun, later, outcome, rfl, path, walk⟩
  have within := settled.within_path regular path ordinary (seeded target.slot) entering
  rcases Course.arrival_of_walk walk within rfl with ⟨arriving, member, found⟩
  refine ⟨facts, arriving, entering, member, ?_, ?_⟩
  · exact settled.stable node facts entering target.slot ordinary _ member target visits rfl
  · rw [Current.after_append]
    exact found

end Settled

/-! ## Results -/

namespace RunResult

/-- The version that a variable access has after the run. -/
def version (result : RunResult) (expression : ExprId) : Version :=
  ((result.body.arena.access? expression).map VariableAccess.version).getD 0

/-- An execution that starts at the entry of a node has versions that enter there from outside. -/
def Starts (result : RunResult) (start : NodeId) (initial : Current) : Prop :=
  ∀ slot, Course.Within initial slot (result.versioner.tables.seeded start slot)

theorem starts_none (result : RunResult) (start : NodeId) : result.Starts start fun _ => none :=
  fun _ _ entered => nomatch entered

end RunResult

/-- A versioner of the configuration that has not run. -/
def Config.versioner (config : Config) : Versioner where
  config := config
  tables := .fresh config

theorem Versioner.version_finish {config : Config} {body : Body} {state : RunState}
    {outcome : Except Fault Unit} {expression : ExprId} {target : VariableSite}
    (found : body.arena.site? expression = some target) :
    (finish config body state outcome).version expression = state.version expression := by
  rcases Option.map_eq_some_iff.1 found with ⟨access, stored, -⟩
  unfold Arena.access? at stored
  rcases Option.bind_eq_some_iff.1 stored with ⟨expr, present, isVariable⟩
  unfold RunResult.version finish Arena.withVersions Arena.access? Arena.get?
  unfold Arena.get? at present
  rw [Array.getElem?_mapIdx, present]
  cases expr with
  | «variable» access => rfl
  | _ => exact nomatch isVariable

/-- Only the versions at the visited sites matter for what is current. -/
theorem Current.after_congr {versions others : ExprId → Version} {current : Current}
    {visits : List Visit} (agree : ∀ place ∈ visits, ∀ target, place.site? = some target →
      versions target.expression = others target.expression) :
    current.after versions visits = current.after others visits := by
  induction visits generalizing current with
  | nil => rfl
  | cons place rest induction =>
      have same : place.advance versions current = place.advance others current := by
        unfold Visit.advance
        cases found : place.site? with
        | none => rfl
        | some target =>
            dsimp only
            rw [agree place List.mem_cons_self target found]
      rw [after_cons, after_cons, same]
      exact induction fun other member => agree other (List.mem_cons_of_mem _ member)

/-- The result has the tables of the state, and its versions at all sites. -/
structure RunResult.Leaves (result : RunResult) (body : Body) (state : RunState) : Prop where
  tables : result.versioner.tables = state.tables
  version : ∀ name, ∀ expression ∈ (body.course name).sites,
    result.version expression = state.version expression

theorem Versioner.leaves_finish (config : Config) (body : Body) (state : RunState)
    (outcome : Except Fault Unit) : (finish config body state outcome).Leaves body state where
  tables := rfl
  version := by
    intro name expression member
    rcases Course.mem_sites.1 member with ⟨place, inCourse, target, visits, rfl⟩
    exact version_finish (body.sitesIn_course name place inCourse target visits)

namespace RunResult.Leaves

variable {result : RunResult} {body : Body} {state : RunState} {start node : NodeId}
  {earlier : List Visit} {place : Visit}

theorem at_path (leaves : result.Leaves body state) {visits : List Visit}
    (path : body.Path start visits node) : ∀ place ∈ visits, ∀ target,
      place.site? = some target →
        result.version target.expression = state.version target.expression := by
  intro place member target found
  rcases path.visits_mem member with ⟨name, inCourse⟩
  exact leaves.version name _ (Course.mem_sites_of_visit inCourse found)

theorem after (leaves : result.Leaves body state) (comes : body.Comes start node earlier place)
    (initial : Current) :
    initial.after result.version earlier = initial.after state.version earlier := by
  apply Current.after_congr
  intro other member target visits
  rcases comes.visits_mem member with ⟨name, inCourse⟩
  exact leaves.version name _ (Course.mem_sites_of_visit inCourse visits)

theorem at_comes (leaves : result.Leaves body state) (comes : body.Comes start node earlier place)
    {target : VariableSite} (visits : place.site? = some target) :
    result.version target.expression = state.version target.expression :=
  leaves.version node _ (Course.mem_sites_of_visit comes.mem_visits visits)

end RunResult.Leaves

end SlotVersioning
