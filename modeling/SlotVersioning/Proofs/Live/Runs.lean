import SlotVersioning.Proofs.Live.Courses
import SlotVersioning.Proofs.Rest.Keeping

/-!
# Live facts after runs

A live round comes after a version was written at every visited site. So it records at each of them
what reaches the site when its node is evaluated from the facts that are stored before it, and it
records nothing else (`lives_of_run`): nothing at seeds, phi inputs, phantoms and fields.
-/

namespace SlotVersioning

open Std VersionGraph RunM

/-- The version of a visited site. -/
def Body.SiteAs (body : Body) (versions : ExprId → Version) (key : VersionKey) : Prop :=
  ∃ place target, body.Places place ∧ place.site? = some target ∧
    key = ⟨target.slot, versions target.expression⟩

namespace RunState.Shows

variable {known others : VersionKey → Prop} {live other : VersionKey → Option Facts}
  {state final : RunState}

theorem unique (shows : state.Shows known live) (otherShows : state.Shows others other) :
    live = other := by
  rcases shows with ⟨graph, stored, shows⟩
  rcases otherShows with ⟨next, otherStored, otherShows⟩
  cases stored.symm.trans otherStored
  funext key
  rw [← shows.recorded, otherShows.recorded]

theorem beside (shows : state.Shows known live) (beside : Beside state final) :
    final.Shows known live := by
  rcases shows with ⟨graph, stored, shows⟩
  rcases beside.graph graph stored with ⟨next, nextStored, similar⟩
  have nodes := beside.nodes
  rw [stored, nextStored] at nodes
  have nodes : next.nodes = graph.nodes := Option.some.inj nodes
  refine ⟨next, nextStored, fun key position found => ?_, fun key isKnown => ?_, fun key => ?_⟩
  · rw [similar.position] at found
    rw [similar.identity]
    exact shows.placed key position found
  · rw [similar.position]
    exact shows.known key isKnown
  · unfold recorded? node?
    rw [similar.position, nodes]
    exact shows.recorded key

/-- All versions of visited sites have nodes. -/
private theorem know {body : Body} {config : Config} (shows : state.Shows known live)
    (composed : Composed body config state) (usage : config.has .usageVersions = true)
    (ordinary : ∀ expression target, body.arena.site? expression = some target → 0 ≤ target.slot)
    (versioned : ∀ place, body.Places place → Versioned state place) :
    state.Shows (body.SiteAs state.version) live := by
  rcases shows with ⟨graph, stored, shows⟩
  rcases composed.shaped usage with ⟨shaping, shapingStored, shaped⟩
  cases stored.symm.trans shapingStored
  refine ⟨graph, stored, shows.placed, ?_, shows.recorded⟩
  rintro key ⟨place, target, ⟨name, member⟩, visits, rfl⟩
  have isSite := body.sitesIn_course name place member target visits
  have admits := composed.accounts.ledger.written _ target isSite
    (versioned place ⟨name, member⟩ _ (Visit.mem_written_of_site visits))
  rcases shaped.plain_of_admits stored (ordinary _ _ isSite) admits with
    ⟨origin, ⟨position, found⟩, -⟩
  exact Option.isSome_iff_exists.2 ⟨position, shaped.sound.indexed position _ origin found⟩

private theorem forget (shows : state.Shows known live) : state.Shows (fun _ => False) live := by
  rcases shows with ⟨graph, stored, shows⟩
  exact ⟨graph, stored, shows.placed, fun _ isKnown => isKnown.elim, shows.recorded⟩

end RunState.Shows

theorem Beside.keepsBooks {before after : RunState} (beside : Beside before after) :
    KeepsBooks before after :=
  .of_books ⟨beside.phantoms, beside.fields, beside.copies⟩

theorem Beside.keeps {before after : RunState} (beside : Beside before after) :
    Keeps before after :=
  .of_versions (fun _ _ => congrFun beside.version _) beside.fields

namespace RunM

variable {context : Context} {live : Bool} {name : NodeId} {node : FlowNode}
  {dirty dirtyAfter : DirtyNodes} {before middle after state final : RunState}

/-! ## Visits of nodes -/

/-- A visit runs the course of the node, and stores facts before and after it. -/
theorem visit_run (found : context.graph.node? name = some node)
    (run : visit context live dirty (node, name) before = .ok dirtyAfter after) :
    ∃ facts outcome middle changed,
      (context.body.course name).run (context.site node.statement live) facts
        (entered before name facts) = .ok outcome.branches middle ∧
      Left context name (leaving context node outcome) changed middle after := by
  rcases visit_parts found run with
    ⟨facts, enters, outcome, middle, changed, arrival, course, leaves⟩
  rcases arrive_parts arrival with ⟨joined, -, -, rfl⟩
  exact ⟨facts, outcome, middle, changed, course, leave_ok leaves⟩

theorem beside_entered (state : RunState) (name : NodeId) (facts : Facts) :
    Beside state (entered state name facts) :=
  .of_stores state _ _ _ state.events

theorem visit_keepsBooks (found : context.graph.node? name = some node)
    (run : visit context live dirty (node, name) before = .ok dirtyAfter after) :
    KeepsBooks before after := by
  rcases visit_run found run with ⟨facts, outcome, middle, changed, course, left⟩
  exact ((beside_entered before name facts).keepsBooks.trans (Course.run_keepsBooks course)).trans
    left.beside.keepsBooks

/-- A visit that is not live records nothing. -/
private theorem visit_shows_dead {known : VersionKey → Prop} {recorded : VersionKey → Option Facts}
    (found : context.graph.node? name = some node)
    (shows : before.Shows known recorded)
    (run : visit context false dirty (node, name) before = .ok dirtyAfter after) :
    after.Shows known recorded := by
  rcases visit_run found run with ⟨facts, outcome, middle, changed, course, left⟩
  have enters := shows.beside (beside_entered before name facts)
  exact (Course.run_shows_dead rfl course enters).beside left.beside

/-- What visits that are not live keep, and what lies aside, is kept by rounds. -/
private theorem rounds_induction {motive : RunState → Prop} {start : RunState} {count : Nat}
    (visits : ∀ name node dirty dirtyAfter before after, context.graph.node? name = some node →
      motive before → visit context false dirty (node, name) before = .ok dirtyAfter after →
        motive after)
    (aside : ∀ before after, Aside before after → motive before → motive after)
    (rounds : Rounds context start count dirty state) (begin : motive start) : motive state := by
  induction rounds with
  | none => exact begin
  | more earlier unsettled last induction =>
      rcases round_ok last with ⟨begun, done, counted, passes, reported⟩
      refine aside _ _ reported ?_
      exact pass_induction (motive := fun _ _ state => motive state) visits passes
        (aside _ _ counted induction)

/-! ## Live passes -/

/-- All sites have versions, and nodes that a live pass visited show what reached their sites. -/
structure Lived (context : Context) (count : Nat) (state : RunState)
    (recorded : VersionKey → Option Facts) : Prop where
  kept : Kept context (Composed context.body context.config) RunState.Admitted Versioned
    context.graph.size state
  opened : state.tables.fields.isSome = context.config.has .fieldVersions
  tracks : state.tables.phantoms.isSome = context.config.has .phantomIncrements
  shows : state.Shows (fun _ => False) recorded
  seen : ∀ name < count, ∃ facts, state.tables.inFacts[name]? = some facts ∧
    ∀ later, Keeps state later →
      ∀ entry ∈ (context.body.course name).sightings context.config later facts,
        ∀ target, entry.1.site? = some target →
          recorded ⟨target.slot, state.version target.expression⟩ =
            some (entry.1.liveFacts (context.config.has .phantomIncrements)
              (state.version target.expression) entry.2)
  only : ∀ key, recorded key ≠ none → context.body.SiteAs state.version key

namespace Lived

variable {count : Nat} {recorded : VersionKey → Option Facts}

/-- Before a live pass nothing is recorded. -/
theorem start (kept : Kept context (Composed context.body context.config) RunState.Admitted
      Versioned context.graph.size state)
    (opened : state.tables.fields.isSome = context.config.has .fieldVersions)
    (tracks : state.tables.phantoms.isSome = context.config.has .phantomIncrements)
    (shows : state.Shows (fun _ => False) fun _ => none) :
    Lived context 0 state fun _ => none :=
  ⟨kept, opened, tracks, shows, fun _ bound => absurd bound (Nat.not_lt_zero _),
    fun _ isRecorded => absurd rfl isRecorded⟩

theorem aside (lived : Lived context count before recorded) (usedOnce : context.body.uses.Nodup)
    (ordinary : ∀ expression target, context.body.arena.site? expression = some target →
      0 ≤ target.slot)
    (aside : Aside before after) : Lived context count after recorded where
  kept := (upholds_composed context.config usedOnce ordinary).aside lived.kept aside
  opened := by
    rw [aside.fields]
    exact lived.opened
  tracks := by
    rw [aside.phantoms]
    exact lived.tracks
  shows := lived.shows.beside aside.toBeside
  seen := by
    rw [aside.inFacts, aside.version]
    intro name bound
    rcases lived.seen name bound with ⟨facts, stored, each⟩
    exact ⟨facts, stored, fun later keeps => each later (aside.toBeside.keeps.trans keeps)⟩
  only := by
    rw [aside.version]
    exact lived.only

/-- All visited places have versions. -/
theorem versioned (lived : Lived context count state recorded) {place : Visit}
    (placed : context.body.Places place) : Versioned state place := by
  rcases placed with ⟨name, member⟩
  exact lived.kept.visited name (Body.lt_size_of_visits member) place member

/-- Sites with different expressions do not share versions. -/
private theorem apart (lived : Lived context count state recorded)
    (usage : context.config.has .usageVersions = true) {place other : Visit}
    (placed : context.body.Places place) (otherPlaced : context.body.Places other)
    {target site : VariableSite} (visits : place.site? = some target)
    (otherVisits : other.site? = some site)
    (same : (⟨target.slot, state.version target.expression⟩ : VersionKey) =
      ⟨site.slot, state.version site.expression⟩) : target.expression = site.expression := by
  by_contra different
  rcases placed with ⟨name, member⟩
  rcases otherPlaced with ⟨otherName, otherMember⟩
  exact lived.kept.holds.apart (lived.versioned ⟨name, member⟩) (lived.versioned ⟨_, otherMember⟩)
    member otherMember visits otherVisits different (.inl usage) (.inl usage) same

section

variable (usage : context.config.has .usageVersions = true)
  (found : context.graph.node? name = some node)
  (run : RunM.visit context true dirty (node, name) before = .ok dirtyAfter after)

include usage found run

/-- What a live visit of a node records, as it is seen in any later state. -/
private theorem visit_records (lived : Lived context count before recorded)
    (usedOnce : context.body.uses.Nodup)
    (ordinary : ∀ expression target, context.body.arena.site? expression = some target →
      0 ≤ target.slot) :
    Keeps before after ∧ ∃ facts next,
      after.tables.inFacts = before.tables.inFacts.insert name facts ∧
      after.Shows (fun _ => False) next ∧ ∀ later, Keeps after later →
        next = recordAll (context.config.has .phantomIncrements) later.version recorded
          ((context.body.course name).sightings context.config later facts) := by
  rcases visit_run found run with ⟨facts, outcome, middle, changed, course, left⟩
  have enters := beside_entered before name facts
  have composed := ((upholds_composed context.config usedOnce ordinary).beside enters
    lived.kept.holds).1
  have versioned (place : Visit) (placed : context.body.Places place) :
      Versioned (entered before name facts) place := lived.versioned placed
  have opened : context.config.has .fieldVersions = true →
      (entered before name facts).tables.fields.isSome :=
    fun recorded => lived.opened.trans recorded
  have tracks : (entered before name facts).tables.phantoms.isSome =
      context.config.has .phantomIncrements := lived.tracks
  have begun := (lived.shows.beside enters).know composed usage ordinary versioned
  have shows (later : RunState) (keeps : Keeps after later) :
      after.Shows (fun _ => False) (recordAll (context.config.has .phantomIncrements)
        later.version recorded
        ((context.body.course name).sightings context.config later facts)) := by
    have ran := Course.run_shows rfl usage opened tracks
      (fun place member target visits => ⟨versioned place ⟨name, member⟩ _
        (Visit.mem_written_of_site visits), place, target, ⟨name, member⟩, visits, rfl⟩)
      begun (left.beside.keeps.trans keeps) course
    exact (ran.beside left.beside).forget
  refine ⟨(enters.keeps.trans (Course.run_keeps course usage)).trans left.beside.keeps, facts, _,
    ?_, shows after (.refl after), fun later keeps => ?_⟩
  · rw [left.tables]
    exact congrArg Stores.inFacts (Course.run_frame course).stores
  · exact (shows after (.refl after)).unique (shows later keeps)

/-- A live visit of a node records at its sites what reaches them. -/
private theorem visit (lived : Lived context name before recorded)
    (usedOnce : context.body.uses.Nodup)
    (ordinary : ∀ expression target, context.body.arena.site? expression = some target →
      0 ≤ target.slot) :
    ∃ recorded, Lived context (name + 1) after recorded := by
  have kept := ((upholds_composed context.config usedOnce ordinary).visit lived.kept found run).1
  have books := visit_keepsBooks found run
  rcases lived.visit_records usage found run usedOnce ordinary with
    ⟨keeps, facts, next, inFacts, shows, records⟩
  -- The versions of sites are what they were.
  have version {place : Visit} {target : VariableSite} {later : RunState}
      (placed : context.body.Places place) (visits : place.site? = some target)
      (keeps : Keeps before later) :
      later.version target.expression = before.version target.expression :=
    keeps.version _ (lived.versioned placed _ (Visit.mem_written_of_site visits))
  have placed {name : NodeId} {later : RunState} {facts : Facts} {entry : Visit × Facts}
      (member : entry ∈ (context.body.course name).sightings context.config later facts) :
      context.body.Places entry.1 := ⟨name, Course.mem_visits_of_sightings member⟩
  refine ⟨next, kept, books.fields.trans lived.opened, books.phantoms.trans lived.tracks, shows,
    fun other bound => ?_, fun key isRecorded => ?_⟩
  · rw [inFacts]
    rcases Nat.lt_succ_iff_lt_or_eq.1 bound with earlier | rfl
    · rcases lived.seen other earlier with ⟨stored, present, each⟩
      refine ⟨stored, ?_, fun later keepsLater entry member target visits => ?_⟩
      · rw [ExtTreeMap.getElem?_insert, if_neg]
        · exact present
        · rw [Std.compare_eq_iff_eq]
          exact (Nat.ne_of_lt earlier).symm
      · have keepsBoth := keeps.trans keepsLater
        rw [records later keepsLater, version (placed member) visits keeps, recordAll_elsewhere]
        · exact each later keepsBoth entry member target visits
        · -- The sites of another node have other versions.
          intro seen inCourse site isSite same
          rw [version (placed inCourse) isSite keepsBoth] at same
          have one := lived.apart usage (placed member) (placed inCourse) visits isSite same
          exact context.body.sites_apart usedOnce (Nat.ne_of_lt earlier) _
            (Course.mem_sites_of_visit (Course.mem_visits_of_sightings member) visits)
            (one ▸ Course.mem_sites_of_visit (Course.mem_visits_of_sightings inCourse) isSite)
    · refine ⟨facts, ExtTreeMap.getElem?_insert_self, fun later keepsLater entry member target
        visits => ?_⟩
      have keepsBoth := keeps.trans keepsLater
      rw [records later keepsLater, version (placed member) visits keeps,
        ← version (placed member) visits keepsBoth]
      refine recordAll_of_mem ?_ (fun left inLeft right inRight target site visits isSite same =>
        ?_) member visits
      · rw [Course.sightings_visits]
        exact context.body.nodup_sites usedOnce other
      · rw [version (placed inLeft) visits keepsBoth, version (placed inRight) isSite keepsBoth]
          at same
        exact lived.apart usage (placed inLeft) (placed inRight) visits isSite same
  · rw [records after (.refl after)] at isRecorded
    by_cases seen : ∃ entry ∈ (context.body.course name).sightings context.config after facts,
        ∃ target, entry.1.site? = some target ∧
          key = ⟨target.slot, after.version target.expression⟩
    · rcases seen with ⟨entry, member, target, visits, rfl⟩
      exact ⟨entry.1, target, placed member, visits, rfl⟩
    · rw [recordAll_elsewhere fun entry member target visits same =>
        seen ⟨entry, member, target, visits, same⟩] at isRecorded
      rcases lived.only key isRecorded with ⟨place, target, isPlaced, visits, rfl⟩
      exact ⟨place, target, isPlaced, visits, by rw [version isPlaced visits keeps]⟩

end

end Lived

/-- A live round records at all sites what reaches them. -/
private theorem Lived.liveRound (lived : Lived context 0 state fun _ => none)
    (usedOnce : context.body.uses.Nodup)
    (ordinary : ∀ expression target, context.body.arena.site? expression = some target →
      0 ≤ target.slot)
    (usage : context.config.has .usageVersions = true)
    (run : RunM.liveRound context state = .ok () final) :
    ∃ recorded, Lived context context.graph.size final recorded := by
  rcases liveRound_ok run with ⟨begun, done, dirtyAfter, counted, passes, reported⟩
  have passed : ∃ recorded, Lived context context.graph.size done recorded :=
    pass_induction (motive := fun count _ state => ∃ recorded, Lived context count state recorded)
      (fun _ _ _ _ _ _ found ⟨_, lived⟩ run => lived.visit usage found run usedOnce ordinary)
      passes ⟨_, lived.aside usedOnce ordinary counted⟩
  rcases passed with ⟨recorded, lived⟩
  exact ⟨recorded, lived.aside usedOnce ordinary reported⟩

end RunM

/-! ## Whole runs -/

/-- The names that are given after a run. -/
def RunResult.names (result : RunResult) : RunState where
  tables := result.versioner.tables
  versions := .ofList
    ((List.range result.body.arena.size).map fun expression =>
      (expression, result.version expression))

/-- What a run with a live round recorded. -/
structure RunResult.Lives (result : RunResult) (body : Body) (graph : VersionGraph) : Prop where
  stored : result.versioner.tables.graph = some graph
  /-- At the version of a visited site, what reaches the site when the node is evaluated from the
  facts that are stored before it. -/
  sites : ∀ name < body.graph.size, ∃ facts, result.versioner.tables.inFacts[name]? = some facts ∧
    ∀ entry ∈ (body.course name).sightings result.versioner.config result.names facts,
      ∀ target, entry.1.site? = some target →
        graph.recorded? ⟨target.slot, result.version target.expression⟩ =
          some (entry.1.liveFacts (result.versioner.config.has .phantomIncrements)
            (result.version target.expression) entry.2)
  /-- Nothing else. -/
  only : ∀ key, graph.recorded? key ≠ none → body.SiteAs result.version key
  seeds : ∀ index key, result.Owns body (.seed index) key → graph.recorded? key = none
  inputs : ∀ key, graph.origin? key = some .phiInput → graph.recorded? key = none
  phantoms : ∀ key phantom, result.versioner.tables.phantom? key = some phantom →
    graph.recorded? phantom = none
  fields : ∀ key, graph.origin? key = some .field → graph.recorded? key = none

private theorem RunM.bears_seedVersion {motive : Option VersionGraph → Prop}
    (unmoved : Unmoved motive) (context : Context) (statement : StatementId) (facts : Facts)
    (slot : Slot) : Bears motive (seedVersion context statement facts slot) :=
  (bears_mint _ _ _).bind fun _ => (bears_editGraph fun graph holds =>
    unmoved (creates_ensure graph _ _ _) holds).bind fun _ => .pure _

private theorem RunM.shows_seeding (context : Context) (entry : NodeId) :
    Preserves (fun state => state.Shows (fun _ => False) fun _ => none)
      (seeding context entry) := by
  refine preserves_seeding (fun _ _ => True) (fun _ _ => True.intro) ?_ ?_ entry
  · intro statement facts slot state value final shows _ run
    exact ⟨bears_seedVersion (unmoved_shows _ _) _ _ _ _ state value final shows run, True.intro⟩
  · intro node facts state final shows _ run
    cases run
    exact shows

namespace Versioner

variable {config : Config} {body : Body} {state : RunState}

/-- Before the first round nothing is recorded, and books are empty. -/
theorem Begins.recorded (begins : Begins config body state) (valid : config.validate = .ok ())
    (usage : config.has .usageVersions = true) :
    state.Books (.fresh config) ∧ state.Shows (fun _ => False) fun _ => none := by
  have bare : (start config body).Shows (fun _ => False) fun _ => none :=
    ⟨{}, if_pos (Config.has_versionGraph valid usage), sound_empty.placed,
      fun _ isKnown => isKnown.elim, fun key => by
        have unknown : VersionGraph.position? {} key = none := ExtTreeMap.getElem?_empty
        unfold recorded? node?
        rw [unknown]
        rfl⟩
  cases begins with
  | bare noEntry => exact ⟨⟨rfl, rfl, rfl⟩, bare⟩
  | seeded isEntry seeds =>
      exact ⟨(indifferent_books _).seeding (fun _ _ books => ⟨books.phantoms, books.fields,
        books.copies⟩) _ _ _ _ _ ⟨rfl, rfl, rfl⟩ seeds, shows_seeding _ _ _ _ _ bare seeds⟩

theorem opened_fresh (config : Config) :
    (Tables.fresh config).fields.isSome = config.has .fieldVersions ∧
      (Tables.fresh config).phantoms.isSome = config.has .phantomIncrements := by
  unfold Tables.fresh Tables.renew
  constructor
  · cases config.has .fieldVersions <;> rfl
  · cases config.has .phantomIncrements <;> rfl

section

variable (valid : config.validate = .ok ()) (usage : config.has .usageVersions = true)
  (usedOnce : body.uses.Nodup)
  (ordinary : ∀ expression target, body.arena.site? expression = some target → 0 ≤ target.slot)

include valid usage usedOnce ordinary

/-- After the last round all sites have versions, and nothing is recorded. -/
private theorem lived_of_rounds {seeded settled : RunState} {total : Nat} {dirty : DirtyNodes}
    (begins : Begins config body seeded) (positive : 0 < total)
    (rounds : Rounds { config, body } seeded total dirty settled) :
    Lived { config, body } 0 settled fun _ => none := by
  have upholds := upholds_composed config usedOnce ordinary
  rcases begins.recorded valid usage with ⟨fresh, nothing⟩
  have kept : Kept { config, body } (Composed body config) RunState.Admitted Versioned 0 seeded :=
    begins.entering.kept.imp fun accounts => ⟨accounts, fun usage => begins.shaped valid usage _⟩
  have before : KeepsBooks seeded settled ∧ settled.Shows (fun _ => False) fun _ => none :=
    rounds_induction
      (motive := fun state => KeepsBooks seeded state ∧ state.Shows (fun _ => False) fun _ => none)
      (fun _ _ _ _ _ _ found both run =>
        ⟨both.1.trans (visit_keepsBooks found run), visit_shows_dead found both.2 run⟩)
      (fun _ _ aside both =>
        ⟨both.1.trans aside.toBeside.keepsBooks, both.2.beside aside.toBeside⟩)
      rounds ⟨.of_books (books_refl _), nothing⟩
  refine .start (upholds.carries.rounds positive kept rounds) ?_ ?_ before.2
  · rw [before.1.fields, fresh.fields, (opened_fresh config).1]
  · rw [before.1.phantoms, fresh.phantoms, (opened_fresh config).2]

omit usedOnce ordinary in
/-- The same holds before the first round when there are no nodes. -/
private theorem lived_of_bare (bodyValid : body.validate = .ok ())
    (noEntry : body.graph.entry = none) :
    Lived { config, body } 0 (start config body) fun _ => none := by
  have begins : Begins config body (start config body) := .bare noEntry
  have fresh := opened_fresh config
  refine .start ?_ fresh.1 fresh.2 (begins.recorded valid usage).2
  rw [show (Context.mk config body).graph.size = 0 from size_of_noEntry bodyValid noEntry]
  exact begins.entering.kept.imp fun accounts =>
    ⟨accounts, fun usage => begins.shaped valid usage _⟩

end

private theorem lived_of_run {versioner : Versioner} (valid : versioner.config.validate = .ok ())
    (usage : versioner.config.has .usageVersions = true)
    (liveRound : versioner.config.has .liveRound = true) (usedOnce : body.uses.Nodup)
    (ordinary : ∀ expression target, body.arena.site? expression = some target → 0 ≤ target.slot)
    (success : (versioner.run body).outcome = .ok ()) :
    ∃ final recorded, versioner.run body = finish versioner.config body final (.ok ()) ∧
      Lived { config := versioner.config, body } body.graph.size final recorded := by
  cases found : body.graph.entry with
  | none =>
      rcases run_ok success with ⟨-, bodyValid, -, -⟩
      rcases run_of_noEntry versioner bodyValid found with ⟨final, -, aside, result⟩
      rw [size_of_noEntry bodyValid found]
      exact ⟨final, _, result, (lived_of_bare valid usage bodyValid found).aside
        usedOnce ordinary aside⟩
  | some entry =>
      rcases parts_of_run success found with ⟨seeded, total, settled, final, parts⟩
      rcases parts.seeds with ⟨entered, isEntry, seeds⟩
      have begun := lived_of_rounds valid usage usedOnce ordinary (.seeded isEntry seeds)
        parts.positive parts.rounds
      rcases begun.liveRound usedOnce ordinary usage (parts.live liveRound) with ⟨recorded, lived⟩
      exact ⟨final, recorded, parts.result, lived⟩

private theorem names_version (result : RunResult) (expression : ExprId) :
    result.names.version expression = result.version expression := by
  unfold RunResult.names RunState.version
  by_cases known : expression < result.body.arena.size
  · refine ExtTreeMap.getD_ofList_of_mem Std.ReflCmp.compare_self ?_
      (List.mem_map.2 ⟨expression, List.mem_range.2 known, rfl⟩)
    rw [List.pairwise_map]
    refine List.nodup_range.imp fun different => ?_
    rwa [Std.compare_eq_iff_eq]
  · rw [ExtTreeMap.getD_ofList_of_contains_eq_false]
    · have nothing : result.body.arena.access? expression = none := by
        unfold Arena.access? Arena.get?
        rw [Array.getElem?_eq_none (Nat.le_of_not_lt known)]
        rfl
      unfold RunResult.version
      rw [nothing]
      rfl
    · rw [List.map_map]
      simpa using Nat.le_of_not_lt known

/-- The names that are given after a run are those of the state that it ended in. -/
private theorem keeps_names {config : Config} {state : RunState} {outcome : Except Fault Unit}
    (kept : Kept { config, body } (Accounts body config) RunState.Admitted Versioned
      body.graph.size state) : Keeps state (finish config body state outcome).names := by
  refine .of_versions (fun expression versioned => ?_) rfl
  have visited : body.Visits expression := by
    by_contra unvisited
    exact versioned (kept.holds.unvisited expression unvisited)
  rcases visited with ⟨name, member⟩
  rcases Course.mem_sites.1 member with ⟨place, inCourse, target, visits, rfl⟩
  rw [names_version, version_finish (visited_of_kept kept ⟨name, inCourse⟩ visits).1]

/-- After a successful run with a live round, the live facts of a visited site are the facts that
reach it, and nothing else has live facts. -/
theorem lives_of_run {versioner : Versioner} {body : Body}
    (valid : versioner.config.validate = .ok ())
    (usage : versioner.config.has .usageVersions = true)
    (liveRound : versioner.config.has .liveRound = true) (usedOnce : body.uses.Nodup)
    (ordinary : ∀ expression target, body.arena.site? expression = some target → 0 ≤ target.slot)
    (success : (versioner.run body).outcome = .ok ()) :
    ∃ graph, (versioner.run body).Lives body graph := by
  rcases lived_of_run valid usage liveRound usedOnce ordinary success with
    ⟨final, recorded, result, lived⟩
  rcases lived.shows with ⟨graph, stored, shows⟩
  rcases lived.kept.holds.shaped usage with ⟨shaping, shapingStored, shaped⟩
  cases stored.symm.trans shapingStored
  have kept := lived.kept.imp Composed.accounts
  have tables : (versioner.run body).versioner.tables = final.tables := by
    rw [result]
    rfl
  have configured : (versioner.run body).versioner.config = versioner.config := by
    rw [result]
    rfl
  have version {place : Visit} {target : VariableSite} (placed : body.Places place)
      (visits : place.site? = some target) :
      (versioner.run body).version target.expression = final.version target.expression := by
    rw [result]
    exact version_of_kept kept placed visits
  have keeps : Keeps final (versioner.run body).names := by
    rw [result]
    exact keeps_names kept
  -- A version has one owner, so what belongs to no site has no live facts.
  have alone (owner : Owner) (key : VersionKey)
      (owns : (body.claimants versioner.config).Owns final owner key)
      (noSite : ∀ expression, owner ≠ .site expression) : graph.recorded? key = none := by
    by_contra isRecorded
    rw [shows.recorded] at isRecorded
    rcases lived.only key isRecorded with ⟨place, target, placed, visits, rfl⟩
    exact noSite _ (kept.holds.ledger.unique _ _ _ owns
      (owns_of_kept kept placed visits (.inl usage)))
  refine ⟨graph, ?_⟩
  constructor
  case stored => exact tables ▸ stored
  case sites =>
    intro name bound
    rcases lived.seen name bound with ⟨facts, present, each⟩
    refine ⟨facts, tables ▸ present, fun entry member target visits => ?_⟩
    rw [configured] at member ⊢
    rw [version ⟨name, Course.mem_visits_of_sightings member⟩ visits, shows.recorded]
    exact each _ keeps entry member target visits
  case only =>
    intro key isRecorded
    rw [shows.recorded] at isRecorded
    rcases lived.only key isRecorded with ⟨place, target, placed, visits, rfl⟩
    exact ⟨place, target, placed, visits, by rw [version placed visits]⟩
  case seeds =>
    intro index key owns
    rw [result] at owns
    exact alone _ key (owns_finish.1 owns) fun _ => Owner.noConfusion
  case inputs =>
    intro key isInput
    exact alone (.input key) key ⟨rfl, graph, stored, shaped.sound.has_of_origin isInput⟩
      fun _ => Owner.noConfusion
  case phantoms =>
    intro key phantom found
    rw [tables] at found
    exact alone (.phantom key) phantom found fun _ => Owner.noConfusion
  case fields =>
    intro key isField
    by_contra isRecorded
    rw [shows.recorded] at isRecorded
    rcases lived.only key isRecorded with ⟨place, target, ⟨name, member⟩, visits, rfl⟩
    have negative := shaped.fields _ (shaped.sound.has_of_origin isField)
    exact absurd negative
      (Int.not_lt.2 (ordinary _ _ (body.sitesIn_course name place member target visits)))

theorem lives_rereading :
    ∃ graph, (Config.usage.versioner.run .rereading).Lives .rereading graph :=
  lives_of_run (show Config.usage.versioner.config.validate = .ok () from rfl)
    (show Config.usage.versioner.config.has _ = true from rfl)
    (show Config.usage.versioner.config.has _ = true from rfl) Body.regular_rereading.usedOnce
    Body.regular_rereading.ordinary success_rereading

end Versioner

end SlotVersioning
