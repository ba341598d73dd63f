import SlotVersioning.Proofs.Slots.Stillness

/-!
# Slots do not influence each other

Runs of two bodies that differ in the slots of other variables may take different numbers of passes.
Both are compared with the passes over the body in which all other variables share one slot
(`Body.isolated`), so they end with the same versions, merges, graph edges and facts of the slot
(`Versioner.agreesOn_of_variesBeside`).
-/

namespace SlotVersioning

open Std

/-- The results say the same about the variable of a slot: the versions at its expressions, their
count, what is merged into them, the part of the version graph between them, and the facts about
it at every node. -/
structure RunResult.AgreesOn (slot : Slot) (left right : RunResult) : Prop where
  accesses : ∀ expression access, access.slot = slot →
    (left.body.arena.access? expression = some access ↔
      right.body.arena.access? expression = some access)
  last : left.versioner.tables.lastVersion? slot = right.versioner.tables.lastVersion? slot
  merged : ∀ version, left.versioner.tables.merged? ⟨slot, version⟩ =
    right.versioner.tables.merged? ⟨slot, version⟩
  graph : Option.Rel
    (fun graph other => ∀ key : VersionKey, key.slot = slot → graph.outline key = other.outline key)
    left.versioner.tables.graph right.versioner.tables.graph
  inFacts : ∀ name : NodeId, Facts.SameAt slot left.versioner.tables.inFacts[name]?
    right.versioner.tables.inFacts[name]?
  outFacts : ∀ name : NodeId, Facts.SameAt slot left.versioner.tables.outFacts[name]?
    right.versioner.tables.outFacts[name]?
  negativeFacts : ∀ name : NodeId, Facts.SameAt slot left.versioner.tables.negativeFacts[name]?
    right.versioner.tables.negativeFacts[name]?

/-! ## Before the first pass -/

/-- Nothing that is needed is missing from the state, and its version graph is sound. -/
structure RunState.Founded (config : Config) (state : RunState) : Prop where
  ready : state.Ready config
  sound : ∀ graph, state.tables.graph = some graph → graph.Sound

theorem SlotView.Agrees.of_founded {view : SlotView} {state : RunState}
    (founded : state.Founded view.config) : view.Agrees state state where
  leftReady := founded.ready
  rightReady := founded.ready
  version := fun _ _ => rfl
  last := rfl
  merged := fun _ => rfl
  haunted := rfl
  phantom := fun _ => rfl
  graph := by
    have sound := founded.sound
    generalize state.tables.graph = stored at sound ⊢
    cases stored with
    | none => exact .none
    | some graph => exact .some (.refl _ (sound graph rfl))

theorem Versioner.founded_start {config : Config} (valid : config.validate = .ok ())
    (body : Body) : (start config body).Founded config where
  ready := by
    refine ⟨(unvisited_start config body).fields, fun plain => ?_, fun usage => ?_, fun haunted => ?_⟩
    · simp [start, Tables.fresh, Tables.renew, Config.has_phiTable valid plain]
    · simp [start, Tables.fresh, Tables.renew, Config.has_versionGraph valid usage]
    · have phantoms : config.has .phantomIncrements = true := by
        cases on : config.has .phantomIncrements with
        | true => rfl
        | false => simp [start, Tables.fresh, Tables.renew, on] at haunted
      have needs := Config.has_versionGraph_of_needing valid (by decide) phantoms
      simp [start, Tables.fresh, Tables.renew, needs]
  sound := by
    intro graph stored
    unfold start Tables.fresh Tables.renew at stored
    dsimp only at stored
    split at stored
    · cases stored
      exact VersionGraph.sound_empty
    · exact nomatch stored

theorem RunM.founded_seeding {context : Context} (entry : NodeId) :
    Preserves (RunState.Founded context.config) (seeding context entry) := by
  refine preserves_seeding (fun _ _ => True) (fun _ _ => True.intro) ?_ ?_ entry
  · intro statement facts slot state value final founded _ run
    refine ⟨?_, True.intro⟩
    cases run
    refine ⟨founded.ready.of_same rfl rfl rfl rfl Option.isSome_map, fun graph stored => ?_⟩
    rcases Option.map_eq_some_iff.1 stored with ⟨before, known, rfl⟩
    exact (founded.sound before known).ensure _ _ _
  · intro node facts state final founded _ run
    cases run
    exact ⟨founded.ready.of_same rfl rfl rfl rfl rfl, founded.sound⟩

/-- Before the first pass a state shows the same as itself. -/
theorem SlotView.Same.of_unvisited {view : SlotView} {flow : FlowGraph} {state : RunState}
    (unvisited : Unvisited state) (founded : state.Founded view.config) :
    view.Same flow state state where
  toAgrees := .of_founded founded
  stores := by
    refine ⟨fun _ => .refl _ _, fun _ => .refl _ _, fun _ => .refl _ _, rfl,
      fun name _ present => ?_⟩
    change state.tables.outFacts[name]? ≠ none at present
    rw [unvisited.outFacts, ExtTreeMap.getElem?_empty] at present
    exact absurd rfl present

/-! ## Bodies that vary beside a slot -/

namespace Body.VariesBeside

variable {first second : Body} {slot : Slot} (varies : first.VariesBeside slot second)

include varies

private theorem seeding (config : Config) (entry : NodeId) :
    RunM.seeding { config, body := second } entry = RunM.seeding { config, body := first } entry := by
  rcases first with ⟨arena, statements, graph, signature⟩
  rcases second with ⟨otherArena, otherStatements, otherGraph, otherSignature⟩
  cases varies.statements
  cases varies.graph
  cases varies.signature
  rfl

theorem start (config : Config) : Versioner.start config second = Versioner.start config first := by
  unfold Versioner.start
  rw [varies.versionedCount]

end Body.VariesBeside

/-- After the last round what enters the nodes is joined. -/
theorem RunM.Rounds.joined {view : SlotView} {context : Context} {start state : RunState}
    {count : Nat} (rounds : Rounds context start count ∅ state) (unshared : context.body.Unshared)
    (unvisited : Unvisited start) (positive : 0 < count) : view.Joined context.graph state := by
  rcases settling_of_rounds unshared (.trivial _) unvisited.settling trivial rounds with
    ⟨settling, -, everywhere⟩
  intro name known
  rcases everywhere positive name known with ⟨facts, entering⟩
  exact ⟨facts, entering,
    settling.joins name facts entering ExtTreeSet.not_mem_empty view.slot view.ordinary⟩

/-- At all nodes of bodies with matching arenas the same happens to the slot. -/
theorem Context.Matches.of_arenas {view : SlotView} {first second : Body}
    (matching : first.arena.Matches view second.arena) (graph : second.graph = first.graph)
    (noShortPaths : ∀ exit, first.graph.shortPaths? exit = none)
    (unstuck : ∀ name, name < first.graph.size → (first.course name).Unstuck) :
    Context.Matches view { config := view.config, body := first }
      { config := view.config, body := second } where
  configured := rfl
  otherConfigured := rfl
  graph := graph
  noShortPaths := noShortPaths
  courses := Body.course_matches matching graph
  unstuck := unstuck

namespace Versioner

variable {versioner : Versioner} {first second body other : Body} {slot : Slot}
  {seeded settled final : RunState} {total : Nat}

theorem Parts.unstuck (parts : Parts versioner body seeded total settled final)
    (unshared : body.Unshared) (name : NodeId) (known : name < body.graph.size) :
    (body.course name).Unstuck := by
  rcases parts.everywhere unshared with ⟨settling, everywhere⟩
  rcases everywhere name known with ⟨facts, entering⟩
  exact settling.unstuck name facts entering

/-- A run ends like passes over a body that matches. -/
private theorem Parts.endsLike (parts : Parts versioner body seeded total settled final)
    {view : SlotView} (configured : view.config = versioner.config) (unshared : body.Unshared)
    (matching : body.arena.Matches view other.arena) (graph : other.graph = body.graph)
    (same : view.Same body.graph seeded seeded) :
    RunM.EndsLike view { config := versioner.config, body := other } seeded final := by
  have contexts := Context.Matches.of_arenas matching graph unshared.noShortPaths
    (parts.unstuck unshared)
  rw [configured] at contexts
  have joined : view.Joined other.graph settled :=
    graph ▸ parts.rounds.joined unshared parts.unvisited parts.positive
  have reached := RunM.Rounds.passesTo contexts same parts.rounds
  cases live : versioner.config.has .liveRound with
  | true => exact .rested reached joined (reached.liveRound contexts (parts.live live))
  | false =>
      have ended : RunM.PassesTo view { config := versioner.config, body := other } seeded
        (total + 0) settled := reached
      rw [parts.dead live]
      exact .rested reached joined ended

/-- Both runs end like passes over the body in which all other variables share one slot. -/
private theorem Parts.same {left right otherSeeded otherSettled : RunState} {otherTotal : Nat}
    (parts : Parts versioner first seeded total settled left)
    (valid : versioner.config.validate = .ok ()) (ordinary : 0 ≤ slot)
    (unshared : first.Unshared) (varies : first.VariesBeside slot second)
    (otherParts : Parts versioner second otherSeeded otherTotal otherSettled right) :
    (first.view versioner.config slot ordinary).Same first.graph left right := by
  have isolated := first.variesBeside_isolated slot
  rcases parts.seeds with ⟨entry, isEntry, seeds⟩
  rcases otherParts.seeds with ⟨otherEntry, otherIsEntry, otherSeeds⟩
  rw [varies.graph, isEntry] at otherIsEntry
  cases otherIsEntry
  rw [varies.seeding, varies.start, seeds] at otherSeeds
  cases otherSeeds
  have matching := isolated.arenas versioner.config ordinary
  have otherMatching := (varies.arenas versioner.config ordinary).symm.trans matching
  have founded := RunM.founded_seeding entry _ _ _ (founded_start valid first) seeds
  have same : (first.view versioner.config slot ordinary).Same first.graph seeded seeded :=
    .of_unvisited parts.unvisited founded
  rw [← isolated.seeding, ← isolated.start] at seeds
  have resting : RunM.Resting { config := versioner.config, body := first.isolated slot } ∅ seeded :=
    RunM.resting_seeded valid isEntry seeds
  have contexts := Context.Matches.of_arenas (matching.symm.trans matching) rfl
    unshared.noShortPaths fun name known =>
      (Body.course_matches matching rfl name).unstuck (parts.unstuck unshared name known)
  have ends := parts.endsLike rfl unshared matching rfl same
  have otherEnds := otherParts.endsLike rfl (varies.unshared unshared) otherMatching
    varies.graph.symm (varies.graph ▸ same)
  exact ends.same (unshared.regular_isolated ordinary) contexts resting otherEnds

/-- Runs of bodies that vary beside a slot end with states that show the same of the slot. -/
private theorem same_of_variesBeside (valid : versioner.config.validate = .ok ())
    (ordinary : 0 ≤ slot) (unshared : first.Unshared) (varies : first.VariesBeside slot second)
    (success : (versioner.run first).outcome = .ok ())
    (otherSuccess : (versioner.run second).outcome = .ok ()) :
    ∃ left right, versioner.run first = finish versioner.config first left (.ok ()) ∧
      versioner.run second = finish versioner.config second right (.ok ()) ∧
      (first.view versioner.config slot ordinary).Same first.graph left right := by
  have sameStart := varies.start versioner.config
  cases found : first.graph.entry with
  | none =>
      rcases run_ok success with ⟨-, validBody, -, -⟩
      rcases run_ok otherSuccess with ⟨-, otherValid, -, -⟩
      rcases run_of_noEntry versioner validBody found with ⟨left, -, aside, result⟩
      rcases run_of_noEntry versioner otherValid (varies.graph ▸ found) with
        ⟨right, -, otherAside, otherResult⟩
      rw [sameStart] at otherAside
      have same : (first.view versioner.config slot ordinary).Same first.graph
          (start versioner.config first) (start versioner.config first) :=
        .of_unvisited (unvisited_start _ _) (founded_start valid first)
      exact ⟨left, right, result, otherResult, (same.aside otherAside).aside_left aside⟩
  | some entry =>
      rcases parts_of_run success found with ⟨seeded, total, settled, left, parts⟩
      rcases parts_of_run otherSuccess (varies.graph ▸ found) with
        ⟨otherSeeded, otherTotal, otherSettled, right, otherParts⟩
      exact ⟨left, right, parts.result, otherParts.result,
        parts.same valid ordinary unshared varies otherParts⟩

/-- In a result every variable has the version that was written for it. -/
private theorem access?_finish {config : Config} {state : RunState} {outcome : Except Fault Unit}
    (expression : ExprId) :
    (finish config body state outcome).body.arena.access? expression =
      (body.arena.access? expression).map fun access =>
        { access with version := state.version expression } := by
  unfold finish Arena.withVersions Arena.access? Arena.get?
  dsimp only
  rw [Array.getElem?_mapIdx]
  cases body.arena.exprs[expression]? with
  | none => rfl
  | some expr => cases expr <;> rfl

private theorem accesses_finish {config : Config} {ordinary : 0 ≤ slot} {left right : RunState}
    {outcome otherOutcome : Except Fault Unit} (varies : first.VariesBeside slot second)
    (agrees : (first.view config slot ordinary).Agrees left right) (expression : ExprId)
    (access : VariableAccess) (here : access.slot = slot) :
    (finish config first left outcome).body.arena.access? expression = some access ↔
      (finish config second right otherOutcome).body.arena.access? expression = some access := by
  have version (original : VariableAccess) (same : original.slot = slot)
      (stored : first.arena.access? expression = some original) :
      left.version expression = right.version expression :=
    agrees.version expression ⟨_, congrArg (Option.map _) stored, same⟩
  rw [access?_finish, access?_finish, Option.map_eq_some_iff, Option.map_eq_some_iff]
  constructor
  · rintro ⟨original, stored, rfl⟩
    refine ⟨original, (varies.access?_iff expression original here).2 stored, ?_⟩
    rw [version original here stored]
  · rintro ⟨original, stored, rfl⟩
    have stored := (varies.access?_iff expression original here).1 stored
    refine ⟨original, stored, ?_⟩
    rw [version original here stored]

/-- Slots do not influence each other. When the runs of two bodies that differ in the slots of other
variables both succeed, they say the same about the variable of a slot. -/
theorem agreesOn_of_variesBeside (valid : versioner.config.validate = .ok ()) (ordinary : 0 ≤ slot)
    (unshared : first.Unshared) (varies : first.VariesBeside slot second)
    (success : (versioner.run first).outcome = .ok ())
    (otherSuccess : (versioner.run second).outcome = .ok ()) :
    RunResult.AgreesOn slot (versioner.run first) (versioner.run second) := by
  rcases same_of_variesBeside valid ordinary unshared varies success otherSuccess with
    ⟨left, right, result, otherResult, same⟩
  rw [result, otherResult]
  exact {
    accesses := accesses_finish varies same.toAgrees
    last := same.last
    merged := same.merged
    graph := by
      have graphs := same.graph
      unfold finish
      dsimp only
      generalize left.tables.graph = graph at graphs ⊢
      generalize right.tables.graph = otherGraph at graphs ⊢
      cases graphs with
      | none => exact .none
      | some agree => exact .some agree.outline
    inFacts := same.stores.inFacts
    outFacts := same.stores.outFacts
    negativeFacts := same.stores.negativeFacts }

end Versioner

/-! ## Two loops -/

/-- A loop that reads and assigns one variable, and reads a second one and assigns a third. -/
def Body.pairing (second third : Slot) : Body where
  arena.exprs := #[.variable { slot := 0 }, .variable { slot := second }, .variable { slot := 0 },
    .literal .null, .assignment 2 3 none, .variable { slot := third }, .literal .null,
    .assignment 5 6 none]
  graph.nodes := #[
    { kind := .direct, statement := 0, expressions := [0, 1], predecessors := [1]
      successors := [1] },
    { kind := .direct, statement := 0, expressions := [4, 7], predecessors := [0]
      successors := [0] }]
  graph.entry := some 0
  signature.isStatic := true

private theorem Body.built_pairing (second third : Slot) : (pairing second third).graph.Built := by
  have nodes : FlowGraph.Built _ := (FlowGraph.Built.empty.addNode .direct 0).addNode .direct 0
  have first := @FlowGraph.Built.appendExpression _ _ nodes 0 0 rfl
  have read := @FlowGraph.Built.appendExpression _ _ first 0 1 rfl
  have reassigned := @FlowGraph.Built.appendExpression _ _ read 1 4 rfl
  have assigned := @FlowGraph.Built.appendExpression _ _ reassigned 1 7 rfl
  have onward := @FlowGraph.Built.connect _ _ assigned 0 1 rfl
  exact @FlowGraph.Built.connect _ _ onward 1 0 rfl

private theorem Body.unshared_pairing : (pairing 1 1).Unshared where
  built := built_pairing 1 1
  usedOnce := by decide
  noShortPaths := fun _ => ExtTreeMap.getElem?_empty
  noExtraNodes := fun _ => ExtTreeSet.contains_empty

private theorem Body.variesBeside_pairing : (pairing 1 1).VariesBeside 0 (pairing 1 2) where
  statements := rfl
  graph := rfl
  signature := rfl
  exprs := by
    have varies : Expr.VariesBeside 0 (.variable { slot := 1 }) (.variable { slot := 2 }) :=
      .variable { slot := 1 } 2 (by decide) (by decide)
    exact .cons (.same _) (.cons (.same _) (.cons (.same _) (.cons (.same _) (.cons (.same _)
      (.cons varies (.cons (.same _) (.cons (.same _) .nil)))))))

/-- Whether or not the variable that is assigned is the one that is read, the same happens to the
variable that is both. -/
theorem Versioner.agreesOn_pairing :
    RunResult.AgreesOn 0 (Config.usage.versioner.run (.pairing 1 1))
      (Config.usage.versioner.run (.pairing 1 2)) :=
  agreesOn_of_variesBeside (by decide) (by decide) Body.unshared_pairing Body.variesBeside_pairing
    (by decide +kernel) (by decide +kernel)

end SlotVersioning
