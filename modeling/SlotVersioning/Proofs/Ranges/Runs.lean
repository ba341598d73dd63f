import SlotVersioning.Proofs.Course.Stuck
import SlotVersioning.Proofs.Landing.Entering
import SlotVersioning.Proofs.Ranges.Keeping
import SlotVersioning.Proofs.Statement.Protection

/-!
# Ranges after runs

After a successful run with usage versions and protected ranges, the version of a visited site and
the phi inputs that feed it have the innermost range that protects the site's statement, and the
variable of a handler has the innermost one that protects the statement of the handler
(`ranges_of_run`). Parameters and phantoms have none. A phi input that was unlinked keeps its range.
-/

namespace SlotVersioning

open Std VersionGraph RunM

/-! ## Seeding -/

/-- The root is protected by nothing. -/
private theorem StatementTree.protector?_root {tree : StatementTree} (grown : tree.Grown) :
    tree.protector? root = none := by
  have innermost := innermost_protector? grown root
  cases protects : tree.protector? root with
  | none => rfl
  | some protector =>
      rw [protects] at innermost
      exact absurd innermost.1
        (grown.sound.not_protects_of_no_parent grown.sound.parent?_root)

/-- Just these landings happened so far, and have the ranges that they bring. -/
structure Allotted (body : Body) (landings : List Landing) (state : RunState) : Prop
    extends Landed landings state where
  ranged : state.Ranged
  guests : ∀ index landing, landings[index]? = some landing → ∀ slot ∈ landing.slots,
    state.tables.range? ⟨slot, landedVersion landings index slot⟩ = body.guestRange landing.guest
  others : ∀ key range, state.tables.range? key = some range →
    ∃ index landing, landings[index]? = some landing ∧ key.slot ∈ landing.slots ∧
      key.version = landedVersion landings index key.slot

namespace Allotted

variable {body : Body} {landings : List Landing} {landing : Landing} {before after : RunState}

/-- A landing gives its range to the next versions of its slots. -/
theorem concat (allotted : Allotted body landings before)
    (landed : Landed (landings ++ [landing]) after) (recorded : after.tables.ranges.isSome)
    (ranges : ∀ key, after.tables.range? key =
      if key.slot ∈ landing.slots ∧ key.version = before.last key.slot + 1 then
        body.guestRange landing.guest
      else before.tables.range? key) : Allotted body (landings ++ [landing]) after := by
  have last (slot : Slot) : after.last slot = before.last slot + landing.slots.count slot := by
    rw [landed.last, allotted.last, List.flatMap_append, List.count_append, List.flatMap_singleton]
  have newest (slot : Slot) :
      landedVersion (landings ++ [landing]) landings.length slot = before.last slot + 1 := by
    rw [landedVersion_append (Nat.le_refl _), landedVersion, List.take_length, allotted.last]
  have earlier {index : Nat} {other : Landing} (lands : landings[index]? = some other)
      (slot : Slot) :
      landedVersion (landings ++ [landing]) index slot = landedVersion landings index slot :=
    landedVersion_append (Nat.le_of_lt (List.getElem?_eq_some_iff.1 lands).1) _
  refine ⟨landed, ⟨recorded, fun key beyond => ?_⟩, fun index other lands slot inside => ?_,
    fun key range found => ?_⟩
  · rw [last] at beyond
    rw [ranges, if_neg]
    · exact allotted.ranged.unnumbered key (Nat.lt_of_le_of_lt (Nat.le_add_right _ _) beyond)
    · rintro ⟨inside, next⟩
      have counted : 0 < landing.slots.count key.slot := List.count_pos_iff.2 inside
      rw [next] at beyond
      exact absurd beyond (Nat.not_lt_of_le (Nat.add_le_add_left counted _))
  · rw [ranges]
    rcases getElem?_concat.1 lands with old | ⟨rfl, rfl⟩
    · have bounded := landedVersion_le old inside
      rw [← allotted.last] at bounded
      rw [earlier old, if_neg fun both => absurd both.2 (Nat.ne_of_lt (Nat.lt_succ_of_le bounded))]
      exact allotted.guests index other old slot inside
    · rw [newest, if_pos ⟨inside, rfl⟩]
  · rw [ranges] at found
    split at found
    · next lands =>
        refine ⟨landings.length, landing, getElem?_concat.2 (.inr ⟨rfl, rfl⟩), lands.1, ?_⟩
        rw [newest]
        exact lands.2
    · rcases allotted.others key range found with ⟨index, other, lands, inside, same⟩
      exact ⟨index, other, getElem?_concat.2 (.inl lands), inside, same.trans (earlier lands _).symm⟩

theorem start {config : Config} (protects : config.has .protectedRanges = true) :
    Allotted body [] (Versioner.start config body) := by
  have recorded : (Versioner.start config body).tables.ranges = some ∅ := if_pos protects
  have nothing (key : VersionKey) : (Versioner.start config body).tables.range? key = none := by
    unfold Tables.range?
    rw [recorded]
    exact ExtTreeMap.getElem?_empty
  exact ⟨landed_start config body, ⟨Option.isSome_iff_exists.2 ⟨_, recorded⟩, fun key _ => nothing key⟩,
    fun _ _ lands => (nomatch lands), fun key _ found => nomatch (nothing key).symm.trans found⟩

end Allotted

namespace RunM

variable {context : Context} {landings : List Landing} {statement : StatementId}
  {state final : RunState}

/-- What is seeded for a statement that nothing protects gets no range. -/
private theorem seedVersions_ranges {slots : List Slot} {facts result : Facts}
    (exposed : context.body.statements.protector? statement = none)
    (run : slots.foldlM (seedVersion context statement) facts state = .ok result final) :
    final.tables.ranges = state.tables.ranges := by
  refine foldlM_induction (motive := fun _ _ middle => middle.tables.ranges = state.tables.ranges) 0
    (fun _ slot _ _ before after _ same stepped => ?_) run rfl
  cases stepped
  refine Eq.trans ?_ same
  change (before.tables.mint context.body.statements slot (some statement)).1.ranges = _
  unfold Tables.mint
  rw [Option.bind_some, exposed]

private theorem seedHandler_allotted {slots : List Slot} {handler : StatementId × Nat}
    (allotted : Allotted context.body landings state)
    (run : seedHandler context statement slots handler state = .ok () final) :
    Allotted context.body (landings ++ context.body.handlerLanding statement slots handler)
      final := by
  have landed := seedHandler_landed allotted.toLanded run
  rcases seedHandler_ok run with ⟨slot, node, facts, middle, listed, start, minted, stores⟩
  have startBody : context.body.graph.statementStart? handler.1 = some node := start
  have lands : context.body.handlerLanding statement slots handler =
      [⟨.handler statement handler.2, node, [slot]⟩] := by
    unfold Body.handlerLanding
    simp only [listed, startBody]
  rw [lands] at landed ⊢
  cases minted
  cases stores
  refine allotted.concat landed ?_ fun key => ?_
  · exact (recorded_mint state.tables context.body.statements slot (some statement)).trans
      allotted.ranged.recorded
  · refine (range?_mint allotted.ranged key).trans (if_congr ?_ rfl rfl)
    rcases key with ⟨other, version⟩
    simp only [VersionKey.mk.injEq, List.mem_singleton]
    exact and_congr_right fun same => by rw [same]

private theorem seedHandlers_allotted (allotted : Allotted context.body landings state)
    (run : seedHandlers context statement state = .ok () final) :
    Allotted context.body (landings ++ context.body.handlerLandings statement) final := by
  unfold Body.handlerLandings
  rcases seedHandlers_ok run with ⟨handles, rfl⟩ | ⟨slots, handles, run⟩
  · simp only [handles]
    rw [List.append_nil]
    exact allotted
  · simp only [handles]
    exact forM_appends run (fun _ _ _ _ allotted run => seedHandler_allotted allotted run) allotted

private theorem seedParameters_allotted {config : Config} {body : Body} {entry : NodeId}
    (protects : config.has .protectedRanges = true) (grown : body.statements.Grown)
    (run : seedParameters { config, body } entry (Versioner.start config body) = .ok () final) :
    Allotted body [⟨.parameters, entry, body.signature.arrivalSlots⟩] final := by
  have landed := seedParameters_landed run
  have begun : Allotted body [] (Versioner.start config body) := .start protects
  rcases bind_ok run with ⟨facts, minted, mints, stores⟩
  have same := seedVersions_ranges (StatementTree.protector?_root grown) mints
  cases stores
  refine begun.concat landed ?_ fun key => ?_
  · exact same ▸ begun.ranged.recorded
  · have kept : minted.tables.range? key = (Versioner.start config body).tables.range? key := by
      unfold Tables.range?
      rw [same]
    refine kept.trans ?_
    split
    · next lands =>
        refine begun.ranged.unnumbered key ?_
        rw [lands.2]
        exact Nat.lt_succ_self _
    · rfl

/-- After the seeding of a run all landings have the ranges that they bring. -/
private theorem allotted_of_seeding {config : Config} {body : Body} {entry : NodeId}
    {seeded : RunState} (protects : config.has .protectedRanges = true)
    (grown : body.statements.Grown) (isEntry : body.graph.entry = some entry)
    (seeds : seeding { config, body } entry (Versioner.start config body) = .ok () seeded) :
    Allotted body body.landings seeded := by
  rcases bind_ok seeds with ⟨_, middle, parameters, handlers⟩
  have first := seedParameters_allotted protects grown parameters
  rw [Body.landings_of_entry isEntry]
  exact forM_appends handlers (motive := Allotted body)
    (fun _ _ _ _ allotted run => seedHandlers_allotted allotted run) first

end RunM

/-- Before the first round just the landings have ranges. -/
private theorem Versioner.Begins.allots {config : Config} {body : Body} {state : RunState}
    (begins : Begins config body state) (protects : config.has .protectedRanges = true)
    (grown : body.statements.Grown) : body.Allots state := by
  have entering := begins.entering
  have allotted : Allotted body body.landings state := by
    cases begins with
    | bare noEntry =>
        unfold Body.landings
        rw [noEntry]
        exact .start protects
    | seeded isEntry seeds => exact allotted_of_seeding protects grown isEntry seeds
  refine ⟨allotted.ranged, fun slot => Nat.le_of_eq (allotted.last slot).symm, allotted.guests,
    fun statement target _ versioned => absurd (entering.version target.expression) versioned, ?_,
    fun input isInput => absurd isInput (entering.inputs input),
    fun key range found => .inl (allotted.others key range found)⟩
  intro owner phantom found
  exact nomatch (entering.phantoms owner).symm.trans found

/-! ## Whole runs -/

/-- The recorded ranges after a run with usage versions. -/
structure RunResult.Ranges (result : RunResult) (body : Body) (graph : VersionGraph) : Prop where
  stored : result.versioner.tables.graph = some graph
  recorded : result.versioner.tables.ranges.isSome
  /-- A visited site has the range of its statement. -/
  sites : ∀ statement target, body.VisitsAt statement target →
    body.statements.Innermost statement (result.versioner.tables.range?
      ⟨target.slot, result.version target.expression⟩)
  /-- So has every phi input that feeds it. -/
  feeding : ∀ statement target, body.VisitsAt statement target →
    ∀ input ∈ graph.predecessors ⟨target.slot, result.version target.expression⟩,
      graph.origin? input = some .phiInput →
        body.statements.Innermost statement (result.versioner.tables.range? input)
  /-- The variable of a handler has the range of the statement of the handler. -/
  handlers : body.graph.entry.isSome → ∀ statement slots,
    ((body.statements.get? statement).bind fun stored => stored.kind.handlerSlots?) = some slots →
    ∀ position child, (body.statements.children statement)[position + 1]? = some child →
      ∃ (slot : Slot) (node : NodeId) (index : Nat),
        body.Handles statement position slot node ∧
        body.landings[index]? = some ⟨.handler statement position, node, [slot]⟩ ∧
        body.statements.Innermost statement
          (result.versioner.tables.range? ⟨slot, landedVersion body.landings index slot⟩)
  parameters : body.graph.entry.isSome → ∀ slot ∈ body.signature.arrivalSlots,
    result.versioner.tables.range? ⟨slot, 1⟩ = none
  phantoms : ∀ key phantom, result.versioner.tables.phantom? key = some phantom →
    result.versioner.tables.range? phantom = none
  /-- A phi input feeds one site at most, and has its range even if it was unlinked. -/
  inputs : ∀ input, graph.origin? input = some .phiInput →
    ∃ statement target, body.VisitsAt statement target ∧ target.slot = input.slot ∧
      body.statements.Innermost statement (result.versioner.tables.range? input) ∧
      ∀ key, input ∈ graph.predecessors key →
        key = ⟨target.slot, result.version target.expression⟩
  /-- Nothing else has a range. -/
  others : ∀ key range, result.versioner.tables.range? key = some range →
    (∃ (statement : StatementId) (position index : Nat) (slot : Slot) (node : NodeId),
      body.Handles statement position slot node ∧
      body.landings[index]? = some ⟨.handler statement position, node, [slot]⟩ ∧
      key = ⟨slot, landedVersion body.landings index slot⟩) ∨
    graph.origin? key = some .phiInput ∨
    ∃ statement target, body.VisitsAt statement target ∧
      key = ⟨target.slot, result.version target.expression⟩

/-- A phi input among the predecessors of a version leads into it. -/
private theorem VersionGraph.Sound.leadsInto_of_predecessors {graph : VersionGraph}
    (sound : graph.Sound) {input key : VersionKey} (listed : input ∈ graph.predecessors key)
    (isInput : graph.origin? input = some .phiInput) : graph.LeadsInto input key := by
  rcases sound.consistent.identity_of_listed (.inl (List.ne_nil_of_mem listed)) with
    ⟨position, origin, found⟩
  rw [(sound.listed_at found).1, mem_keysAt] at listed
  rcases listed with ⟨way, edge, named⟩
  rcases Option.map_eq_some_iff.1 named with ⟨⟨_, created⟩, there, rfl⟩
  have same := (sound.origin?_of_has ⟨way, there⟩).symm.trans isInput
  cases same
  exact ⟨way, position, origin, there, found, edge⟩

/-- Usage versions with protected ranges, and nothing else. -/
def Config.protecting : Config where
  features := .ofList [.versionGraph, .usageVersions, .protectedRanges]

/-- A read in a `try` that three assignments reach. After the first round the copy of a `finally`
block lets one of them pass no more. -/
def Body.unlinking : Body where
  arena.exprs := #[.literal .null, .variable { slot := 0 }, .assignment 1 0 none, .literal .null,
    .variable { slot := 0 }, .assignment 4 3 none, .literal .null, .variable { slot := 0 },
    .assignment 7 6 none, .variable { slot := 0 }]
  statements.statements := #[{ kind := .root, children := [1] },
    { kind := .tryCatch [], parent := some 0, children := [2] },
    { kind := .basic, parent := some 1 }]
  graph.nodes := #[
    { kind := .direct, statement := 0, expressions := [2], predecessors := [6],
      successors := [3, 6] },
    { kind := .direct, statement := 0, expressions := [5], successors := [3] },
    { kind := .direct, statement := 0, expressions := [8], successors := [3] },
    { kind := .direct, statement := 0, predecessors := [0, 1, 2], successors := [4] },
    { kind := .direct, statement := 0, predecessors := [3], successors := [5] },
    { kind := .direct, statement := 2, expressions := [9], predecessors := [4] },
    { kind := .direct, statement := 0, predecessors := [0], successors := [0] }]
  graph.entry := some 0
  graph.shortPaths := ((∅ : ExtTreeMap NodeId (List FinallyPath)).insert 4 [⟨3, 5, 1⟩]).insert 3
    [⟨6, 4, 1⟩]
  graph.monitorExits := (∅ : ExtTreeMap NodeId NodeId).insert 4 0
  signature.isStatic := true

theorem Body.grown_unlinking : Body.unlinking.statements.Grown := by
  have grows {tree next : StatementTree} (grown : tree.Grown) (parent child : StatementId)
      (kind : StatementKind) (added : tree.add parent kind = .ok (next, child)) : next.Grown :=
    .add grown added
  exact grows (grows .root 0 1 (.tryCatch []) rfl) 1 2 .basic rfl

private theorem Body.acyclic_unlinking : Body.unlinking.arena.Acyclic :=
  Arena.acyclic_of_all (by decide)

namespace Versioner

/-- Landings of handlers are those of `Body.Handles`. -/
private theorem handles_of_lands {body : Body} {index : Nat} {statement : StatementId}
    {position : Nat} {node : NodeId} {slots : List Slot}
    (lands : body.landings[index]? = some ⟨.handler statement position, node, slots⟩) :
    ∃ slot, slots = [slot] ∧ body.Handles statement position slot node := by
  have member := List.mem_of_getElem? lands
  unfold Body.landings at member
  split at member
  · exact nomatch member
  · rcases List.mem_cons.1 member with same | later
    · exact nomatch same
    · rcases List.mem_flatMap.1 later with ⟨other, -, handled⟩
      rcases Body.handles_of_landing handled with ⟨_, slot, _, handles, same⟩
      cases same
      exact ⟨slot, rfl, handles⟩

/-- A landing that brings a range is the landing of a handler. -/
private theorem handler_of_guestRange {body : Body} {index : Nat} {landing : Landing} {slot : Slot}
    {range : StatementId} (lands : body.landings[index]? = some landing)
    (inside : slot ∈ landing.slots) (brought : body.guestRange landing.guest = some range) :
    ∃ statement position node, body.Handles statement position slot node ∧
      landing = ⟨.handler statement position, node, [slot]⟩ := by
  rcases landing with ⟨guest, node, slots⟩
  cases guest with
  | parameters => exact nomatch brought
  | handler statement position =>
      rcases handles_of_lands lands with ⟨_, rfl, handles⟩
      obtain rfl := List.mem_singleton.1 inside
      exact ⟨statement, position, node, handles, rfl⟩

/-- After a successful run every handler has landed. -/
private theorem handler_lands_of_run {versioner : Versioner} {body : Body}
    (grown : body.statements.Grown) (success : (versioner.run body).outcome = .ok ())
    (entered : body.graph.entry.isSome) {statement child : StatementId} {position : Nat}
    {slots : List Slot}
    (handles : ((body.statements.get? statement).bind fun stored => stored.kind.handlerSlots?) =
      some slots)
    (isHandler : (body.statements.children statement)[position + 1]? = some child) :
    ∃ (slot : Slot) (node : NodeId) (index : Nat), body.Handles statement position slot node ∧
      body.landings[index]? = some ⟨.handler statement position, node, [slot]⟩ := by
  rcases Option.isSome_iff_exists.1 entered with ⟨entry, isEntry⟩
  rcases parts_of_run success isEntry with ⟨seeded, total, settled, after, parts⟩
  rcases parts.seeds with ⟨same, isSame, seeds⟩
  obtain rfl : entry = same := Option.some.inj (isEntry.symm.trans isSame)
  rcases RunM.handler_lands grown isEntry seeds handles isHandler with ⟨slot, node, handled, lands⟩
  rcases List.mem_iff_getElem?.1 lands with ⟨index, found⟩
  exact ⟨slot, node, index, handled, found⟩

/-- With usage versions and protected ranges, versions of visited sites and what feeds them have the
innermost range that protects the statement of the site. So have the versions of handlers, for the
statement of the handler. Nothing else has a range, except for phi inputs that were unlinked. -/
theorem ranges_of_run {versioner : Versioner} {body : Body}
    (valid : versioner.config.validate = .ok ())
    (usage : versioner.config.has .usageVersions = true)
    (protects : versioner.config.has .protectedRanges = true) (usedOnce : body.uses.Nodup)
    (ordinary : ∀ expression target, body.arena.site? expression = some target → 0 ≤ target.slot)
    (grown : body.statements.Grown) (success : (versioner.run body).outcome = .ok ()) :
    ∃ graph, (versioner.run body).Ranges body graph := by
  rcases upheld_of_run (upholds_ranges usedOnce ordinary usage) (fun state begins =>
      begins.entering.kept.imp fun accounts =>
        ⟨⟨accounts, begins.shaped valid usage _⟩, begins.allots protects grown⟩)
    success with ⟨final, result, all⟩
  have kept := all.imp fun all => all.1.1
  have allots := all.holds.2
  rcases all.holds.1.2 with ⟨graph, stored, shaped⟩
  have innermost (statement : StatementId) := StatementTree.innermost_protector? grown statement
  have versioned (statement : StatementId) (target : VariableSite)
      (visits : body.VisitsAt statement target) :
      final.version target.expression ≠ 0 := by
    rcases visits with ⟨name, place, -, member, isSite⟩
    exact (visited_of_kept kept ⟨name, member⟩ isSite).2
  have version (statement : StatementId) (target : VariableSite)
      (visits : body.VisitsAt statement target) :
      (versioner.run body).version target.expression = final.version target.expression := by
    rw [result]
    exact version_finish visits.known
  have tables : (versioner.run body).versioner.tables = final.tables := by
    rw [result]
    rfl
  have isInput (input : VersionKey) (created : graph.origin? input = some .phiInput) :
      final.tables.HasInput input := ⟨graph, stored, shaped.sound.has_of_origin created⟩
  have leads (input key : VersionKey) (created : graph.origin? input = some .phiInput)
      (listed : input ∈ graph.predecessors key) : final.tables.LeadsInto input key :=
    ⟨graph, stored, shaped.sound.leadsInto_of_predecessors listed created⟩
  refine ⟨graph, ?_⟩
  constructor
  case stored => exact tables ▸ stored
  case recorded => exact tables ▸ allots.ranged.recorded
  case sites =>
    intro statement target visits
    rw [version statement target visits, tables,
      allots.sites statement target visits (versioned statement target visits)]
    exact innermost statement
  case feeding =>
    intro statement target visits input listed created
    rw [version statement target visits] at listed
    rcases allots.inputs input (isInput input created) with ⟨other, site, feeds⟩
    -- A version has one owner, so the input was numbered for this site.
    have same := feeds.leads _ (leads input _ created listed)
    have owns := visits.owns usage (versioned statement target visits)
    rw [same] at owns
    have one := all.holds.1.1.ledger.unique _ _ _ owns (feeds.visits.owns usage feeds.versioned)
    rw [tables, feeds.range, ← (visits.unique usedOnce feeds.visits (Owner.site.inj one)).1]
    exact innermost statement
  case handlers =>
    intro entered statement slots handles position child isHandler
    rcases handler_lands_of_run grown success entered handles isHandler with
      ⟨slot, node, index, handled, found⟩
    refine ⟨slot, node, index, handled, found, ?_⟩
    rw [tables, allots.guests index _ found slot (List.mem_singleton.2 rfl)]
    exact innermost statement
  case parameters =>
    intro entered slot member
    rcases Option.isSome_iff_exists.1 entered with ⟨entry, isEntry⟩
    have first : body.landings[0]? = some ⟨.parameters, entry, body.signature.arrivalSlots⟩ := by
      rw [Body.landings_of_entry isEntry]
      rfl
    rw [tables]
    exact allots.guests 0 _ first slot member
  case phantoms =>
    rw [tables]
    exact allots.phantoms
  case inputs =>
    intro input created
    rcases allots.inputs input (isInput input created) with ⟨statement, target, feeds⟩
    refine ⟨statement, target, feeds.visits, feeds.slot, ?_, fun key listed => ?_⟩
    · rw [tables, feeds.range]
      exact innermost statement
    · rw [version statement target feeds.visits]
      exact feeds.leads key (leads input key created listed)
  case others =>
    intro key range found
    rw [tables] at found
    rcases allots.others key range found with
      ⟨index, landing, lands, inside, same⟩ | known | ⟨statement, target, visits, -, rfl⟩
    · rcases key with ⟨slot, number⟩
      obtain rfl : number = landedVersion body.landings index slot := same
      have brought := (allots.guests index landing lands slot inside).symm.trans found
      rcases handler_of_guestRange lands inside brought with
        ⟨statement, position, node, handles, rfl⟩
      exact .inl ⟨statement, position, index, slot, node, handles, lands, rfl⟩
    · rcases known with ⟨other, otherStored, has⟩
      rw [stored] at otherStored
      cases otherStored
      exact .inr (.inl (shaped.sound.origin?_of_has has))
    · exact .inr (.inr ⟨statement, target, visits, by rw [version statement target visits]⟩)

/-- The version `(0, 5)` of `unlinking` has a range, but no visited site has it, and it leads into
none. -/
theorem outcome_unlinking :
    (Config.protecting.versioner.run .unlinking).outcome = .ok () ∧
    (Config.protecting.versioner.run .unlinking).versioner.tables.range? ⟨0, 5⟩ = some 1 ∧
    ∀ expression < 10, ((Body.unlinking.arena.site? expression).all fun target =>
      (Config.protecting.versioner.run .unlinking).version expression != 5 &&
        (Config.protecting.versioner.run .unlinking).versioner.tables.graph.all fun graph =>
          !(graph.predecessors ⟨target.slot,
            (Config.protecting.versioner.run .unlinking).version expression⟩).contains ⟨0, 5⟩) =
      true := by
  decide +kernel

theorem ranges_unlinking :
    Body.unlinking.uses.Nodup ∧
      ∃ graph, (Config.protecting.versioner.run .unlinking).Ranges .unlinking graph :=
  ⟨by decide, ranges_of_run
    (show Config.protecting.versioner.config.validate = .ok () from rfl)
    (show Config.protecting.versioner.config.has _ = true from rfl)
    (show Config.protecting.versioner.config.has _ = true from rfl) (by decide)
    (Body.ordinary_of_all rfl) Body.grown_unlinking outcome_unlinking.1⟩

/-- A phi input of `unlinking` was unlinked and has a range nevertheless. -/
theorem range_left :
    ¬ ∀ (versioner : Versioner) (body : Body), versioner.config.validate = .ok () →
      versioner.config.has .usageVersions = true → versioner.config.has .protectedRanges = true →
      body.arena.Acyclic → body.uses.Nodup →
      (∀ expression target, body.arena.site? expression = some target → 0 ≤ target.slot) →
      body.statements.Grown → (versioner.run body).outcome = .ok () →
        ∀ key range, (versioner.run body).versioner.tables.range? key = some range →
          (∃ (statement : StatementId) (position index : Nat) (slot : Slot) (node : NodeId),
            body.landings[index]? = some ⟨.handler statement position, node, [slot]⟩ ∧
            key = ⟨slot, landedVersion body.landings index slot⟩) ∨
          ∃ statement target, body.VisitsAt statement target ∧
            (key = ⟨target.slot, (versioner.run body).version target.expression⟩ ∨
              ∃ graph, (versioner.run body).versioner.tables.graph = some graph ∧
                key ∈ graph.predecessors
                  ⟨target.slot, (versioner.run body).version target.expression⟩) := by
  intro claim
  rcases outcome_unlinking with ⟨success, found, apart⟩
  have landings : Body.unlinking.landings = [⟨.parameters, 0, []⟩] := by
    decide
  rcases claim Config.protecting.versioner .unlinking rfl rfl rfl Body.acyclic_unlinking
      (by decide) (Body.ordinary_of_all rfl) Body.grown_unlinking success
      ⟨0, 5⟩ 1 found with handled | ⟨statement, target, visits, leads⟩
  · rcases handled with ⟨statement, position, index, slot, node, lands, -⟩
    rw [landings] at lands
    exact nomatch List.mem_singleton.1 (List.mem_of_getElem? lands)
  · have known := visits.known
    have inside : target.expression < 10 := by
      rcases Option.map_eq_some_iff.1 known with ⟨access, stored, -⟩
      rcases Option.bind_eq_some_iff.1 stored with ⟨expr, present, -⟩
      exact (Array.getElem?_eq_some_iff.1 present).1
    specialize apart target.expression inside
    rw [known, Option.all_some, Bool.and_eq_true, bne_iff_ne] at apart
    rcases leads with same | ⟨graph, stored, listed⟩
    · exact apart.1 (VersionKey.mk.inj same).2.symm
    · have outside := apart.2
      rw [stored, Option.all_some, Bool.not_eq_true', List.contains_eq_mem,
        decide_eq_false_iff_not] at outside
      exact outside listed

end Versioner

end SlotVersioning
