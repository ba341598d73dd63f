import SlotVersioning.Proofs.Landing.Order
import SlotVersioning.Proofs.Pass.Upholding
import SlotVersioning.Proofs.Run.Renewal
import SlotVersioning.Proofs.Trace.Execution

/-!
# What enters

After a run the seeds of a node are part of what enters it (`Seated`). The version of a landing that
was replaced by a later one at its node enters nowhere, because every other version was minted after
all landings (`Body.Knows`). So what landed enters exactly if nothing landed later at its node
(`Versioner.guests_of_run`).
-/

namespace SlotVersioning

open Std

namespace RunM

/-! ## Seeds enter -/

/-- The seeds are still in place, and those of the first nodes entered. -/
structure Seated (seeds : ExtTreeMap NodeId Facts) (count : Nat) (state : RunState) : Prop where
  seeds : state.tables.seeds = seeds
  entering : ∀ node < count, ∀ slot, ∀ version ∈ state.tables.seeded node slot,
    version ∈ state.tables.entering node slot

variable {context : Context} {live : Bool} {node : FlowNode} {name : NodeId}
  {seeds : ExtTreeMap NodeId Facts} {count : Nat} {dirty dirtyAfter : DirtyNodes}
  {before after : RunState}

/-- What arrives at a node includes its seeds. -/
private theorem arrive_seeded {facts : Facts} (run : arrive context name before = .ok facts after) :
    after = entered before name facts ∧
      ∀ slot, ∀ version ∈ before.tables.seeded name slot, version ∈ facts.reaching slot := by
  rcases arrive_parts run with ⟨joined, -, rfl, rfl⟩
  refine ⟨rfl, fun slot version member => ?_⟩
  rw [Facts.reaching_union, VersionSet.mem_union]
  exact .inr member

private theorem Seated.visit (seated : Seated seeds name before)
    (found : context.graph.node? name = some node)
    (run : RunM.visit context live dirty (node, name) before = .ok dirtyAfter after) :
    Seated seeds (name + 1) after := by
  rcases visit_parts found run with
    ⟨facts, enters, outcome, middle, changed, arrival, course, leaves⟩
  rcases arrive_seeded arrival with ⟨rfl, includes⟩
  have stores := (Course.run_frame course).stores
  have left := leave_ok leaves
  have sameSeeds : after.tables.seeds = before.tables.seeds := by
    rw [left.tables]
    exact congrArg Stores.seeds stores
  have inFacts : after.tables.inFacts = before.tables.inFacts.insert name facts := by
    rw [left.tables]
    exact congrArg Stores.inFacts stores
  have sameSeeded : after.tables.seeded = before.tables.seeded := by
    funext other slot
    unfold Tables.seeded
    rw [sameSeeds]
  refine ⟨sameSeeds.trans seated.seeds, fun other bound slot version member => ?_⟩
  rw [sameSeeded] at member
  unfold Tables.entering
  rw [inFacts, ExtTreeMap.getElem?_insert]
  by_cases here : other = name
  · rw [here] at member
    rw [if_pos (Std.compare_eq_iff_eq.2 here.symm)]
    exact includes slot version member
  · rw [if_neg fun same => here (Std.compare_eq_iff_eq.1 same).symm]
    exact seated.entering other (Nat.lt_of_le_of_ne (Nat.le_of_lt_succ bound) here) slot version
      member

private theorem seated_carries (context : Context) (seeds : ExtTreeMap NodeId Facts) :
    Carries context (Seated seeds) where
  restart := fun _ _ seated => ⟨seated.seeds, fun _ bound => absurd bound (Nat.not_lt_zero _)⟩
  visit := fun found seated run => seated.visit found run
  aside := by
    intro count before after seated aside
    refine ⟨aside.seeds.trans seated.seeds, fun node bound slot version member => ?_⟩
    rw [aside.seeded] at member
    unfold Tables.entering
    rw [aside.inFacts]
    exact seated.entering node bound slot version member

end RunM

/-! ## Nothing else enters -/

namespace Body

/-- The version is seeded somewhere, or it was minted after all landings. -/
def Knows (body : Body) (slot : Slot) (version : Version) : Prop :=
  (∃ node, SeededLast body.landings node slot version) ∨
    (body.landings.flatMap Landing.slots).count slot < version

/-- A version with which a slot landed is known only if nothing landed later at its node. -/
private theorem landsLast_of_knows {body : Body} {index : Nat} {landing : Landing} {slot : Slot}
    (lands : body.landings[index]? = some landing) (inside : slot ∈ landing.slots)
    (knows : body.Knows slot (landedVersion body.landings index slot)) :
    LandsLast body.landings index landing := by
  rcases knows with ⟨node, other, found, landed, landsLast, -, inOther, same⟩ | later
  · obtain rfl := landedVersion_injective lands landed inside inOther same
    rw [lands] at landed
    cases landed
    exact landsLast
  · exact absurd later (Nat.not_lt_of_le (landedVersion_le lands inside))

end Body

/-- Facts that hold known versions of variables only. -/
def Facts.KnownTo (body : Body) (facts : Facts) : Prop :=
  ∀ slot, 0 ≤ slot → ∀ version ∈ facts.reaching slot, body.Knows slot version

/-- All sites have known versions, and more than the landings is minted. -/
structure Body.Minting (body : Body) (state : RunState) : Prop where
  last : ∀ slot, (body.landings.flatMap Landing.slots).count slot ≤ state.last slot
  fields : state.FieldsNegative
  versions : ∀ expression target, body.arena.site? expression = some target → 0 ≤ target.slot →
    state.version expression ≠ 0 → body.Knows target.slot (state.version expression)

namespace RunM

variable {config : Config} {body : Body} {statement : StatementId} {place : Visit}
  {facts result : Facts}

/-- A visited site gets a known version when known ones reach it. -/
private theorem act_knows (minting : body.Minting before) (known : facts.KnownTo body)
    (run : place.act ({ config, body : Context }.site statement live) facts before =
      .ok result after)
    {target : VariableSite} (visits : place.site? = some target)
    (inside : body.arena.site? target.expression = some target) (ordinary : 0 ≤ target.slot) :
    body.Knows target.slot (after.version target.expression) := by
  have keeps (versioned : before.version target.expression ≠ 0)
      (kept : after.version target.expression = before.version target.expression) :
      body.Knows target.slot (after.version target.expression) := by
    rw [kept]
    exact minting.versions _ target inside ordinary versioned
  have mints (fresh : before.last target.slot < after.version target.expression) :
      body.Knows target.slot (after.version target.expression) :=
    .inr (Nat.lt_of_le_of_lt (minting.last target.slot) fresh)
  cases usage : config.has .usageVersions with
  | true =>
      have stamps := act_stamps run usage visits
      by_cases versioned : before.version target.expression = 0
      · exact mints (stamps.fresh versioned)
      · exact keeps versioned (stamps.kept versioned)
  | false =>
      cases act_renewal run usage visits with
      | adopts only reads alone adopted =>
          rw [adopted]
          exact known _ ordinary only (alone ▸ VersionSet.mem_singleton.2 rfl)
      | keeps owns versioned kept => exact keeps versioned kept
      | mints owns eligible fresh bounded => exact mints fresh

private theorem upholds_minting (config : Config) (body : Body) :
    Upholds { config, body } body.Minting (fun _ facts => facts.KnownTo body)
      fun _ _ => True where
  closed := fun _ => by
    refine ⟨fun slot _ version member => ?_, fun left right knownLeft knownRight slot ordinary
      version member => ?_, fun fewer more known below slot ordinary version member =>
        known slot ordinary version (below slot version member)⟩
    · rw [Facts.reaching_empty] at member
      exact absurd member (VersionSet.not_mem_empty version)
    · rw [Facts.reaching_union, VersionSet.mem_union] at member
      exact member.elim (knownLeft slot ordinary version) (knownRight slot ordinary version)
  act := by
    intro live statement name place facts result before after _ member minting known run
    have frame := act_frame run
    have inside (target : VariableSite) (visits : place.site? = some target) :=
      body.sitesIn_course name place member target visits
    refine ⟨⟨fun slot => Nat.le_trans (minting.last slot) (frame.last slot),
      frame.fields minting.fields, fun expression target found ordinary versioned => ?_⟩,
      fun slot ordinary version reaches => ?_, trivial, ⟨fun _ holds => holds, fun _ _ => trivial⟩⟩
    · by_cases written : expression ∈ place.written
      · rcases Visit.mem_written.1 written with ⟨other, visits, rfl⟩
        rw [inside other visits] at found
        cases found
        exact act_knows minting known run visits (inside _ visits) ordinary
      · rw [frame.version expression written] at versioned ⊢
        exact minting.versions expression target found ordinary versioned
    · rw [act_reaching run minting.fields ordinary] at reaches
      unfold Visit.carry at reaches
      split at reaches
      · next target visits =>
          split at reaches
          · next same =>
              subst same
              rw [VersionSet.mem_singleton.1 reaches]
              exact act_knows minting known run visits (inside _ visits) ordinary
          · exact known slot ordinary version reaches
      · exact known slot ordinary version reaches
  beside := by
    intro before after beside minting
    have last := beside.last
    have versions := beside.version
    refine ⟨⟨?_, ⟨?_, ?_⟩, ?_⟩, fun _ holds => holds, fun _ _ => trivial⟩
    · rw [last]
      exact minting.last
    · rw [beside.nextFieldSlot]
      exact minting.fields.next
    · rw [beside.fields]
      exact minting.fields.given
    · rw [versions]
      exact minting.versions

/-- Before the first round just what landed is known. -/
private theorem kept_of_landed {state : RunState} (unvisited : Unvisited state)
    (landed : Landed body.landings state) :
    Kept { config, body } body.Minting (fun _ facts => facts.KnownTo body) (fun _ _ => True) 0
      state := by
  refine .of_unvisited unvisited ⟨fun slot => Nat.le_of_eq (landed.last slot).symm,
    unvisited.fields, fun expression _ _ _ versioned =>
      absurd (unvisited.version expression) versioned⟩ ?_
  refine fun node facts found slot _ version member => .inl ⟨node, ?_⟩
  apply (landed.seeded node slot version).1
  unfold Tables.seeded
  rw [found]
  exact member

end RunM

/-! ## Whole runs -/

/-- What entered the nodes of a run from outside. -/
structure RunResult.Guests (result : RunResult) (body : Body) : Prop where
  /-- A parameter enters with version one exactly if no handler starts at the entry. -/
  parameters : ∀ entry, body.graph.entry = some entry → ∀ slot ∈ body.signature.arrivalSlots,
    1 ∈ result.versioner.tables.entering entry slot ↔
      ∀ statement position other, ¬ body.Handles statement position other entry
  /-- Every handler landed, in the order of `Body.landings`. -/
  handlers : ∀ statement slots, ((body.statements.get? statement).bind fun stored =>
      stored.kind.handlerSlots?) = some slots →
    ∀ position child, (body.statements.children statement)[position + 1]? = some child →
      ∃ (slot : Slot) (node : NodeId) (index : Nat),
        body.Handles statement position slot node ∧
        body.landings[index]? = some ⟨.handler statement position, node, [slot]⟩
  /-- What landed enters if nothing landed later at its node. -/
  entering : ∀ (index : Nat) landing, body.landings[index]? = some landing →
    LandsLast body.landings index landing → ∀ slot ∈ landing.slots,
      landedVersion body.landings index slot ∈
        result.versioner.tables.entering landing.node slot
  /-- The version of a variable that landed enters no node if something landed later at its node. -/
  replaced : ∀ (index : Nat) landing, body.landings[index]? = some landing →
    ¬ LandsLast body.landings index landing → ∀ slot ∈ landing.slots, 0 ≤ slot → ∀ node,
      landedVersion body.landings index slot ∉ result.versioner.tables.entering node slot
  /-- Guests of one slot have different versions. -/
  apart : ∀ (first second : Nat) left right slot, body.landings[first]? = some left →
    body.landings[second]? = some right → slot ∈ left.slots → slot ∈ right.slots →
    landedVersion body.landings first slot = landedVersion body.landings second slot →
      first = second

/-- A `try` whose two handlers start at the same node. -/
def Body.catching : Body where
  statements.statements := #[{ kind := .root, children := [1] },
    { kind := .tryCatch [1, 2], parent := some 0, children := [2, 3, 4] },
    { kind := .basic, parent := some 1 }, { kind := .basic, parent := some 1 },
    { kind := .basic, parent := some 1 }]
  graph.nodes := #[
    { kind := .try, statement := 2, predecessors := [], successors := [1] },
    { kind := .direct, statement := 3, predecessors := [0], successors := [] }]
  graph.entry := some 0
  graph.statementStarts := ((∅ : ExtTreeMap StatementId NodeId).insert 3 1).insert 4 1
  signature.isStatic := true

theorem Body.grown_catching : Body.catching.statements.Grown := by
  have grows {tree next : StatementTree} (grown : tree.Grown) (parent child : StatementId)
      (kind : StatementKind) (added : tree.add parent kind = .ok (next, child)) : next.Grown :=
    .add grown added
  exact grows (grows (grows (grows .root 0 1 (.tryCatch [1, 2]) rfl) 1 2 .basic rfl) 1 3 .basic rfl)
    1 4 .basic rfl

namespace Versioner

variable {versioner : Versioner} {body : Body}

/-- In a run on a graph with nodes every handler lands, and a version that landed enters exactly if
nothing landed later at its node. -/
theorem guests_of_run (grown : body.statements.Grown) (nodes : 0 < body.graph.size)
    (success : (versioner.run body).outcome = .ok ()) : (versioner.run body).Guests body := by
  rcases run_ok success with ⟨_, valid, -, -⟩
  rcases FlowGraph.entry_lt_size valid nodes with ⟨entry, isEntry, entryInside⟩
  rcases parts_of_run success isEntry with ⟨seeded, total, settled, final, parts⟩
  rcases parts.seeds with ⟨same, isSame, seeds⟩
  obtain rfl : entry = same := Option.some.inj (isEntry.symm.trans isSame)
  have landed := RunM.landed_of_seeding isEntry seeds
  have upholds := RunM.upholds_minting versioner.config body
  -- Both invariants hold after the rounds, and after the live round if there is one.
  have begun : RunM.Seated seeded.tables.seeds 0 seeded :=
    ⟨rfl, fun _ bound => absurd bound (Nat.not_lt_zero _)⟩
  have seats := RunM.seated_carries { config := versioner.config, body } seeded.tables.seeds
  have seatedThen := seats.rounds parts.positive begun parts.rounds
  have keptThen := upholds.carries.rounds parts.positive
    (RunM.kept_of_landed parts.unvisited landed) parts.rounds
  have ended : RunM.Seated seeded.tables.seeds body.graph.size final ∧
      RunM.Kept { config := versioner.config, body } body.Minting
        (fun _ facts => facts.KnownTo body) (fun _ _ => True) body.graph.size final := by
    cases round : versioner.config.has .liveRound with
    | true =>
        exact ⟨seats.liveRound (seats.restart _ _ seatedThen) (parts.live round),
          upholds.carries.liveRound keptThen.restart (parts.live round)⟩
    | false =>
        rw [parts.dead round]
        exact ⟨seatedThen, keptThen⟩
  have enters (index : Nat) (landing : Landing) (lands : body.landings[index]? = some landing)
      (landsLast : LandsLast body.landings index landing) (slot : Slot)
      (inside : slot ∈ landing.slots) :
      landedVersion body.landings index slot ∈ final.tables.entering landing.node slot := by
    refine ended.1.entering landing.node (Body.landing_lt_size valid nodes
      (List.mem_of_getElem? lands)) slot _ ?_
    unfold Tables.seeded
    rw [ended.1.seeds]
    exact (landed.seeded _ _ _).2 ⟨index, landing, lands, landsLast, rfl, inside, rfl⟩
  have lasts (index : Nat) (landing : Landing) (lands : body.landings[index]? = some landing)
      (slot : Slot) (inside : slot ∈ landing.slots) (ordinary : 0 ≤ slot) (node : NodeId)
      (entering : landedVersion body.landings index slot ∈ final.tables.entering node slot) :
      LandsLast body.landings index landing := by
    unfold Tables.entering at entering
    cases stored : final.tables.inFacts[node]? with
    | none =>
        rw [stored, Option.getD_none, Facts.reaching_empty] at entering
        exact absurd entering (VersionSet.not_mem_empty _)
    | some facts =>
        rw [stored] at entering
        exact Body.landsLast_of_knows lands inside
          (ended.2.storing.inFacts node facts stored slot ordinary _ entering)
  have tables : (versioner.run body).versioner.tables = final.tables := by
    rw [parts.result]
    rfl
  have first : body.landings[0]? = some ⟨.parameters, entry, body.signature.arrivalSlots⟩ := by
    rw [Body.landings_of_entry isEntry]
    rfl
  refine ⟨fun other isOther slot inside => ?_, fun statement slots handles position child
    isHandler => ?_, ?_, ?_, fun _ _ _ _ _ lands later inLeft inRight =>
      landedVersion_injective lands later inLeft inRight⟩
  · obtain rfl : entry = other := Option.some.inj (isEntry.symm.trans isOther)
    rw [tables]
    constructor
    · intro entering statement position other handles
      have ordinary : 0 ≤ slot := body.signature.nonneg_arrivalSlots slot inside
      have landsLast := lasts 0 _ first slot inside ordinary entry entering
      rcases handles.slot with ⟨slots, isTry, -⟩
      rcases handles.start with ⟨child, isHandler, -⟩
      rcases RunM.handler_lands grown isEntry seeds isTry isHandler with
        ⟨_, node, handled, lands⟩
      rcases List.mem_iff_getElem?.1 lands with ⟨index, found⟩
      have positive : 0 < index := by
        refine Nat.pos_of_ne_zero fun zero => ?_
        rw [zero, first] at found
        exact nomatch found
      exact landsLast index _ positive found (handled.unique handles).2
    · intro alone
      refine enters 0 _ first (fun later other after lands => ?_) slot inside
      rcases Nat.exists_eq_succ_of_ne_zero (Nat.ne_of_gt after) with ⟨previous, rfl⟩
      rw [Body.landings_of_entry isEntry, List.getElem?_cons_succ] at lands
      rcases List.mem_flatMap.1 (List.mem_of_getElem? lands) with ⟨statement, -, handled⟩
      rcases Body.handles_of_landing handled with ⟨position, landed, node, handles, rfl⟩
      rintro rfl
      exact alone statement position landed handles
  · rcases RunM.handler_lands grown isEntry seeds handles isHandler with
      ⟨slot, node, handled, lands⟩
    rcases List.mem_iff_getElem?.1 lands with ⟨index, found⟩
    exact ⟨slot, node, index, handled, found⟩
  · rw [tables]
    exact enters
  · rw [tables]
    exact fun index landing lands replaced slot inside ordinary node entering =>
      replaced (lasts index landing lands slot inside ordinary node entering)

theorem success_catching : (Config.plain.versioner.run .catching).outcome = .ok () := by
  decide

/-- The second handler of `catching` lands where the first one did. -/
theorem guests_catching :
    0 < Body.catching.graph.size ∧ (Config.plain.versioner.run .catching).Guests .catching :=
  ⟨by decide, guests_of_run Body.grown_catching (by decide) success_catching⟩

/-- The variable of the first handler of `catching` does not enter. -/
theorem seed_lost :
    ¬ ∀ (versioner : Versioner) (body : Body), versioner.config.validate = .ok () →
      body.statements.Grown → 0 < body.graph.size → (versioner.run body).outcome = .ok () →
        ∀ statement position slot node, body.Handles statement position slot node →
          ∃ version, version ∈ (versioner.run body).versioner.tables.entering node slot := by
  intro claim
  have handles : Body.catching.Handles 1 0 1 1 := ⟨⟨[1, 2], rfl, rfl⟩, 3, rfl, by decide⟩
  rcases claim Config.plain.versioner .catching (by decide) Body.grown_catching (by decide)
    success_catching 1 0 1 1 handles with ⟨version, entering⟩
  have nothing : (Config.plain.versioner.run .catching).versioner.tables.entering 1 1 = ∅ := by
    decide
  rw [nothing] at entering
  exact VersionSet.not_mem_empty version entering

end Versioner

end SlotVersioning
