import SlotVersioning.Proofs.Graph.Feeding
import SlotVersioning.Proofs.Ownership.Visits

/-!
# Shapes are kept

The actions of a run with usage versions keep the version graph shaped, with a node for every
version that was numbered. The ledger tells that what facts hold and what flows into a read is no
phi input, so inputs never lead to inputs.
-/

namespace SlotVersioning

open Std VersionGraph RunM

/-- The version graph is shaped, up to the versions that were numbered. -/
def RunState.Shaped (state : RunState) (reads : VersionKey → Prop) : Prop :=
  ∃ graph, state.tables.graph = some graph ∧ graph.Shaped state.last reads

variable {reads : VersionKey → Prop} {state middle final : RunState} {graph next : VersionGraph}

theorem learns_mint (state : RunState) (tree : StatementTree) (slot : Slot)
    (statement : Option StatementId) :
    Learns ⟨slot, state.last slot + 1⟩ state.last
      (RunState.last { state with tables := (state.tables.mint tree slot statement).1 }) := by
  intro other version ordinary
  rw [state.last_mint tree slot other statement]
  by_cases same : slot = other
  · subst same
    rw [if_pos rfl]
    constructor
    · intro bounds
      by_cases last : version = state.last slot + 1
      · exact .inl (last ▸ rfl)
      · exact .inr (by omega)
    · rintro (equal | bounds)
      · have last : state.last slot + 1 = version := congrArg VersionKey.version equal
        omega
      · omega
  · rw [if_neg same]
    exact ⟨.inr, fun cases => cases.resolve_left fun equal => same (congrArg VersionKey.slot equal)⟩

section

variable (shaped : graph.Shaped state.last reads)

include shaped

/-- The next version has no node yet. -/
theorem VersionGraph.Shaped.fresh {slot : Slot} (ordinary : 0 ≤ slot) :
    graph.position? ⟨slot, state.last slot + 1⟩ = none := by
  cases found : graph.position? ⟨slot, state.last slot + 1⟩ with
  | none => rfl
  | some position =>
      rcases shaped.sound.placed _ position found with ⟨origin, identity⟩
      have bounds := (shaped.complete slot _ ordinary).1 ⟨origin, position, identity⟩
      exact absurd bounds.2 (Nat.not_succ_le_self _)

/-- What facts may hold is plain. -/
theorem VersionGraph.Shaped.plain_of_admits (stored : state.tables.graph = some graph)
    {slot : Slot} {version : Version} (ordinary : 0 ≤ slot) (admits : state.Admits slot version) :
    graph.Plain ⟨slot, version⟩ := by
  rcases (shaped.complete slot version ordinary).2 ⟨admits.positive, admits.numbered⟩ with
    ⟨created, has⟩
  refine ⟨created, has, ?_⟩
  rintro rfl
  exact admits.plain ⟨graph, stored, has⟩

end

namespace RunM

variable {site : Site} {key : VersionKey} {target : Nat}

/-! ## Merging -/

/-- A new phi input leads from a plain version to the node that waited for it. -/
theorem addPhiInput_feeds {source : Version} {pending : List Version}
    (stored : state.tables.graph = some graph) (shaped : graph.Shaped state.last reads)
    (ordinary : 0 ≤ key.slot) (isRead : reads key)
    (awaits : graph.Awaits key target (source :: pending))
    (run : addPhiInput site key target source state = .ok () final) :
    ∃ next, final.tables.graph = some next ∧ next.Shaped final.last reads ∧
      next.Awaits key target pending ∧ ∃ input place way created,
        graph.identity? place = some (⟨key.slot, source⟩, created) ∧ created ≠ .phiInput ∧
          Inserted input place way target graph next := by
  have learns := learns_mint state site.tree key.slot (some site.statement)
  have fed := shaped.feed ordinary isRead awaits (shaped.fresh ordinary) rfl learns
  rcases awaits.node with ⟨origin, found, -⟩
  rcases awaits.plain source List.mem_cons_self with ⟨created, ⟨place, atPlace⟩, sourcePlain⟩
  rcases inserted_addInput shaped.sound found atPlace (shaped.fresh ordinary) rfl rfl with
    ⟨way, inserted⟩
  unfold addPhiInput at run
  rw [bind_eq (mint_apply _ _ _ _), bind_eq (editGraph_apply _ _), report_apply] at run
  cases run
  exact ⟨_, congrArg (Option.map _) stored, fed.1, fed.2, _, place, way, created, atPlace,
    sourcePlain, inserted⟩

private theorem addPhiInputs_shaped {pending : List Version}
    (stored : state.tables.graph = some graph) (shaped : graph.Shaped state.last reads)
    (ordinary : 0 ≤ key.slot) (isRead : reads key) (awaits : graph.Awaits key target pending)
    (run : pending.forM (addPhiInput site key target) state = .ok () final) :
    final.Shaped reads := by
  induction pending generalizing state graph with
  | nil =>
      rcases pure_ok run with ⟨-, rfl⟩
      exact ⟨graph, stored, shaped⟩
  | cons source pending induction =>
      rcases bind_ok run with ⟨_, middle, first, run⟩
      rcases addPhiInput_feeds stored shaped ordinary isRead awaits first with
        ⟨next, nextStored, nextShaped, nextAwaits, -⟩
      exact induction nextStored nextShaped nextAwaits run

/-- How a merge into a plain version goes on: the inputs of its node are pruned to those of wanted
versions, and what is missing then is pending. -/
structure MergesInto (site : Site) (key : VersionKey) (reads : VersionKey → Prop)
    (state final : RunState) (graph begun pruned : VersionGraph) (place : Nat)
    (wanted : Version → Bool) (wired : VersionSet) (pending : List Version) : Prop where
  similar : Similar graph begun
  found : ∃ origin, begun.identity? place = some (key, origin) ∧ origin ≠ .phiInput
  notInput : begun.isPhiInputAt place = false
  own : ∀ phantom, state.tables.phantom? key = some phantom → wanted phantom.version = true
  trimming : Trimming begun place wanted [] pruned wired
  shaped : begun.Shaped state.last reads
  trimmed : pruned.Shaped state.last reads
  awaits : pruned.Awaits key place pending
  run : pending.forM (addPhiInput site key place)
    { state with tables := { state.tables with graph := some pruned } } = .ok () final

theorem mergeInto_merges {sources : VersionSet}
    (run : mergeInto site key sources state = .ok () final)
    (stored : state.tables.graph = some graph) (shaped : graph.Shaped state.last reads)
    (known : graph.Plain key) (plain : ∀ version ∈ sources, graph.Plain ⟨key.slot, version⟩) :
    ∃ begun pruned place wanted wired, MergesInto site key reads state final graph begun pruned place
      wanted wired (sources.toList.filter fun source => !wired.contains source) := by
  rcases known with ⟨origin, ⟨place, found⟩, noInput⟩
  rcases ensure_known .use none (shaped.sound.indexed place key origin found) with ⟨first, similar⟩
  unfold mergeInto at run
  rw [bind_eq (tables_apply _)] at run
  simp only [stored] at run
  rw [first, bind_eq (editTables_apply _ _)] at run
  have begun := shaped.of_similar similar
  have begunFound := (similar.identity place).trans found
  have notInput := isPhiInputAt_eq_false begunFound noInput
  have trimmed := begun.prune begunFound noInput fun source =>
    sources.contains source || (state.tables.phantom? key).map VersionKey.version == some source
  refine ⟨_, _, place, _, _, similar, ⟨origin, begunFound, noInput⟩, notInput,
    fun phantom recorded => ?_, trimming_pruneInputs begun.sound notInput _, begun, trimmed.shaped,
    trimmed.awaits begunFound noInput fun version member => (plain version member).of_identity
      fun position _ found => (similar.identity position).trans found, run⟩
  rw [recorded, Option.map_some, Bool.or_eq_true]
  exact .inr (beq_self_eq_true _)

/-- A read into which plain versions flow is shaped anew. -/
theorem mergeInto_shaped {sources : VersionSet}
    (run : mergeInto site key sources state = .ok () final)
    (stored : state.tables.graph = some graph) (shaped : graph.Shaped state.last reads)
    (known : graph.Plain key) (plain : ∀ version ∈ sources, graph.Plain ⟨key.slot, version⟩)
    (ordinary : 0 ≤ key.slot) (isRead : reads key) : final.Shaped reads := by
  rcases mergeInto_merges run stored shaped known plain with
    ⟨begun, pruned, place, wanted, wired, merges⟩
  refine addPhiInputs_shaped ?_ ?_ ordinary isRead merges.awaits merges.run
  · rfl
  · exact merges.trimmed

/-! ## Phantoms and live facts -/

/-- How a phantom is added to a plain version: it gets a node of its own, and is merged into what
already flows into the version. -/
structure AddsPhantom (site : Site) (key : VersionKey) (reads : VersionKey → Prop)
    (state final : RunState) (graph grown begun : VersionGraph) (place : Nat)
    (events : List Event) : Prop where
  unknown : graph.position? ⟨key.slot, state.last key.slot + 1⟩ = none
  added : Added graph grown ⟨key.slot, state.last key.slot + 1⟩ .phantom
  similar : Similar grown begun
  shaped : begun.Shaped (RunState.last { state with
    tables := (state.tables.mint site.tree key.slot none).1 }) reads
  found : ∃ origin, begun.identity? place = some (key, origin) ∧ origin ≠ .phiInput
  plain : ∀ version ∈ insert (state.last key.slot + 1) (begun.sourcesAt place),
    begun.Plain ⟨key.slot, version⟩
  run : mergeInto site key (insert (state.last key.slot + 1) (begun.sourcesAt place))
    { state with
      tables := { (state.tables.mint site.tree key.slot none).1 with graph := some begun }
      events } = .ok () final

theorem addPhantom_adds {phantom : VersionKey} (stored : state.tables.graph = some graph)
    (shaped : graph.Shaped state.last reads) (known : graph.Plain key) (ordinary : 0 ≤ key.slot)
    (run : addPhantom site key state = .ok phantom final) :
    phantom = ⟨key.slot, state.last key.slot + 1⟩ ∧
      ∃ grown begun place events, AddsPhantom site key reads state final graph grown begun
        place events := by
  have unknown := shaped.fresh ordinary
  have added := (ensure_unknown .phantom none unknown).2
  have noInput : VersionOrigin.phantom ≠ .phiInput := by decide
  have grown := shaped.added added unknown noInput (fun field => nomatch field)
    (learns_mint state site.tree key.slot none)
  rcases known.of_identity (added.rewires key).identity with ⟨origin, ⟨place, found⟩, plain⟩
  rcases ensure_known .use none (grown.sound.indexed place key origin found) with
    ⟨first, similar⟩
  unfold addPhantom at run
  rw [bind_eq (mint_apply _ _ _ _), bind_eq (tables_apply _)] at run
  have mintedStored : (state.tables.mint site.tree key.slot none).1.graph = some graph := stored
  simp only [mintedStored] at run
  rw [first, bind_eq (editTables_apply _ _), bind_eq (report_apply _ _)] at run
  rcases bind_ok run with ⟨_, merged, merges, run⟩
  rcases pure_ok run with ⟨rfl, rfl⟩
  have drawn := grown.of_similar similar
  have atPlace := (similar.identity place).trans found
  refine ⟨rfl, _, _, place, _, unknown, added, similar, drawn, ⟨origin, atPlace, plain⟩,
    fun version member => ?_, merges⟩
  rcases VersionSet.mem_insert.1 member with rfl | flows
  · refine ⟨.phantom, ⟨graph.size, ?_⟩, noInput⟩
    rw [similar.identity, added.identity, if_pos rfl]
  · exact drawn.plain_source atPlace flows

/-- The phantom is a node of its own, and flows into the version that was incremented. -/
private theorem addPhantom_shaped {phantom : VersionKey} (stored : state.tables.graph = some graph)
    (shaped : graph.Shaped state.last reads) (known : graph.Plain key) (ordinary : 0 ≤ key.slot)
    (isRead : reads key) (run : addPhantom site key state = .ok phantom final) :
    final.Shaped reads := by
  rcases addPhantom_adds stored shaped known ordinary run with
    ⟨-, grown, begun, place, events, adds⟩
  rcases adds.found with ⟨origin, found, plain⟩
  exact mergeInto_shaped adds.run rfl adds.shaped ⟨origin, ⟨place, found⟩, plain⟩ adds.plain
    ordinary isRead

theorem ensurePhantom_shaped (stored : state.tables.graph = some graph)
    (shaped : graph.Shaped state.last reads) (known : graph.Plain key) (ordinary : 0 ≤ key.slot)
    (isRead : reads key) (run : ensurePhantom site key state = .ok () final) :
    final.Shaped reads := by
  rcases ensurePhantom_parts run with ⟨-, rfl⟩ | ⟨-, phantom, middle, added, rfl⟩
  · exact ⟨graph, stored, shaped⟩
  · rcases addPhantom_shaped stored shaped known ordinary isRead added with
      ⟨next, nextStored, nextShaped⟩
    exact ⟨next, nextStored, nextShaped⟩

theorem recordLive_shaped {facts : Facts} (shaped : state.Shaped reads)
    (run : recordLive site key facts state = .ok () final) : final.Shaped reads := by
  rcases shaped with ⟨graph, stored, shaped⟩
  rcases recordLive_ok run with rfl | rfl
  · exact ⟨graph, stored, shaped⟩
  · exact ⟨_, congrArg (Option.map _) stored, shaped.of_similar (similar_withLive graph key facts)⟩

/-! ## Definitions and reads -/

section

variable {target : VariableSite} {facts result : Facts}

theorem define_shaped (shaped : state.Shaped reads)
    (run : define site target facts state = .ok result final) : final.Shaped reads := by
  cases define_stamping run with
  | first unversioned =>
      rcases shaped with ⟨graph, stored, shaped⟩
      exact ⟨_, congrArg (Option.map _) stored, shaped.ensure target.debugName (by decide)
        (fun field => nomatch field)
        (learns_mint state site.tree target.slot (some site.statement))⟩
  | later versioned live => exact recordLive_shaped shaped live

/-- How a read that one version reaches goes on when it has no version yet: its version is numbered
and gets a node, which is linked from the one of the source. -/
structure SplitsRead (site : Site) (target : VariableSite) (source : Version)
    (state final : RunState) (graph begun grown : VersionGraph) (place : Nat)
    (created : VersionOrigin) : Prop where
  similar : Similar graph begun
  added : Added begun grown ⟨target.slot, state.last target.slot + 1⟩ .use
  found : grown.identity? place = some (⟨target.slot, source⟩, created)
  noInput : created ≠ .phiInput
  final_eq : final = { state.stamped site.tree site.statement target with
    tables := { (state.stamped site.tree site.statement target).tables with
      graph := some (grown.link place begun.size) } }

theorem splitRead_splits {source : Version} (stored : state.tables.graph = some graph)
    (shaped : graph.Shaped state.last reads) (plain : graph.Plain ⟨target.slot, source⟩)
    (ordinary : 0 ≤ target.slot)
    (run : splitRead site target source facts state = .ok result final) :
    (∃ begun grown place created,
      SplitsRead site target source state final graph begun grown place created) ∨
    recordLive site ⟨target.slot, state.version target.expression⟩ facts state = .ok () final := by
  cases splitRead_stamping run with
  | first unversioned =>
      -- The source has a node, and the version of the read gets one.
      rcases plain with ⟨created, ⟨place, found⟩, noInput⟩
      rcases ensure_known .definition none (shaped.sound.indexed place _ created found) with
        ⟨first, similar⟩
      rcases ensure_unknown .use none ((shaped.of_similar similar).fresh ordinary) with
        ⟨second, added⟩
      refine .inl ⟨_, _, place, created, similar, added,
        (added.rewires ⟨target.slot, source⟩).identity _ _ ((similar.identity place).trans found),
        noInput, ?_⟩
      have same : (state.stamped site.tree site.statement target).tables.graph = some graph :=
        stored
      unfold Tables.editGraph
      rw [same, Option.map_some]
      dsimp only
      rw [first, second]
  | later versioned live => exact .inr live

/-- A read that one version reaches is linked from it once. -/
private theorem splitRead_shaped {source : Version} (stored : state.tables.graph = some graph)
    (shaped : graph.Shaped state.last reads) (plain : graph.Plain ⟨target.slot, source⟩)
    (ordinary : 0 ≤ target.slot)
    (isRead : reads ⟨target.slot, final.version target.expression⟩)
    (run : splitRead site target source facts state = .ok result final) : final.Shaped reads := by
  rcases splitRead_splits stored shaped plain ordinary run with
    ⟨begun, grown, place, created, splits⟩ | live
  · obtain rfl := splits.final_eq
    change reads ⟨_, (state.stamped site.tree site.statement target).version _⟩ at isRead
    rw [RunState.version_stamped] at isRead
    have began := shaped.of_similar splits.similar
    have grew := began.added splits.added (began.fresh ordinary) (by decide)
      (fun field => nomatch field)
      (learns_mint state site.tree target.slot (some site.statement))
    exact ⟨_, rfl, grew.link splits.found splits.noInput
      ((splits.added.identity _).trans (if_pos rfl)) (by decide) rfl
      ((splits.added.predecessors _).trans (predecessorsAt_size _)) ordinary isRead⟩
  · exact recordLive_shaped ⟨graph, stored, shaped⟩ live

/-- How a read that several versions reach goes on: its version is numbered and gets a node, or what
is live is recorded at the one that it has; then the reaching versions are merged into it. -/
structure MergesRead (site : Site) (target : VariableSite) (reaching : VersionSet)
    (reads : VersionKey → Prop) (state middle final : RunState) (graph next : VersionGraph) :
    Prop where
  begins :
    (middle = { state.stamped site.tree site.statement target with
        tables := (state.stamped site.tree site.statement target).tables.editGraph fun graph =>
          (graph.ensure ⟨target.slot, state.last target.slot + 1⟩ .use).1 } ∧
      final.version target.expression = state.last target.slot + 1 ∧
      Added graph next ⟨target.slot, final.version target.expression⟩ .use) ∨
    ((∃ facts, recordLive site ⟨target.slot, final.version target.expression⟩ facts state =
        .ok () middle) ∧ Similar graph next)
  stored : middle.tables.graph = some next
  phantoms : middle.tables.phantoms = state.tables.phantoms
  shaped : next.Shaped middle.last reads
  known : next.Plain ⟨target.slot, final.version target.expression⟩
  plain : ∀ version ∈ reaching, next.Plain ⟨target.slot, version⟩
  run : mergeInto site ⟨target.slot, final.version target.expression⟩ reaching middle =
    .ok () final

theorem mergeRead_merges {reaching : VersionSet} (stored : state.tables.graph = some graph)
    (shaped : graph.Shaped state.last reads)
    (known : state.version target.expression ≠ 0 →
      graph.Plain ⟨target.slot, state.version target.expression⟩)
    (plain : ∀ version ∈ reaching, graph.Plain ⟨target.slot, version⟩)
    (ordinary : 0 ≤ target.slot)
    (run : mergeRead site target reaching facts state = .ok result final) :
    ∃ middle next, MergesRead site target reaching reads state middle final graph next := by
  rcases mergeRead_stamping run with ⟨middle, stamping, merges⟩
  have own := (quietly_mergeInto _ _ _ _ _ _ merges).version target.expression
  rw [← own] at merges
  cases stamping with
  | first unversioned =>
      have stamped : final.version target.expression = state.last target.slot + 1 :=
        own.trans (state.version_stamped site.tree site.statement target)
      have added := (ensure_unknown .use none (shaped.fresh ordinary)).2
      have grown := shaped.added added (shaped.fresh ordinary) (by decide)
        (fun field => nomatch field)
        (learns_mint state site.tree target.slot (some site.statement))
      refine ⟨_, _, .inl ⟨rfl, stamped, ?_⟩, congrArg (Option.map _) stored, rfl, grown, ?_,
        fun version member => (plain version member).of_identity
          (added.rewires ⟨target.slot, version⟩).identity, merges⟩
      all_goals rw [stamped]
      · exact added
      · exact ⟨.use, ⟨graph.size, (added.identity _).trans (if_pos rfl)⟩, by decide⟩
  | later versioned live =>
      have same : final.version target.expression = state.version target.expression :=
        own.trans ((quietly_recordLive _ _ _ _ _ _ live).version _)
      have there := known versioned
      rw [← same] at live there
      rcases recordLive_ok live with rfl | rfl
      · exact ⟨_, graph, .inr ⟨⟨facts, live⟩, .refl graph⟩, stored, rfl, shaped, there, plain,
          merges⟩
      · have similar := similar_withLive graph ⟨target.slot, final.version target.expression⟩ facts
        have stays (position : Nat) (identity : VersionKey × VersionOrigin)
            (found : graph.identity? position = some identity) :=
          (similar.identity position).trans found
        exact ⟨_, _, .inr ⟨⟨facts, live⟩, similar⟩, congrArg (Option.map _) stored, rfl,
          shaped.of_similar similar, there.of_identity stays,
          fun version member => (plain version member).of_identity stays, merges⟩

private theorem mergeRead_shaped {reaching : VersionSet} (stored : state.tables.graph = some graph)
    (shaped : graph.Shaped state.last reads)
    (known : state.version target.expression ≠ 0 →
      graph.Plain ⟨target.slot, state.version target.expression⟩)
    (plain : ∀ version ∈ reaching, graph.Plain ⟨target.slot, version⟩)
    (ordinary : 0 ≤ target.slot)
    (isRead : reads ⟨target.slot, final.version target.expression⟩)
    (run : mergeRead site target reaching facts state = .ok result final) :
    final.Shaped reads := by
  rcases mergeRead_merges stored shaped known plain ordinary run with ⟨middle, next, merges⟩
  exact mergeInto_shaped merges.run merges.stored merges.shaped merges.known merges.plain ordinary
    isRead

end

/-! ## Fields and copies -/

private theorem slotOfField_shaped {expression : ExprId} {slot : Slot}
    (negative : state.FieldsNegative) (shaped : state.Shaped reads)
    (run : slotOfField expression state = .ok slot final) : final.Shaped reads := by
  rcases shaped with ⟨graph, stored, shaped⟩
  rcases slotOfField_cases run with ⟨-, rfl⟩ | ⟨-, rfl, rfl⟩
  · exact ⟨graph, stored, shaped⟩
  · -- Field slots are no variables, so no version becomes known.
    refine ⟨_, congrArg (Option.map _) stored,
      shaped.ensure none (by decide) (fun _ => negative.next) ?_⟩
    intro slot version ordinary
    refine ⟨.inr, fun cases => cases.resolve_left fun equal => ?_⟩
    have same : state.tables.nextFieldSlot = slot := congrArg VersionKey.slot equal
    exact absurd negative.next (Int.not_lt.2 (same ▸ ordinary))

private theorem recordCopy_shaped {target : VariableSite} {value : Term}
    (shaped : state.Shaped reads) (run : recordCopy target value state = .ok () final) :
    final.Shaped reads := by
  rcases recordCopy_ok run with ⟨copies, events, rfl⟩
  exact shaped

end RunM

/-! ## Every visit -/

namespace Claimants

variable {claimants : Claimants} {site : Site} {target : VariableSite} {place : Visit}
  {facts result : Facts}

/-- With usage versions, a read of admitted facts keeps the graph shaped. -/
theorem Ledger.read_shaped (ledger : claimants.Ledger state) (admitted : state.Admitted facts)
    (usage : site.config.has .usageVersions = true)
    (known : claimants.arena.site? target.expression = some target) (ordinary : 0 ≤ target.slot)
    (shaped : state.Shaped reads) (isRead : reads ⟨target.slot, final.version target.expression⟩)
    (run : RunM.read site target facts state = .ok result final) : final.Shaped reads := by
  rcases shaped with ⟨graph, stored, shaped⟩
  have plain (version : Version) (member : version ∈ facts.reaching target.slot) :=
    shaped.plain_of_admits stored ordinary (admitted target.slot ordinary version member)
  cases read_ok run with
  | undefined unreached run => exact define_shaped ⟨graph, stored, shaped⟩ run
  | adopting only noUsage reached => exact absurd (noUsage.symm.trans usage) Bool.false_ne_true
  | splitting source usage reached run =>
      refine splitRead_shaped stored shaped (plain source ?_) ordinary isRead run
      rw [reached]
      exact VersionSet.mem_singleton.2 rfl
  | merging usage several run =>
      exact mergeRead_shaped stored shaped (fun versioned => shaped.plain_of_admits stored ordinary
        (ledger.written _ target known versioned)) plain ordinary isRead run
  | tabulating noUsage several run =>
      exact absurd (noUsage.symm.trans usage) Bool.false_ne_true

/-- An increment whose target has a version keeps the graph shaped. -/
private theorem Ledger.increment_shaped (ledger : claimants.Ledger state)
    (known : claimants.arena.site? target.expression = some target) (ordinary : 0 ≤ target.slot)
    (versioned : state.version target.expression ≠ 0) (shaped : state.Shaped reads)
    (isRead : reads ⟨target.slot, state.version target.expression⟩)
    (run : incrementVariable site target facts state = .ok result final) :
    final.Shaped reads := by
  cases incrementVariable_cases run with
  | unrecorded off => exact shaped
  | recorded on phantom live =>
      rcases shaped with ⟨graph, stored, shaped⟩
      have plain := shaped.plain_of_admits stored ordinary
        (ledger.written _ target known versioned)
      exact recordLive_shaped (ensurePhantom_shaped stored shaped plain ordinary isRead phantom) live

/-- With usage versions, a visit that begins with admitted facts keeps the graph shaped. -/
theorem Ledger.act_shaped (ledger : claimants.Ledger state) (admitted : state.Admitted facts)
    (usage : site.config.has .usageVersions = true) (fits : claimants.Fits site.config place)
    (shaped : state.Shaped reads)
    (isRead : ∀ target, place.isRead = true → place.site? = some target →
      reads ⟨target.slot, final.version target.expression⟩)
    (run : place.act site facts state = .ok result final) : final.Shaped reads := by
  cases act_ok run with
  | read reading =>
      exact ledger.read_shaped admitted usage (fits.known _ rfl) (fits.ordinary _ rfl) shaped
        (isRead _ rfl rfl) reading
  | define definition => exact define_shaped shaped definition
  | assign definition copy => exact recordCopy_shaped (define_shaped shaped definition) copy
  | @increment target picked _ middle _ reading increases =>
      have marks := isRead target rfl rfl
      rw [(incrementVariable_ok increases).1.version] at marks
      have settles : claimants.Settles (.increment target) picked state middle :=
        ledger.read admitted fits rfl rfl reading
      have begun := ledger.read_shaped admitted usage (fits.known _ rfl) (fits.ordinary _ rfl)
        shaped marks reading
      exact settles.ledger.increment_shaped (fits.known _ rfl) (fits.ordinary _ rfl)
        (settles.versioned _ (Visit.mem_written_of_site rfl)) begun marks increases
  | field request => exact slotOfField_shaped ledger.negative shaped request
  | unversionedField | clobber => exact shaped

end Claimants

end SlotVersioning
