import SlotVersioning.Proofs.Run.Again
import SlotVersioning.Proofs.Run.Wired

/-!
# Drawing the version graph

With usage versions every visit records in the version graph what reaches it, as long as no less
reaches it than on its visit before (`act_draws`). What was recorded of other sites stays, for sites
have different versions. So a performance records all of its visits (`Performs.draws`).
-/

namespace SlotVersioning

open VersionGraph

namespace RunM

variable {site : Site} {target : VariableSite} {facts result : Facts} {state final : RunState}
  {graph : VersionGraph}

theorem charted_recordLive {key : VersionKey} (run : recordLive site key facts state = .ok () final)
    (charted : Charted state graph) :
    ∃ next, Charted final next ∧ Similar graph next := by
  rcases recordLive_ok run with rfl | rfl
  · exact ⟨graph, charted, .refl graph⟩
  · have similar := similar_withLive graph key facts
    refine ⟨graph.withLive key facts, ?_, similar⟩
    refine charted.of_identity ?_ (fun _ => Nat.le_refl _) (similar.sound charted.sound)
      similar.identity
    exact congrArg (Option.map _) charted.stored

/-- The graph gets a node for the version with which a site is stamped. -/
theorem charted_stamped {next : VersionGraph} {origin : VersionOrigin} {place : Nat}
    {after : RunState} (tree : StatementTree) (statement : StatementId)
    (charted : Charted state graph) (sound : next.Sound)
    (identity : ∀ position, next.identity? position =
      if position = place then some (⟨target.slot, state.last target.slot + 1⟩, origin)
      else graph.identity? position)
    (stored : after.tables.graph = some next)
    (last : after.last = (state.stamped tree statement target).last) : Charted after next := by
  refine charted.of_grown sound identity stored (fun slot => ?_) fun _ => ?_
  · rw [last]
    exact last_le_mint state tree target.slot slot (some statement)
  · rw [last]
    exact Nat.le_of_eq (state.last_stamped tree statement target).symm

/-! ## Visits -/

variable {isRead : Bool} {reaching earlier : VersionSet}

/-- A definition gets a node of its own. -/
theorem define_charts (run : define site target facts state = .ok result final)
    (charted : Charted state graph) (ordinary : 0 ≤ target.slot) :
    ∃ next, Charted final next ∧
      (graph.position? ⟨target.slot, final.version target.expression⟩ = none ∧
          Added graph next ⟨target.slot, final.version target.expression⟩ .definition ∨
        state.version target.expression ≠ 0 ∧
          final.version target.expression = state.version target.expression ∧
          Similar graph next) := by
  cases define_stamping run with
  | first unversioned =>
      have unknown := charted.fresh ordinary (Nat.lt_succ_self (state.last target.slot))
      have added := (ensure_unknown .definition target.debugName unknown).2
      have version := state.version_stamped site.tree site.statement target
      refine ⟨_, charted_stamped site.tree site.statement charted
        (added.sound unknown charted.sound) added.identity ?_ rfl, .inl ?_⟩
      · exact congrArg (Option.map _) charted.stored
      · change graph.position? ⟨_, (state.stamped site.tree site.statement target).version _⟩ =
            none ∧ Added _ _ ⟨_, (state.stamped site.tree site.statement target).version _⟩ _
        rw [version]
        exact ⟨unknown, added⟩
  | later versioned live =>
      rcases charted_recordLive live charted with ⟨next, chartedNext, similar⟩
      exact ⟨next, chartedNext, .inr ⟨versioned,
        (quietly_recordLive _ _ _ _ _ _ live).version _, similar⟩⟩

theorem define_draws (run : define site target facts state = .ok result final)
    (charted : Charted state graph) (ordinary : 0 ≤ target.slot)
    (again : state.version target.expression ≠ 0 →
      Drawn graph isRead ⟨target.slot, state.version target.expression⟩ reaching)
    (first : isRead = true → reaching = ∅) :
    ∃ next, Charted final next ∧
      Redraws isRead ⟨target.slot, final.version target.expression⟩ reaching graph next := by
  rcases define_charts run charted ordinary with
    ⟨next, chartedNext, ⟨unknown, added⟩ | ⟨versioned, kept, similar⟩⟩
  · exact ⟨next, chartedNext, .of_added added unknown charted.sound first⟩
  · rw [kept]
    exact ⟨next, chartedNext, .of_similar similar (again versioned)⟩

/-- A read that one version reaches gets a node of its own after the node of this version. -/
theorem splitRead_charts {source : Version}
    (run : splitRead site target source facts state = .ok result final)
    (charted : Charted state graph) (ordinary : 0 ≤ target.slot)
    (known : ∃ created, graph.Has ⟨target.slot, source⟩ created) :
    ∃ next, Charted final next ∧
      (graph.position? ⟨target.slot, final.version target.expression⟩ = none ∧
          (∃ place way, Chained ⟨target.slot, source⟩
            ⟨target.slot, final.version target.expression⟩ .use place way graph next) ∨
        state.version target.expression ≠ 0 ∧
          final.version target.expression = state.version target.expression ∧
          Similar graph next) := by
  cases splitRead_stamping run with
  | first unversioned =>
      have unknown := charted.fresh ordinary (Nat.lt_succ_self (state.last target.slot))
      have version := state.version_stamped site.tree site.statement target
      rcases known with ⟨created, has⟩
      rcases ensured : graph.ensure ⟨target.slot, source⟩ .definition with ⟨begun, place⟩
      rcases extended : begun.ensure ⟨target.slot, state.last target.slot + 1⟩ .use with
        ⟨grown, way⟩
      have chained := chained_ensure ensured extended charted.sound has unknown rfl
      refine ⟨grown.link place way, charted_stamped site.tree site.statement charted chained.sound
        chained.identity ?_ rfl, .inl ?_⟩
      · apply (congrArg (Option.map _) charted.stored).trans
        rw [Option.map_some, ensured]
        dsimp only
        rw [extended]
      · change graph.position? ⟨_, (state.stamped site.tree site.statement target).version _⟩ =
            none ∧ ∃ place way,
          Chained _ ⟨_, (state.stamped site.tree site.statement target).version _⟩ _ place way _ _
        rw [version]
        exact ⟨unknown, place, way, chained⟩
  | later versioned live =>
      rcases charted_recordLive live charted with ⟨next, chartedNext, similar⟩
      exact ⟨next, chartedNext, .inr ⟨versioned,
        (quietly_recordLive _ _ _ _ _ _ live).version _, similar⟩⟩

private theorem splitRead_draws {source : Version}
    (run : splitRead site target source facts state = .ok result final)
    (charted : Charted state graph) (ordinary : 0 ≤ target.slot)
    (owns : graph.Owns ⟨target.slot, source⟩)
    (again : state.version target.expression ≠ 0 →
      Drawn graph true ⟨target.slot, state.version target.expression⟩ {source}) :
    ∃ next, Charted final next ∧
      Redraws true ⟨target.slot, final.version target.expression⟩ {source} graph next := by
  have stamps := (splitRead_ok run).stamps
  rcases owns.node with ⟨position, created, found, -, -⟩
  rcases splitRead_charts run charted ordinary ⟨created, position, found⟩ with
    ⟨next, chartedNext, ⟨unknown, place, way, chained⟩ | ⟨versioned, kept, similar⟩⟩
  · have fresh : state.version target.expression = 0 := by
      refine Decidable.byContradiction fun versioned => ?_
      rcases (again versioned).owns.node with ⟨there, origin, placed, -, -⟩
      rw [stamps.kept versioned] at unknown
      exact nomatch unknown.symm.trans (charted.sound.indexed there _ origin placed)
    have numbered : source ≤ state.last target.slot :=
      charted.numbered ⟨target.slot, source⟩ created ⟨position, found⟩ ordinary
    exact ⟨next, chartedNext, .of_chained chained unknown charted.sound owns
      (Nat.lt_of_le_of_lt numbered (stamps.fresh fresh))⟩
  · rw [kept]
    exact ⟨next, chartedNext, .of_similar similar (again versioned)⟩

/-- What reaches a read is wired to its node, which was there or is added first. -/
theorem mergeRead_charts (run : mergeRead site target reaching facts state = .ok result final)
    (charted : Charted state graph) (ordinary : 0 ≤ target.slot)
    (known : ∀ version ∈ reaching, ∃ created, graph.Has ⟨target.slot, version⟩ created)
    (plain : state.version target.expression ≠ 0 →
      graph.Plain ⟨target.slot, state.version target.expression⟩) :
    ∃ begun next position origin, Charted final next ∧ begun.Sound ∧
      (∀ other, Spares other graph begun) ∧
      begun.identity? position =
        some (⟨target.slot, final.version target.expression⟩, origin) ∧
      origin ≠ .phiInput ∧
      (origin = .use ∨ state.version target.expression ≠ 0 ∧
        graph.Has ⟨target.slot, state.version target.expression⟩ origin) ∧
      Merged ⟨target.slot, final.version target.expression⟩ position reaching
        ((state.tables.phantom? ⟨target.slot, final.version target.expression⟩).map
          VersionKey.version) begun next := by
  have later {grown : VersionGraph} (spares : Spares ⟨0, 0⟩ graph grown) :
      ∀ version ∈ reaching, ∃ created, grown.Has ⟨target.slot, version⟩ created :=
    fun version member => (known version member).imp fun created has => spares.has _ _ has
  rcases mergeRead_stamping run with ⟨middle, stamping, merges⟩
  rw [(quietly_mergeInto _ _ _ _ _ _ merges).version]
  generalize own : middle.version target.expression = current at merges
  cases stamping with
  | first unversioned =>
      obtain rfl : state.last target.slot + 1 = current :=
        (state.version_stamped site.tree site.statement target).symm.trans own
      have unknown := charted.fresh ordinary (Nat.lt_succ_self (state.last target.slot))
      have added := (ensure_unknown .use none unknown).2
      have begunSound := added.sound unknown charted.sound
      have found : (graph.ensure ⟨target.slot, state.last target.slot + 1⟩ .use).1.identity?
          graph.size = some (⟨target.slot, state.last target.slot + 1⟩, .use) := by
        rw [added.identity, if_pos rfl]
      have stored := (congrArg (Option.map fun graph : VersionGraph =>
        (graph.ensure ⟨target.slot, state.last target.slot + 1⟩ .use).1) charted.stored)
      have spares (other : VersionKey) := added.spares unknown charted.sound other
      rcases mergeInto_ok merges (charted_stamped site.tree site.statement charted begunSound
        added.identity stored rfl) found nofun ordinary (later (spares _)) with
        ⟨next, chartedNext, wires⟩
      exact ⟨_, next, graph.size, .use, chartedNext, begunSound, spares, found, nofun, .inl rfl,
        wires⟩
  | later versioned live =>
      obtain rfl : state.version target.expression = current :=
        ((quietly_recordLive _ _ _ _ _ _ live).version _).symm.trans own
      rcases charted_recordLive live charted with ⟨begun, chartedBegun, similar⟩
      rcases plain versioned with ⟨origin, ⟨position, found⟩, noInput⟩
      have begunFound := (similar.identity position).trans found
      rcases mergeInto_ok merges chartedBegun begunFound noInput ordinary
        (later (similar.spares _)) with ⟨next, chartedNext, wires⟩
      have same : middle.tables.phantoms = state.tables.phantoms := by
        rcases recordLive_ok live with rfl | rfl <;> rfl
      rw [Tables.phantom?_congr same] at wires
      exact ⟨begun, next, position, origin, chartedNext, chartedBegun.sound, similar.spares,
        begunFound, noInput, .inr ⟨versioned, position, found⟩, wires⟩

private theorem mergeRead_draws
    (run : mergeRead site target reaching facts state = .ok result final)
    (charted : Charted state graph) (ordinary : 0 ≤ target.slot)
    (several : 2 ≤ reaching.cardinality)
    (owns : ∀ version ∈ reaching, graph.Owns ⟨target.slot, version⟩)
    (again : state.version target.expression ≠ 0 → ∃ earlier,
      Wired graph ⟨target.slot, state.version target.expression⟩ earlier ∧
        ∀ version ∈ earlier, version ∈ reaching) :
    ∃ next, Charted final next ∧
      Redraws true ⟨target.slot, final.version target.expression⟩ reaching graph next := by
  have stamps := (mergeRead_ok run).stamps
  have known (versioned : state.version target.expression ≠ 0) :
      graph.Owns ⟨target.slot, state.version target.expression⟩ := by
    rcases again versioned with ⟨earlier, wired, -⟩
    exact wired.owns
  rcases mergeRead_charts run charted ordinary
    (fun version member => (owns version member).plain.imp fun _ plain => plain.1)
    (fun versioned => (known versioned).plain) with
    ⟨begun, next, position, origin, chartedNext, sound, spares, found, -, created, merged⟩
  refine ⟨next, chartedNext, .after spares (.of_merged merged sound found ?_ several ?_)⟩
  · rcases created with isUse | ⟨versioned, has⟩
    · exact .inl isUse
    · exact (known versioned).origin charted.sound has
  · rintro rfl
    by_cases versioned : state.version target.expression = 0
    · rcases VersionSet.exists_mem_of_several several with ⟨version, member⟩
      rcases (owns version member).node with ⟨place, created, placed, -, -⟩
      have numbered : version ≤ state.last target.slot :=
        charted.numbered ⟨target.slot, version⟩ created ⟨place, placed⟩ ordinary
      exact ⟨version, member, Nat.lt_of_le_of_lt numbered (stamps.fresh versioned)⟩
    · rcases again versioned with ⟨earlier, wired, subset⟩
      rw [stamps.kept versioned] at found ⊢
      rcases (wired.of_spares (spares _)).exists_older sound ⟨position, found⟩ with
        ⟨version, member, older⟩
      exact ⟨version, subset version member, older⟩

private theorem read_draws (run : read site target facts state = .ok result final)
    (usage : site.config.has .usageVersions = true) (charted : Charted state graph)
    (ordinary : 0 ≤ target.slot)
    (owns : ∀ version ∈ facts.reaching target.slot, graph.Owns ⟨target.slot, version⟩)
    (again : state.version target.expression ≠ 0 → ∃ earlier,
      Wired graph ⟨target.slot, state.version target.expression⟩ earlier ∧
        ∀ version ∈ earlier, version ∈ facts.reaching target.slot) :
    ∃ next, Charted final next ∧ Redraws true ⟨target.slot, final.version target.expression⟩
      (facts.reaching target.slot) graph next := by
  have grown (few : (facts.reaching target.slot).cardinality < 2)
      (versioned : state.version target.expression ≠ 0) :
      Drawn graph true ⟨target.slot, state.version target.expression⟩
        (facts.reaching target.slot) := by
    rcases again versioned with ⟨earlier, wired, subset⟩
    exact (wired.grow subset few).drawn true
  cases read_ok run with
  | undefined unreached run =>
      refine define_draws run charted ordinary (grown ?_) fun _ => unreached
      rw [unreached, VersionSet.cardinality_empty]
      exact Nat.zero_lt_two
  | adopting only plain reached => exact absurd (plain.symm.trans usage) Bool.false_ne_true
  | splitting source _ reached run =>
      rw [reached] at owns grown ⊢
      refine splitRead_draws run charted ordinary
        (owns source (VersionSet.mem_singleton.2 rfl)) (grown ?_)
      rw [VersionSet.cardinality_singleton]
      exact Nat.one_lt_two
  | merging _ several run =>
      exact mergeRead_draws run charted ordinary several owns again
  | tabulating plain several run => exact absurd (plain.symm.trans usage) Bool.false_ne_true

/-- The phantom of an increment flows into its version, and is recorded. -/
theorem incrementVariable_charts
    (run : incrementVariable site target facts state = .ok result final)
    (charted : Charted state graph) (ordinary : 0 ≤ target.slot)
    (plain : graph.Plain ⟨target.slot, state.version target.expression⟩) :
    ∃ haunted next position origin phantom, Charted final next ∧
      graph.identity? position =
        some (⟨target.slot, state.version target.expression⟩, origin) ∧
      origin ≠ .phiInput ∧
      Haunts ⟨target.slot, state.version target.expression⟩ position phantom graph haunted ∧
      Similar haunted next ∧
      ∀ version, phantom = some version → state.tables.phantoms.isSome ∧
        (final.tables.phantoms.isSome →
          (final.tables.phantom? ⟨target.slot, state.version target.expression⟩).map
            VersionKey.version = some version) := by
  rcases plain with ⟨origin, ⟨position, found⟩, noInput⟩
  cases incrementVariable_cases run with
  | unrecorded off =>
      exact ⟨graph, graph, position, origin, none, charted, found, noInput,
        ⟨.refl _ graph, fun _ flows => flows, fun _ flows => .inr flows⟩, .refl graph,
        fun _ impossible => nomatch impossible⟩
  | recorded on ensured live =>
      rcases ensurePhantom_ok ensured charted found noInput ordinary with
        ⟨haunted, phantom, chartedHaunted, haunts, recorded⟩
      rcases charted_recordLive live chartedHaunted with ⟨next, chartedNext, similar⟩
      refine ⟨haunted, next, position, origin, phantom, chartedNext, found, noInput, haunts, similar,
        fun version haunting => ⟨on, fun stored => ?_⟩⟩
      rcases recordLive_ok live with rfl | rfl <;> exact recorded stored version haunting

private theorem incrementVariable_draws
    (run : incrementVariable site target facts state = .ok result final)
    (charted : Charted state graph) (ordinary : 0 ≤ target.slot)
    (wired : Wired graph ⟨target.slot, state.version target.expression⟩ reaching) :
    ∃ next, Charted final next ∧
      Redraws true ⟨target.slot, final.version target.expression⟩ reaching graph next := by
  rcases incrementVariable_charts run charted ordinary wired.owns.plain with
    ⟨haunted, next, position, origin, phantom, chartedNext, found, -, haunts, similar, -⟩
  have draws : Redraws true _ reaching graph haunted :=
    .of_haunts haunts charted.sound found wired
  rw [(incrementVariable_ok run).1.version]
  exact ⟨next, chartedNext, draws.before fun other => similar.spares other⟩

end RunM

/-! ## Sites have different versions -/

/-- No two sites of a slot have the same version, and all versions were numbered. -/
structure Distinct (arena : Arena) (state : RunState) : Prop where
  bounded : ∀ target, arena.site? target.expression = some target →
    state.version target.expression ≤ state.last target.slot
  apart : ∀ left right, arena.site? left.expression = some left →
    arena.site? right.expression = some right → left.expression ≠ right.expression →
    left.slot = right.slot → state.version left.expression ≠ 0 →
    state.version left.expression ≠ state.version right.expression

namespace Distinct

variable {arena : Arena} {before after : RunState}

theorem of_unvisited (unvisited : ∀ expression, before.version expression = 0) :
    Distinct arena before where
  bounded := fun target _ => by
    rw [unvisited]
    exact Nat.zero_le _
  apart := fun left _ _ _ _ _ versioned => absurd (unvisited left.expression) versioned

theorem of_same (distinct : Distinct arena before)
    (version : ∀ expression, after.version expression = before.version expression)
    (last : ∀ slot, before.last slot ≤ after.last slot) : Distinct arena after where
  bounded := fun target found => by
    rw [version]
    exact Nat.le_trans (distinct.bounded target found) (last target.slot)
  apart := fun left right leftFound rightFound different same versioned => by
    rw [version] at versioned ⊢
    rw [version]
    exact distinct.apart left right leftFound rightFound different same versioned

/-- A site that gets a new version differs from all others. -/
private theorem of_stamps {target : VariableSite} (distinct : Distinct arena before)
    (stamps : Stamps target before after) (site : arena.site? target.expression = some target) :
    Distinct arena after := by
  by_cases versioned : before.version target.expression = 0
  · have above := stamps.fresh versioned
    have below := stamps.bounded versioned
    have others (other : VariableSite) (found : arena.site? other.expression = some other)
        (different : other.expression ≠ target.expression) (same : other.slot = target.slot) :
        after.version other.expression < after.version target.expression := by
      rw [stamps.others _ different]
      apply Nat.lt_of_le_of_lt (distinct.bounded other found)
      rw [same]
      exact above
    constructor
    · intro other found
      by_cases here : other.expression = target.expression
      · rw [here, site] at found
        cases found
        exact below
      · rw [stamps.others _ here]
        exact Nat.le_trans (distinct.bounded other found) (stamps.last other.slot)
    · intro left right leftFound rightFound different same kept
      by_cases atLeft : left.expression = target.expression
      · rw [atLeft, site] at leftFound
        cases leftFound
        exact Nat.ne_of_gt (others right rightFound (Ne.symm different) same.symm)
      · by_cases atRight : right.expression = target.expression
        · rw [atRight, site] at rightFound
          cases rightFound
          exact Nat.ne_of_lt (others left leftFound different same)
        · rw [stamps.others _ atLeft] at kept ⊢
          rw [stamps.others _ atRight]
          exact distinct.apart left right leftFound rightFound different same kept
  · refine distinct.of_same (fun expression => ?_) stamps.last
    by_cases here : expression = target.expression
    · rw [here]
      exact stamps.kept versioned
    · exact stamps.others expression here

end Distinct

/-! ## Every visit -/

/-- What a visit does to the graph, and what the graph records of it. -/
structure Visit.Draws (place : Visit) (versions : ExprId → Version) (facts : Facts)
    (before after : VersionGraph) : Prop where
  has : ∀ other origin, before.Has other origin → after.Has other origin
  spares : ∀ other, (∀ target, place.site? = some target →
    other ≠ ⟨target.slot, versions target.expression⟩) → Spares other before after
  drawn : ∀ target, place.site? = some target →
    Drawn after place.isRead ⟨target.slot, versions target.expression⟩ (facts.reaching target.slot)

private theorem Visit.Draws.of_redraws {place : Visit} {target : VariableSite}
    {versions : ExprId → Version} {facts : Facts} {before after : VersionGraph}
    (visits : place.site? = some target)
    (draws : Redraws place.isRead ⟨target.slot, versions target.expression⟩
      (facts.reaching target.slot) before after) : place.Draws versions facts before after where
  has := draws.has
  spares := fun other elsewhere => draws.spares other (elsewhere target visits)
  drawn := by
    intro other found
    rw [visits] at found
    cases found
    exact draws.drawn

theorem Visit.Draws.congr {place : Visit} {versions others : ExprId → Version} {facts : Facts}
    {before after : VersionGraph} (draws : place.Draws versions facts before after)
    (agree : ∀ target, place.site? = some target →
      others target.expression = versions target.expression) :
    place.Draws others facts before after where
  has := draws.has
  spares := by
    intro other elsewhere
    apply draws.spares other
    intro target visits
    rw [← agree target visits]
    exact elsewhere target visits
  drawn := by
    intro target visits
    rw [agree target visits]
    exact draws.drawn target visits

namespace RunM

variable {site : Site} {place : Visit} {facts result : Facts} {state final : RunState}
  {graph : VersionGraph}

private theorem act_distinct {arena : Arena} (run : place.act site facts state = .ok result final)
    (usage : site.config.has .usageVersions = true) (distinct : Distinct arena state)
    (sites : ∀ target, place.site? = some target → arena.site? target.expression = some target) :
    Distinct arena final := by
  cases visits : place.site? with
  | none =>
      refine distinct.of_same (fun expression => (act_frame run).version expression ?_)
        (act_frame run).last
      unfold Visit.written
      rw [visits]
      exact List.not_mem_nil
  | some target => exact distinct.of_stamps (act_stamps run usage visits) (sites target visits)

theorem slotOfField_draws {expression : ExprId} {slot : Slot}
    (run : slotOfField expression state = .ok slot final) (charted : Charted state graph)
    (negative : state.FieldsNegative) :
    ∃ next, Charted final next ∧ ∀ other, Spares other graph next := by
  rcases slotOfField_cases run with ⟨-, rfl⟩ | ⟨-, rfl, rfl⟩
  · exact ⟨graph, charted, fun other => .refl other graph⟩
  · have below : ¬ 0 ≤ state.tables.nextFieldSlot := Int.not_le.2 negative.next
    exact ⟨_, charted.ensured ⟨state.tables.nextFieldSlot, 1⟩ .field
      (congrArg (Option.map _) charted.stored) (fun _ => Nat.le_refl _)
      fun ordinary => absurd ordinary below⟩

theorem act_draws (run : place.act site facts state = .ok result final)
    (usage : site.config.has .usageVersions = true) (negative : state.FieldsNegative)
    (charted : Charted state graph)
    (ordinary : ∀ target, place.site? = some target → 0 ≤ target.slot)
    (owns : ∀ target, place.site? = some target → ∀ version ∈ facts.reaching target.slot,
      graph.Owns ⟨target.slot, version⟩)
    (again : ∀ target, place.site? = some target → state.version target.expression ≠ 0 →
      ∃ earlier, Drawn graph place.isRead ⟨target.slot, state.version target.expression⟩ earlier ∧
        ∀ version ∈ earlier, version ∈ facts.reaching target.slot) :
    ∃ next, Charted final next ∧ place.Draws final.version facts graph next := by
  -- A definition does not care about what reaches it.
  have defined {target : VariableSite} (visits : place.site? = some target)
      (defines : place.isRead = false) (versioned : state.version target.expression ≠ 0) :
      Drawn graph place.isRead ⟨target.slot, state.version target.expression⟩
        (facts.reaching target.slot) := by
    rcases again target visits versioned with ⟨earlier, drawn, -⟩
    exact ⟨drawn.owns, fun reads => absurd (defines.symm.trans reads) Bool.false_ne_true⟩
  have wired {target : VariableSite} (visits : place.site? = some target)
      (reads : place.isRead = true) (versioned : state.version target.expression ≠ 0) :
      ∃ earlier, Wired graph ⟨target.slot, state.version target.expression⟩ earlier ∧
        ∀ version ∈ earlier, version ∈ facts.reaching target.slot := by
    rcases again target visits versioned with ⟨earlier, drawn, subset⟩
    exact ⟨earlier, drawn.wired reads, subset⟩
  cases act_ok run with
  | @read target _ _ reading =>
      rcases read_draws reading usage charted (ordinary target rfl) (owns target rfl)
        (wired rfl rfl) with ⟨next, chartedNext, draws⟩
      exact ⟨next, chartedNext, .of_redraws rfl draws⟩
  | @define target _ _ definition =>
      rcases define_draws definition charted (ordinary target rfl) (defined rfl rfl) nofun with
        ⟨next, chartedNext, draws⟩
      exact ⟨next, chartedNext, .of_redraws rfl draws⟩
  | @assign target _ _ _ _ definition copy =>
      rcases define_draws definition charted (ordinary target rfl) (defined rfl rfl) nofun with
        ⟨next, chartedNext, draws⟩
      rcases recordCopy_ok copy with ⟨copies, events, rfl⟩
      exact ⟨next, chartedNext.of_last rfl fun _ => Nat.le_refl _, .of_redraws rfl draws⟩
  | @increment target _ _ _ _ reading increases =>
      rcases read_draws reading usage charted (ordinary target rfl) (owns target rfl)
        (wired rfl rfl) with ⟨between, chartedBetween, draws⟩
      rcases incrementVariable_draws increases chartedBetween (ordinary target rfl)
        (draws.drawn.wired rfl) with ⟨next, chartedNext, later⟩
      rw [(incrementVariable_ok increases).1.version] at later
      refine ⟨next, chartedNext, .of_redraws rfl ?_⟩
      rw [(incrementVariable_ok increases).1.version]
      exact draws.trans later
  | field request =>
      rcases slotOfField_draws request charted negative with ⟨next, chartedNext, spares⟩
      exact ⟨next, chartedNext, (spares ⟨0, 0⟩).has, fun other _ => spares other,
        fun _ visits => nomatch visits⟩
  | unversionedField | clobber =>
      exact ⟨graph, charted, fun _ _ has => has, fun other _ => .refl other graph,
        fun _ visits => nomatch visits⟩

end RunM

/-! ## Performances -/

/-- The visits that are going to be performed are at sites of the arena. What reaches them has a
node or is written by an earlier one of them, and it is no less than before. -/
structure Ready (arena : Arena) (log : List (Visit × Facts)) (versions : ExprId → Version)
    (state : RunState) (graph : VersionGraph) : Prop where
  sites : ∀ entry ∈ log, ∀ target, entry.1.site? = some target →
    arena.site? target.expression = some target ∧ 0 ≤ target.slot
  owns : ∀ earlier entry later, log = earlier ++ entry :: later →
    ∀ target, entry.1.site? = some target → ∀ version ∈ entry.2.reaching target.slot,
      graph.Owns ⟨target.slot, version⟩ ∨
        ∃ other ∈ earlier, ∃ site, other.1.site? = some site ∧ site.slot = target.slot ∧
          versions site.expression = version
  again : ∀ entry ∈ log, ∀ target, entry.1.site? = some target →
    state.version target.expression ≠ 0 →
      ∃ earlier, Drawn graph entry.1.isRead ⟨target.slot, state.version target.expression⟩ earlier ∧
        ∀ version ∈ earlier, version ∈ entry.2.reaching target.slot

/-- What a performance does to the graph, and what the graph records of its visits. -/
structure LogDraws (log : List (Visit × Facts)) (versions : ExprId → Version)
    (before after : VersionGraph) : Prop where
  has : ∀ other origin, before.Has other origin → after.Has other origin
  spares : ∀ other, (∀ entry ∈ log, ∀ target, entry.1.site? = some target →
    other ≠ ⟨target.slot, versions target.expression⟩) → Spares other before after
  drawn : ∀ entry ∈ log, ∀ target, entry.1.site? = some target →
    Drawn after entry.1.isRead ⟨target.slot, versions target.expression⟩
      (entry.2.reaching target.slot)

/-- The key of a site that has a version differs from those of other sites. -/
theorem Distinct.key_ne {arena : Arena} {state : RunState} (distinct : Distinct arena state)
    {left right : VariableSite} (leftFound : arena.site? left.expression = some left)
    (rightFound : arena.site? right.expression = some right)
    (different : left.expression ≠ right.expression)
    (versioned : state.version left.expression ≠ 0) :
    VersionKey.mk left.slot (state.version left.expression) ≠
      ⟨right.slot, state.version right.expression⟩ := by
  intro same
  exact distinct.apart left right leftFound rightFound different (congrArg VersionKey.slot same)
    versioned (congrArg VersionKey.version same)

section Rest

variable {arena : Arena} {place : Visit} {facts : Facts} {rest : List (Visit × Facts)}
  {versions : ExprId → Version} {graph between next : VersionGraph}

/-- After the first visit the others are ready. -/
private theorem Ready.tail {before middle : RunState}
    (ready : Ready arena ((place, facts) :: rest) versions before graph)
    (draws : place.Draws versions facts graph between)
    (untouched : ∀ entry ∈ rest, ∀ target, entry.1.site? = some target →
      middle.version target.expression = before.version target.expression)
    (apart : ∀ entry ∈ rest, ∀ target, entry.1.site? = some target →
      middle.version target.expression ≠ 0 → ∀ other, place.site? = some other →
      VersionKey.mk target.slot (middle.version target.expression) ≠
        ⟨other.slot, versions other.expression⟩) :
    Ready arena rest versions middle between where
  sites := fun entry member => ready.sites entry (List.mem_cons_of_mem _ member)
  owns := by
    intro earlier entry later split target visits version reaches
    have whole : (place, facts) :: rest = ((place, facts) :: earlier) ++ entry :: later := by
      rw [split]
      rfl
    rcases ready.owns _ entry later whole target visits version reaches with
      owns | ⟨other, member, written, found, slot, equal⟩
    · exact .inl (owns.imp (draws.has _ _) (draws.has _ _))
    · rcases List.mem_cons.1 member with rfl | member
      · have drawn := (draws.drawn written found).owns
        rw [equal, slot] at drawn
        exact .inl drawn
      · exact .inr ⟨other, member, written, found, slot, equal⟩
  again := by
    intro entry member target visits versioned
    have spares := draws.spares _ (apart entry member target visits versioned)
    rw [untouched entry member target visits] at versioned spares ⊢
    rcases ready.again entry (List.mem_cons_of_mem _ member) target visits versioned with
      ⟨earlier, drawn, subset⟩
    exact ⟨earlier, drawn.of_spares spares, subset⟩

private theorem LogDraws.cons (first : place.Draws versions facts graph between)
    (later : LogDraws rest versions between next)
    (apart : ∀ target, place.site? = some target → ∀ entry ∈ rest, ∀ other,
      entry.1.site? = some other → VersionKey.mk target.slot (versions target.expression) ≠
        ⟨other.slot, versions other.expression⟩) :
    LogDraws ((place, facts) :: rest) versions graph next where
  has := fun other origin has => later.has other origin (first.has other origin has)
  spares := by
    intro other elsewhere
    have before := first.spares other (elsewhere (place, facts) List.mem_cons_self)
    exact before.trans (later.spares other fun entry member =>
      elsewhere entry (List.mem_cons_of_mem _ member))
  drawn := by
    intro entry member target visits
    rcases List.mem_cons.1 member with rfl | member
    · exact (first.drawn target visits).of_spares (later.spares _ (apart target visits))
    · exact later.drawn entry member target visits

end Rest

theorem Performs.draws {arena : Arena} {site : Site} {log : List (Visit × Facts)}
    {before after : RunState} {graph : VersionGraph} (performed : Performs site log before after)
    (usage : site.config.has .usageVersions = true)
    (single : ((log.map Prod.fst).flatMap Visit.written).Nodup) (negative : before.FieldsNegative)
    (charted : Charted before graph) (distinct : Distinct arena before)
    (ready : Ready arena log after.version before graph) :
    ∃ next, Charted after next ∧ Distinct arena after ∧
      LogDraws log after.version graph next := by
  induction performed generalizing graph with
  | nil state =>
      exact ⟨graph, charted, distinct, fun _ _ has => has, fun other _ => .refl other graph,
        fun _ member => nomatch member⟩
  | @cons place facts result rest before middle after first later induction =>
      rw [List.map_cons, List.flatMap_cons, List.nodup_append] at single
      have frame := RunM.act_frame first
      have sitesFirst := ready.sites (place, facts) List.mem_cons_self
      have sitesRest (entry : Visit × Facts) (member : entry ∈ rest) :=
        ready.sites entry (List.mem_cons_of_mem _ member)
      have repeats {entry : Visit × Facts} (member : entry ∈ rest) {other : VariableSite}
          (found : entry.1.site? = some other) :
          other.expression ∈ (rest.map Prod.fst).flatMap Visit.written :=
        List.mem_flatMap.2
          ⟨entry.1, List.mem_map_of_mem member, Visit.mem_written_of_site found⟩
      have apart {target : VariableSite} (visits : place.site? = some target) {other : ExprId}
          (repeated : other ∈ (rest.map Prod.fst).flatMap Visit.written) :
          target.expression ≠ other :=
        single.2.2 _ (Visit.mem_written_of_site visits) _ repeated
      have stays (target : VariableSite) (visits : place.site? = some target) :
          after.version target.expression = middle.version target.expression :=
        later.frame.version _ fun repeated => apart visits repeated rfl
      have untouched (entry : Visit × Facts) (member : entry ∈ rest) (other : VariableSite)
          (found : entry.1.site? = some other) :
          middle.version other.expression = before.version other.expression :=
        frame.version _ fun written => single.2.2 _ written _ (repeats member found) rfl
      rcases RunM.act_draws first usage negative charted
        (fun target visits => (sitesFirst target visits).2)
        (fun target visits version member =>
          (ready.owns [] (place, facts) rest rfl target visits version member).resolve_right
            fun earlier => nomatch earlier)
        (ready.again (place, facts) List.mem_cons_self) with ⟨between, chartedBetween, draws⟩
      have drawsFirst := draws.congr stays
      have distinctMiddle := RunM.act_distinct first usage distinct
        fun target visits => (sitesFirst target visits).1
      have readyRest := ready.tail drawsFirst untouched
        fun entry member target visits versioned other found => by
          rw [stays other found]
          exact distinctMiddle.key_ne (sitesRest entry member target visits).1
            (sitesFirst other found).1 (apart found (repeats member visits)).symm versioned
      rcases induction single.2.1 (frame.fields negative) chartedBetween distinctMiddle readyRest
        with ⟨next, chartedNext, distinctAfter, drawsRest⟩
      refine ⟨next, chartedNext, distinctAfter, LogDraws.cons drawsFirst drawsRest ?_⟩
      intro target visits entry member other found
      apply distinctAfter.key_ne (sitesFirst target visits).1 (sitesRest entry member other found).1
        (apart visits (repeats member found))
      rw [stays target visits]
      exact (RunM.act_stamps first usage visits).ne_zero

end SlotVersioning
