import SlotVersioning.Proofs.Ranges.Minting
import SlotVersioning.Proofs.Rest.Books
import SlotVersioning.Proofs.Shape.Steps

/-!
# Ranges of a visit

All versions that a visit numbers with usage versions get the range of the visited statement, but for
the phantom of an increment, which gets none (`Ledger.act_ranges`). Phi inputs that are numbered lead
into the version of the site and nowhere else, then and later.
-/

namespace SlotVersioning

open Std VersionGraph RunM

variable {reads : VersionKey → Prop} {state middle final : RunState} {graph next : VersionGraph}
  {site : Site} {key : VersionKey}

/-- The range that versions get which are numbered at a site. -/
def Site.range (site : Site) : Option StatementId := site.tree.protector? site.statement

namespace RunM

/-! ## Merging -/

/-- A phi input gets the range of the site, and leads into the version that it was numbered for. -/
private theorem addPhiInput_mints {target : Nat} {source : Version} {pending : List Version}
    (ranged : state.Ranged) (stored : state.tables.graph = some graph)
    (shaped : graph.Shaped state.last reads) (ordinary : 0 ≤ key.slot)
    (awaits : graph.Awaits key target (source :: pending))
    (run : addPhiInput site key target source state = .ok () final) :
    Mints site.range key [] state final := by
  rcases awaits.node with ⟨origin, found, noInput⟩
  rcases awaits.plain source List.mem_cons_self with ⟨created, ⟨place, atPlace⟩, sourcePlain⟩
  rcases inserted_addInput shaped.sound found atPlace (shaped.fresh ordinary) rfl rfl with
    ⟨way, inserted⟩
  unfold addPhiInput at run
  rw [bind_eq (mint_apply _ _ _ _), bind_eq (editGraph_apply _ _), report_apply] at run
  cases run
  have nextStored : (state.tables.graph.map fun graph => graph.addInput ⟨key.slot, source⟩
      ⟨key.slot, state.last key.slot + 1⟩ target) = some (graph.addInput ⟨key.slot, source⟩
      ⟨key.slot, state.last key.slot + 1⟩ target) := congrArg (Option.map _) stored
  refine mints_mint ranged rfl rfl rfl (.inl ⟨rfl, rfl⟩) (fun _ => .inr ⟨_, nextStored, way,
    (inserted.identity way).trans (if_pos rfl)⟩) ?_ ?_
  · rintro other ⟨old, oldStored, position, isInput⟩
    rw [stored] at oldStored
    cases oldStored
    exact ⟨_, nextStored, position, inserted.stays isInput⟩
  · rintro input other ⟨new, newStored, from?, to?, kind, atFrom, atTo, edge⟩
    obtain rfl := Option.some.inj (nextStored.symm.trans newStored)
    rw [inserted.predecessors] at edge
    split at edge
    · -- Into the new phi input leads its source, which is plain.
      rw [List.mem_singleton.1 edge, inserted.stays atPlace] at atFrom
      cases atFrom
      exact absurd rfl sourcePlain
    · next notWay =>
        rw [inserted.identity, if_neg notWay] at atTo
        have old (edge : from? ∈ graph.predecessorsAt to?) : state.tables.LeadsInto input other := by
          rcases shaped.sound.level from? to? edge with ⟨left, -, atLeft, -⟩
          rw [inserted.stays atLeft] at atFrom
          exact ⟨graph, stored, from?, to?, kind, atLeft.trans atFrom, atTo, edge⟩
        split at edge
        · next isTarget =>
            rcases List.mem_append.1 edge with earlier | new
            · exact .inl (old earlier)
            · rw [List.mem_singleton.1 new, inserted.identity, if_pos rfl] at atFrom
              cases atFrom
              rw [isTarget, found] at atTo
              cases atTo
              exact .inr ⟨rfl, rfl⟩
        · exact .inl (old edge)

private theorem addPhiInputs_mints {target : Nat} {pending : List Version} (ranged : state.Ranged)
    (stored : state.tables.graph = some graph) (shaped : graph.Shaped state.last reads)
    (ordinary : 0 ≤ key.slot) (isRead : reads key) (awaits : graph.Awaits key target pending)
    (run : pending.forM (addPhiInput site key target) state = .ok () final) :
    Mints site.range key [] state final := by
  induction pending generalizing state graph with
  | nil =>
      rcases pure_ok run with ⟨-, rfl⟩
      exact .refl ranged
  | cons source pending induction =>
      rcases bind_ok run with ⟨_, middle, first, run⟩
      have mints := addPhiInput_mints ranged stored shaped ordinary awaits first
      rcases addPhiInput_feeds stored shaped ordinary isRead awaits first with
        ⟨next, nextStored, nextShaped, nextAwaits, -⟩
      exact mints.trans (induction mints.ranged nextStored nextShaped nextAwaits run)

theorem mergeInto_mints {sources : VersionSet}
    (run : mergeInto site key sources state = .ok () final) (ranged : state.Ranged)
    (stored : state.tables.graph = some graph) (shaped : graph.Shaped state.last reads)
    (known : graph.Plain key) (plain : ∀ version ∈ sources, graph.Plain ⟨key.slot, version⟩)
    (ordinary : 0 ≤ key.slot) (isRead : reads key) : Mints site.range key [] state final := by
  rcases mergeInto_merges run stored shaped known plain with
    ⟨begun, pruned, place, wanted, wired, merges⟩
  -- Pruning gives nothing a range, and the inputs that are added get the one of the site.
  have tame := (Tame.of_similar merges.similar).trans (.of_trimming merges.trimming)
  have cut : Mints site.range key [] state
      { state with tables := { state.tables with graph := some pruned } } :=
    .of_tame ranged (.of_graphs stored rfl tame) rfl rfl
  refine cut.trans (addPhiInputs_mints cut.ranged ?_ ?_ ordinary isRead merges.awaits merges.run)
  · rfl
  · exact merges.trimmed

/-! ## Phantoms and live facts -/

/-- The phantom is numbered without a range. -/
private theorem addPhantom_mints {phantom : VersionKey} (ranged : state.Ranged)
    (stored : state.tables.graph = some graph) (shaped : graph.Shaped state.last reads)
    (known : graph.Plain key) (ordinary : 0 ≤ key.slot) (isRead : reads key)
    (run : addPhantom site key state = .ok phantom final) :
    Mints site.range key [phantom] state final := by
  rcases addPhantom_adds stored shaped known ordinary run with
    ⟨rfl, grown, begun, place, events, adds⟩
  rcases adds.found with ⟨origin, found, plain⟩
  have tame : state.tables.Tame { (state.tables.mint site.tree key.slot none).1 with
      graph := some begun } :=
    .of_graphs stored rfl ((Tame.of_added adds.added shaped.sound).trans (.of_similar adds.similar))
  have numbers : Mints site.range key [⟨key.slot, state.last key.slot + 1⟩] state { state with
      tables := { (state.tables.mint site.tree key.slot none).1 with graph := some begun }
      events } :=
    mints_spare site.tree ranged rfl rfl rfl tame
  exact numbers.trans (mergeInto_mints adds.run numbers.ranged rfl adds.shaped
    ⟨origin, ⟨place, found⟩, plain⟩ adds.plain ordinary isRead)

/-- What a visit that may number a phantom comes to: only the phantom is spared a range. -/
structure Haunting (range : Option StatementId) (own : VersionKey) (before after : RunState) :
    Prop where
  mints : ∃ spared, Mints range own spared before after ∧
    (∀ phantom ∈ spared, ∃ owner, after.tables.phantom? owner = some phantom) ∧
    ∀ owner phantom, after.tables.phantom? owner = some phantom →
      before.tables.phantom? owner = some phantom ∨ phantom ∈ spared

theorem Haunting.of_mints {range : Option StatementId} {own : VersionKey}
    (mints : Mints range own [] state final)
    (phantoms : final.tables.phantoms = state.tables.phantoms) :
    Haunting range own state final := by
  refine ⟨[], mints, fun _ member => (nomatch member), fun owner phantom found => .inl ?_⟩
  exact (Tables.phantom?_congr phantoms owner).symm.trans found

/-- What happens before and after without a phantom does not matter. -/
theorem Haunting.between {range : Option StatementId} {own : VersionKey} {first last : RunState}
    (haunting : Haunting range own state final) (before : Mints range own [] first state)
    (same : state.tables.phantoms = first.tables.phantoms) (after : Mints range own [] final last)
    (kept : last.tables.phantoms = final.tables.phantoms) : Haunting range own first last := by
  rcases haunting.mints with ⟨spared, mints, recorded, known⟩
  have whole := (before.trans mints).trans after
  rw [List.nil_append, List.append_nil] at whole
  refine ⟨spared, whole, fun phantom member => ?_, fun owner phantom found => ?_⟩
  · rcases recorded phantom member with ⟨owner, found⟩
    exact ⟨owner, (Tables.phantom?_congr kept owner).trans found⟩
  · rw [Tables.phantom?_congr kept] at found
    rw [← Tables.phantom?_congr same]
    exact known owner phantom found

private theorem ensurePhantom_haunts (ranged : state.Ranged)
    (recorded : state.tables.phantoms.isSome) (stored : state.tables.graph = some graph)
    (shaped : graph.Shaped state.last reads) (known : graph.Plain key) (ordinary : 0 ≤ key.slot)
    (isRead : reads key) (run : ensurePhantom site key state = .ok () final) :
    Haunting site.range key state final := by
  rcases ensurePhantom_cases run with ⟨rfl, -⟩ | ⟨phantom, middle, -, added, books, rfl, lookup⟩
  · exact .of_mints (.refl ranged) rfl
  · have mints := addPhantom_mints ranged stored shaped known ordinary isRead added
    have after : Mints site.range key [] middle { middle with tables := { middle.tables with
        phantoms := middle.tables.phantoms.map fun phantoms => phantoms.insert key phantom } } :=
      .of_tame mints.ranged (.of_same rfl) rfl rfl
    refine ⟨[phantom], mints.trans after, fun other member => ⟨key, ?_⟩, fun owner other found => ?_⟩
    · rw [List.mem_singleton.1 member, lookup recorded, if_pos rfl]
    · rw [lookup recorded] at found
      split at found
      · cases found
        exact .inr List.mem_cons_self
      · exact .inl found

theorem recordLive_mints {range : Option StatementId} {own : VersionKey} {facts : Facts}
    (ranged : state.Ranged) (shaped : state.Shaped reads)
    (run : recordLive site key facts state = .ok () final) : Mints range own [] state final := by
  rcases shaped with ⟨graph, stored, shaped⟩
  rcases recordLive_ok run with rfl | rfl
  · exact .refl ranged
  · exact .of_tame ranged (.of_graphs stored (congrArg (Option.map _) stored)
      (.of_similar (similar_withLive graph key facts))) rfl rfl

/-! ## Definitions and reads -/

section

variable {target : VariableSite} {facts result : Facts}

theorem define_mints (ranged : state.Ranged) (shaped : state.Shaped reads)
    (run : define site target facts state = .ok result final) :
    Mints site.range ⟨target.slot, final.version target.expression⟩ [] state final := by
  cases define_stamping run with
  | first unversioned =>
      rcases shaped with ⟨graph, stored, shaped⟩
      change Mints _ ⟨_, (state.stamped site.tree site.statement target).version _⟩ _ _ _
      rw [RunState.version_stamped]
      exact mints_own ranged rfl rfl (.of_graphs stored (congrArg (Option.map _) stored)
        (.ensure shaped.sound _ _ target.debugName))
  | later versioned live => exact recordLive_mints ranged shaped live

private theorem splitRead_mints {source : Version} (ranged : state.Ranged)
    (stored : state.tables.graph = some graph) (shaped : graph.Shaped state.last reads)
    (plain : graph.Plain ⟨target.slot, source⟩) (ordinary : 0 ≤ target.slot)
    (run : splitRead site target source facts state = .ok result final) :
    Mints site.range ⟨target.slot, final.version target.expression⟩ [] state final := by
  rcases splitRead_splits stored shaped plain ordinary run with
    ⟨begun, grown, place, created, splits⟩ | live
  · obtain rfl := splits.final_eq
    change Mints _ ⟨_, (state.stamped site.tree site.statement target).version _⟩ _ _ _
    rw [RunState.version_stamped]
    -- The edge leaves the source, which is plain.
    have linked := Tame.link splits.found ((splits.added.identity _).trans (if_pos rfl))
      splits.noInput
    have tame := (Tame.of_similar splits.similar).trans
      (.of_added splits.added (splits.similar.sound shaped.sound))
    exact mints_own ranged rfl rfl (.of_graphs stored rfl (tame.trans linked))
  · have same := (quietly_recordLive _ _ _ _ _ _ live).version target.expression
    rw [same]
    exact recordLive_mints ranged ⟨graph, stored, shaped⟩ live

private theorem mergeRead_mints {reaching : VersionSet} (ranged : state.Ranged)
    (stored : state.tables.graph = some graph) (shaped : graph.Shaped state.last reads)
    (known : state.version target.expression ≠ 0 →
      graph.Plain ⟨target.slot, state.version target.expression⟩)
    (plain : ∀ version ∈ reaching, graph.Plain ⟨target.slot, version⟩)
    (ordinary : 0 ≤ target.slot)
    (isRead : reads ⟨target.slot, final.version target.expression⟩)
    (run : mergeRead site target reaching facts state = .ok result final) :
    Mints site.range ⟨target.slot, final.version target.expression⟩ [] state final := by
  rcases mergeRead_merges stored shaped known plain ordinary run with ⟨middle, next, merges⟩
  have begun : Mints site.range ⟨target.slot, final.version target.expression⟩ [] state middle := by
    rcases merges.begins with ⟨rfl, numbered, added⟩ | ⟨⟨facts, live⟩, -⟩
    · rw [numbered] at added ⊢
      exact mints_own ranged rfl rfl (.of_graphs stored merges.stored
        (.of_added added shaped.sound))
    · exact recordLive_mints ranged ⟨graph, stored, shaped⟩ live
  exact begun.trans (mergeInto_mints merges.run begun.ranged merges.stored merges.shaped merges.known
    merges.plain ordinary isRead)

end

/-! ## Fields and copies -/

private theorem slotOfField_mints {range : Option StatementId} {own : VersionKey}
    {expression : ExprId} {slot : Slot} (ranged : state.Ranged) (shaped : state.Shaped reads)
    (run : slotOfField expression state = .ok slot final) :
    Mints range own [] state final ∧ final.tables.phantoms = state.tables.phantoms := by
  rcases shaped with ⟨graph, stored, shaped⟩
  rcases slotOfField_cases run with ⟨-, rfl⟩ | ⟨-, rfl, rfl⟩
  · exact ⟨.refl ranged, rfl⟩
  · exact ⟨.of_tame ranged (.of_graphs stored (congrArg (Option.map _) stored)
      (.ensure shaped.sound _ _)) rfl rfl, rfl⟩

private theorem recordCopy_mints {range : Option StatementId} {own : VersionKey}
    {target : VariableSite} {value : Term} (ranged : state.Ranged)
    (run : recordCopy target value state = .ok () final) :
    Mints range own [] state final ∧
      final.tables.phantoms = state.tables.phantoms := by
  rcases recordCopy_ok run with ⟨copies, events, rfl⟩
  exact ⟨.of_tame ranged (.of_same rfl) rfl rfl, rfl⟩

end RunM

/-! ## Every visit -/

namespace Claimants

variable {claimants : Claimants} {target : VariableSite} {place : Visit} {facts result : Facts}

private theorem Ledger.read_mints (ledger : claimants.Ledger state)
    (admitted : state.Admitted facts) (usage : site.config.has .usageVersions = true)
    (known : claimants.arena.site? target.expression = some target) (ordinary : 0 ≤ target.slot)
    (ranged : state.Ranged) (shaped : state.Shaped reads)
    (isRead : reads ⟨target.slot, final.version target.expression⟩)
    (run : RunM.read site target facts state = .ok result final) :
    Mints site.range ⟨target.slot, final.version target.expression⟩ [] state final := by
  rcases shaped with ⟨graph, stored, shaped⟩
  have plain (version : Version) (member : version ∈ facts.reaching target.slot) :=
    shaped.plain_of_admits stored ordinary (admitted target.slot ordinary version member)
  cases read_ok run with
  | undefined unreached run => exact define_mints ranged ⟨graph, stored, shaped⟩ run
  | adopting only noUsage reached => exact absurd (noUsage.symm.trans usage) Bool.false_ne_true
  | splitting source usage reached run =>
      refine splitRead_mints ranged stored shaped (plain source ?_) ordinary run
      rw [reached]
      exact VersionSet.mem_singleton.2 rfl
  | merging usage several run =>
      exact mergeRead_mints ranged stored shaped (fun versioned => shaped.plain_of_admits stored
        ordinary (ledger.written _ target known versioned)) plain ordinary isRead run
  | tabulating noUsage several run =>
      exact absurd (noUsage.symm.trans usage) Bool.false_ne_true

private theorem Ledger.increment_haunts (ledger : claimants.Ledger state)
    (known : claimants.arena.site? target.expression = some target) (ordinary : 0 ≤ target.slot)
    (versioned : state.version target.expression ≠ 0) (ranged : state.Ranged)
    (shaped : state.Shaped reads)
    (isRead : reads ⟨target.slot, state.version target.expression⟩)
    (run : incrementVariable site target facts state = .ok result final) :
    Haunting site.range ⟨target.slot, state.version target.expression⟩ state final := by
  cases incrementVariable_cases run with
  | unrecorded off => exact .of_mints (.refl ranged) rfl
  | @recorded haunted _ on phantom live =>
      rcases shaped with ⟨graph, stored, shaped⟩
      have plain := shaped.plain_of_admits stored ordinary
        (ledger.written _ target known versioned)
      have haunts := ensurePhantom_haunts ranged on stored shaped plain ordinary isRead phantom
      rcases haunts.mints with ⟨spared, mints, -⟩
      exact haunts.between (.refl ranged) rfl
        (recordLive_mints mints.ranged
          (ensurePhantom_shaped stored shaped plain ordinary isRead phantom) live)
        ((indifferent_books haunted.tables).recordLive _ _ _ _ _ _ (books_refl _) live).phantoms

/-- With usage versions, a visit that begins with admitted facts numbers versions in the range of
its statement, except for phantoms. -/
theorem Ledger.act_ranges (ledger : claimants.Ledger state) (admitted : state.Admitted facts)
    (usage : site.config.has .usageVersions = true) (fits : claimants.Fits site.config place)
    (ranged : state.Ranged) (shaped : state.Shaped reads)
    (isRead : ∀ target, place.isRead = true → place.site? = some target →
      reads ⟨target.slot, final.version target.expression⟩)
    {own : VersionKey} (owned : ∀ target, place.site? = some target →
      own = ⟨target.slot, final.version target.expression⟩)
    (run : place.act site facts state = .ok result final) :
    Haunting site.range own state final := by
  cases act_ok run with
  | read reading =>
      rw [owned _ rfl]
      exact .of_mints (ledger.read_mints admitted usage (fits.known _ rfl) (fits.ordinary _ rfl)
        ranged shaped (isRead _ rfl rfl) reading)
        ((indifferent_books _).read _ _ _ (books_refl state) reading).phantoms
  | define definition =>
      rw [owned _ rfl]
      exact .of_mints (define_mints ranged shaped definition)
        ((indifferent_books _).define _ _ _ (books_refl state) definition).phantoms
  | assign definition copy =>
      rw [owned _ rfl, (quietly_recordCopy _ _ _ _ _ copy).version]
      have defined := define_mints ranged shaped definition
      rcases recordCopy_mints defined.ranged copy with ⟨copied, same⟩
      exact .of_mints (defined.trans copied) (same.trans
        ((indifferent_books _).define _ _ _ (books_refl state) definition).phantoms)
  | @increment target picked _ middle _ reading increases =>
      have marks := isRead target rfl rfl
      rw [owned _ rfl]
      rw [(incrementVariable_ok increases).1.version] at marks ⊢
      have settles : claimants.Settles (.increment target) picked state middle :=
        ledger.read admitted fits rfl rfl reading
      have began := ledger.read_mints admitted usage (fits.known _ rfl) (fits.ordinary _ rfl)
        ranged shaped marks reading
      have begun := ledger.read_shaped admitted usage (fits.known _ rfl) (fits.ordinary _ rfl)
        shaped marks reading
      have haunts := settles.ledger.increment_haunts (fits.known _ rfl) (fits.ordinary _ rfl)
        (settles.versioned _ (Visit.mem_written_of_site rfl)) began.ranged begun marks increases
      rcases haunts.mints with ⟨spared, mints, -⟩
      exact haunts.between began
        ((indifferent_books _).read _ _ _ (books_refl state) reading).phantoms
        (.refl mints.ranged) rfl
  | field request =>
      rcases slotOfField_mints ranged shaped request with ⟨mints, same⟩
      exact .of_mints mints same
  | unversionedField | clobber => exact .of_mints (.refl ranged) rfl

end Claimants

end SlotVersioning
