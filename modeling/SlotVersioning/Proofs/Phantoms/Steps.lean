import SlotVersioning.Proofs.Phantoms.Tethers
import SlotVersioning.Proofs.Rest.Books
import SlotVersioning.Proofs.Shape.Steps

/-!
# Visits keep phantoms tethered

With usage versions, recorded phantoms stay tethered when the version of a read is wired anew, as long
as no facts hold a phantom: their owner wants them, and other versions do not link to them. The
phantom of an increment is tethered before it is recorded (`Ledger.act_tied`).
-/

namespace SlotVersioning

open Std VersionGraph RunM

namespace RunState

/-- The phantom is tethered to its owner in the version graph. -/
def Tethers (state : RunState) (phantom owner : VersionKey) : Prop :=
  ∃ graph, state.tables.graph = some graph ∧ graph.Tethers phantom owner

/-- All recorded phantoms are tethered. -/
def Tied (state : RunState) : Prop :=
  ∀ owner phantom, state.tables.phantom? owner = some phantom → state.Tethers phantom owner

/-- The facts hold no recorded phantom for a variable. -/
def Unhaunted (state : RunState) (facts : Facts) : Prop :=
  ∀ slot, 0 ≤ slot → ∀ version ∈ facts.reaching slot, ∀ owner,
    state.tables.phantom? owner ≠ some ⟨slot, version⟩

variable {state final : RunState} {phantom owner : VersionKey}

theorem Tethers.edit (tethers : state.Tethers phantom owner) {edit : VersionGraph → VersionGraph}
    (same : final.tables.graph = state.tables.graph.map edit)
    (steady : ∀ graph, Steady graph (edit graph)) : final.Tethers phantom owner := by
  rcases tethers with ⟨graph, stored, place, way, target, tether⟩
  rw [stored] at same
  exact ⟨edit graph, same, place, way, target, tether.of_steady (steady graph)⟩

/-- While the same phantoms are recorded, they stay tethered one by one. -/
theorem Tied.of_phantoms (tied : state.Tied)
    (phantoms : final.tables.phantoms = state.tables.phantoms)
    (each : ∀ owner phantom, state.tables.phantom? owner = some phantom →
      state.Tethers phantom owner → final.Tethers phantom owner) : final.Tied := by
  intro owner phantom recorded
  rw [Tables.phantom?_congr phantoms] at recorded
  exact each owner phantom recorded (tied owner phantom recorded)

end RunState

variable {reads : VersionKey → Prop} {state middle final : RunState} {graph : VersionGraph}
  {phantom owner : VersionKey}

namespace RunM

variable {site : Site} {key : VersionKey}

section

variable (stored : state.tables.graph = some graph) (shaped : graph.Shaped state.last reads)
  (ordinary : 0 ≤ key.slot) (isRead : reads key)

include stored shaped ordinary isRead

/-! ## Merging -/

theorem addPhiInputs_tethers {target : Nat} {pending : List Version}
    (awaits : graph.Awaits key target pending) (tethers : graph.Tethers phantom owner)
    (avoids : ∀ version ∈ pending, ⟨key.slot, version⟩ ≠ phantom)
    (run : pending.forM (addPhiInput site key target) state = .ok () final) :
    final.Tethers phantom owner := by
  induction pending generalizing state graph with
  | nil =>
      rcases pure_ok run with ⟨-, rfl⟩
      exact ⟨graph, stored, tethers⟩
  | cons source pending induction =>
      rcases bind_ok run with ⟨_, middle, first, run⟩
      rcases addPhiInput_feeds stored shaped ordinary isRead awaits first with
        ⟨next, nextStored, nextShaped, nextAwaits, input, origin, step, created, atOrigin, plain,
          inserted⟩
      rcases tethers with ⟨place, way, sink, tether⟩
      have different := avoids source List.mem_cons_self
      exact induction nextStored nextShaped nextAwaits
        ⟨place, way, sink, tether.of_inserted inserted atOrigin plain different⟩
        (fun version later => avoids version (List.mem_cons_of_mem _ later)) run

/-- A loose phantom that is pending is tethered once its turn comes. -/
private theorem addPhiInputs_ties {target : Nat} {pending : List Version} {version : Version}
    (awaits : graph.Awaits key target pending) (loose : graph.Loose ⟨key.slot, version⟩)
    (waits : version ∈ pending)
    (run : pending.forM (addPhiInput site key target) state = .ok () final) :
    final.Tethers ⟨key.slot, version⟩ key := by
  induction pending generalizing state graph with
  | nil => exact nomatch waits
  | cons source pending induction =>
      rcases bind_ok run with ⟨_, middle, first, rest⟩
      rcases addPhiInput_feeds stored shaped ordinary isRead awaits first with
        ⟨next, nextStored, nextShaped, nextAwaits, input, origin, step, created, atOrigin, plain,
          inserted⟩
      rcases awaits.node with ⟨kind, atTarget, noInput⟩
      have distinct := (List.nodup_cons.1 awaits.distinct).1
      rcases List.mem_cons.1 waits with rfl | later
      · refine addPhiInputs_tethers nextStored nextShaped ordinary isRead nextAwaits
          (loose.tethers shaped.sound inserted atOrigin atTarget noInput) (fun other later equal => ?_)
          rest
        rw [VersionKey.mk.injEq] at equal
        exact distinct (equal.2 ▸ later)
      · refine induction nextStored nextShaped nextAwaits
          (loose.of_inserted inserted atOrigin fun equal => ?_) later rest
        rw [VersionKey.mk.injEq] at equal
        exact distinct (equal.2 ▸ later)

variable (known : graph.Plain key)

include known

/-- A version that is wired anew keeps its phantom, and does not touch those of other versions. -/
theorem mergeInto_tethers {sources : VersionSet}
    (plain : ∀ version ∈ sources, graph.Plain ⟨key.slot, version⟩)
    (recorded : state.tables.phantom? owner = some phantom) (tethers : graph.Tethers phantom owner)
    (avoids : ∀ version ∈ sources, ⟨key.slot, version⟩ ≠ phantom)
    (run : mergeInto site key sources state = .ok () final) : final.Tethers phantom owner := by
  rcases mergeInto_merges run stored shaped known plain with
    ⟨begun, pruned, place, wanted, wired, merges⟩
  rcases tethers with ⟨own, way, target, tether⟩
  have begunTether := tether.of_steady (.of_similar merges.similar)
  have spared : pruned.Tether phantom owner own way target := by
    refine begunTether.of_trimming merges.shaped merges.trimming merges.notInput ?_
    rintro rfl
    rcases merges.found with ⟨origin, found, -⟩
    rcases begunTether.sink with ⟨created, sink, -⟩
    rw [found] at sink
    cases sink
    exact merges.own phantom recorded
  refine addPhiInputs_tethers ?_ ?_ ordinary isRead merges.awaits ⟨own, way, target, spared⟩
    (fun version member => avoids version ?_) merges.run
  · rfl
  · exact merges.trimmed
  · exact VersionSet.mem_toList.1 (List.mem_filter.1 member).1

/-- A loose phantom that is merged into a version is tethered to it. -/
private theorem mergeInto_ties {sources : VersionSet} {version : Version}
    (plain : ∀ version ∈ sources, graph.Plain ⟨key.slot, version⟩)
    (loose : graph.Loose ⟨key.slot, version⟩) (member : version ∈ sources)
    (run : mergeInto site key sources state = .ok () final) :
    final.Tethers ⟨key.slot, version⟩ key := by
  rcases mergeInto_merges run stored shaped known plain with
    ⟨begun, pruned, place, wanted, wired, merges⟩
  rcases merges.found with ⟨origin, found, -⟩
  have begunLoose := loose.of_steady (.of_similar merges.similar)
  have missing : version ∉ wired :=
    begunLoose.not_mem_wired merges.shaped.sound found rfl merges.trimming
  refine addPhiInputs_ties ?_ ?_ ordinary isRead merges.awaits
    (begunLoose.of_trimming merges.trimming) (List.mem_filter.2 ⟨?_, ?_⟩) merges.run
  · rfl
  · exact merges.trimmed
  · exact VersionSet.mem_toList.2 member
  · rw [Bool.not_eq_true', Bool.eq_false_iff]
    exact fun contained => missing (VersionSet.mem_def.2 contained)

/-! ## Phantoms -/

/-- A new phantom leaves the tethers of other versions alone. -/
private theorem addPhantom_tethers {new : VersionKey}
    (recorded : state.tables.phantom? owner = some phantom) (tethers : graph.Tethers phantom owner)
    (different : owner ≠ key) (run : addPhantom site key state = .ok new final) :
    final.Tethers phantom owner := by
  rcases addPhantom_adds stored shaped known ordinary run with
    ⟨rfl, grown, begun, place, events, adds⟩
  rcases adds.found with ⟨origin, found, noInput⟩
  rcases tethers with ⟨own, way, target, tether⟩
  have begunTether := tether.of_steady
    ((Steady.of_added adds.added).trans (.of_similar adds.similar))
  have notInput := isPhiInputAt_eq_false found noInput
  refine mergeInto_tethers ?_ ?_ ordinary isRead ⟨origin, ⟨place, found⟩, noInput⟩ adds.plain ?_
    ⟨own, way, target, begunTether⟩ (fun version member => ?_) adds.run
  · rfl
  · exact adds.shaped
  · exact recorded
  · rintro rfl
    rcases VersionSet.mem_insert.1 member with rfl | flows
    · exact nomatch adds.unknown.symm.trans (shaped.sound.indexed _ _ _ tether.source)
    · -- What flows into the version already is no phantom of another one.
      have here := begunTether.eq_target_of_flowsTo adds.shaped notInput
        (adds.shaped.sound.flowsTo_of_mem_sourcesAt found flows)
      subst here
      rcases begunTether.sink with ⟨created, sink, -⟩
      rw [found] at sink
      cases sink
      exact different rfl

private theorem addPhantom_ties {new : VersionKey}
    (run : addPhantom site key state = .ok new final) : final.Tethers new key := by
  rcases addPhantom_adds stored shaped known ordinary run with
    ⟨rfl, grown, begun, place, events, adds⟩
  rcases adds.found with ⟨origin, found, noInput⟩
  have loose := (Loose.of_added adds.added).of_steady (.of_similar adds.similar)
  refine mergeInto_ties ?_ ?_ ordinary isRead ⟨origin, ⟨place, found⟩, noInput⟩ adds.plain loose
    (VersionSet.mem_insert.2 (.inl rfl)) adds.run
  · rfl
  · exact adds.shaped

private theorem ensurePhantom_tied (on : state.tables.phantoms.isSome) (tied : state.Tied)
    (run : ensurePhantom site key state = .ok () final) : final.Tied := by
  rcases ensurePhantom_cases run with ⟨rfl, -⟩ | ⟨new, middle, unknown, adds, -, rfl, lookup⟩
  · exact tied
  · intro owner phantom recorded
    rw [lookup on] at recorded
    split at recorded
    · next own =>
        cases recorded
        subst own
        have ties := addPhantom_ties stored shaped ordinary isRead known adds
        exact ties
    · next other =>
        rcases tied owner phantom recorded with ⟨_, found, tethers⟩
        rw [stored] at found
        cases found
        have kept := addPhantom_tethers stored shaped ordinary isRead known recorded tethers
          (fun same => other same.symm) adds
        exact kept

end

/-! ## Definitions and reads -/

theorem recordLive_tethers {facts : Facts} (tethers : state.Tethers phantom owner)
    (run : recordLive site key facts state = .ok () final) : final.Tethers phantom owner := by
  rcases recordLive_ok run with rfl | rfl
  · exact tethers
  · exact tethers.edit rfl fun graph => .of_similar (similar_withLive graph key facts)

section

variable {target : VariableSite} {facts result : Facts}

theorem define_tethers (tethers : state.Tethers phantom owner)
    (run : define site target facts state = .ok result final) : final.Tethers phantom owner := by
  cases define_stamping run with
  | first unversioned => exact tethers.edit rfl fun graph => .ensure graph _ _ _
  | later versioned live => exact recordLive_tethers tethers live

/-- A read is linked from a version that is no recorded phantom. -/
private theorem splitRead_tethers {source : Version} (stored : state.tables.graph = some graph)
    (shaped : graph.Shaped state.last reads) (plain : graph.Plain ⟨target.slot, source⟩)
    (ordinary : 0 ≤ target.slot) (tethers : graph.Tethers phantom owner)
    (avoids : ⟨target.slot, source⟩ ≠ phantom)
    (run : splitRead site target source facts state = .ok result final) :
    final.Tethers phantom owner := by
  rcases splitRead_splits stored shaped plain ordinary run with
    ⟨begun, grown, place, created, splits⟩ | live
  · obtain rfl := splits.final_eq
    rcases tethers with ⟨own, way, sink, tether⟩
    have grew := (Steady.of_similar splits.similar).trans (.of_added splits.added)
    exact ⟨_, rfl, own, way, sink, (tether.of_steady grew).of_link splits.found splits.noInput avoids
      ((splits.added.identity _).trans (if_pos rfl))⟩
  · exact recordLive_tethers ⟨graph, stored, tethers⟩ live

/-- A read that several versions reach is wired to them, and none is a recorded phantom. -/
private theorem mergeRead_tethers {reaching : VersionSet} (stored : state.tables.graph = some graph)
    (shaped : graph.Shaped state.last reads)
    (known : state.version target.expression ≠ 0 →
      graph.Plain ⟨target.slot, state.version target.expression⟩)
    (plain : ∀ version ∈ reaching, graph.Plain ⟨target.slot, version⟩)
    (ordinary : 0 ≤ target.slot)
    (isRead : reads ⟨target.slot, final.version target.expression⟩)
    (recorded : state.tables.phantom? owner = some phantom) (tethers : graph.Tethers phantom owner)
    (avoids : ∀ version ∈ reaching, ⟨target.slot, version⟩ ≠ phantom)
    (run : mergeRead site target reaching facts state = .ok result final) :
    final.Tethers phantom owner := by
  rcases mergeRead_merges stored shaped known plain ordinary run with ⟨middle, next, merges⟩
  rcases tethers with ⟨own, way, sink, tether⟩
  have begun : next.Tether phantom owner own way sink := by
    rcases merges.begins with ⟨-, -, added⟩ | ⟨-, similar⟩
    · exact tether.of_steady (.of_added added)
    · exact tether.of_steady (.of_similar similar)
  refine mergeInto_tethers merges.stored merges.shaped ordinary isRead merges.known merges.plain ?_
    ⟨own, way, sink, begun⟩ avoids merges.run
  rw [Tables.phantom?_congr merges.phantoms]
  exact recorded

end

/-! ## Fields and copies -/

private theorem slotOfField_tethers {expression : ExprId} {slot : Slot}
    (tethers : state.Tethers phantom owner) (run : slotOfField expression state = .ok slot final) :
    final.Tethers phantom owner := by
  rcases slotOfField_cases run with ⟨-, rfl⟩ | ⟨-, rfl, rfl⟩
  · exact tethers
  · exact tethers.edit rfl fun graph => .ensure graph _ _ _

theorem slotOfField_phantoms {expression : ExprId} {slot : Slot}
    (run : slotOfField expression state = .ok slot final) :
    final.tables.phantoms = state.tables.phantoms := by
  rcases slotOfField_cases run with ⟨-, rfl⟩ | ⟨-, rfl, rfl⟩ <;> rfl

/-! ## What is recorded -/

section

variable {target : VariableSite} {place : Visit} {facts result : Facts}

/-- An increment records a phantom of its own version, if any. -/
private theorem incrementVariable_phantom?
    (run : incrementVariable site target facts state = .ok result final)
    (found : final.tables.phantom? owner = some phantom) :
    state.tables.phantom? owner = some phantom ∨
      owner = ⟨target.slot, final.version target.expression⟩ := by
  have version := (incrementVariable_ok run).1.version target.expression
  cases incrementVariable_cases run with
  | unrecorded off => exact .inl found
  | @recorded haunted _ on ensures live =>
      have books := (indifferent_books haunted.tables).recordLive _ _ _ _ _ _ (books_refl _) live
      rw [Tables.phantom?_congr books.phantoms] at found
      rcases ensurePhantom_cases ensures with ⟨rfl, -⟩ | ⟨new, middle, -, -, -, -, lookup⟩
      · exact .inl found
      · replace found := (lookup on owner).symm.trans found
        split at found
        · next own => exact .inr (by rw [version, own])
        · exact .inl found

/-- A visit records a phantom for an increment only, under its own version. -/
theorem act_phantom? (run : place.act site facts state = .ok result final)
    (found : final.tables.phantom? owner = some phantom) :
    state.tables.phantom? owner = some phantom ∨ ∃ target, place = .increment target ∧
      owner = ⟨target.slot, final.version target.expression⟩ := by
  have kept := books_refl state
  cases act_ok run with
  | read reading =>
      have books := (indifferent_books _).read _ _ _ kept reading
      exact .inl (Tables.phantom?_congr books.phantoms owner ▸ found)
  | define definition =>
      have books := (indifferent_books _).define _ _ _ kept definition
      exact .inl (Tables.phantom?_congr books.phantoms owner ▸ found)
  | assign definition copy =>
      have books := (indifferent_books _).define _ _ _ kept definition
      rcases recordCopy_ok copy with ⟨copies, events, rfl⟩
      exact .inl (Tables.phantom?_congr books.phantoms owner ▸ found)
  | increment reading increases =>
      have books := (indifferent_books _).read _ _ _ kept reading
      rcases incrementVariable_phantom? increases found with old | own
      · exact .inl (Tables.phantom?_congr books.phantoms owner ▸ old)
      · exact .inr ⟨_, rfl, own⟩
  | field request =>
      exact .inl (Tables.phantom?_congr (slotOfField_phantoms request) owner ▸ found)
  | unversionedField | clobber => exact .inl found

end

end RunM

/-! ## Every visit -/

namespace Claimants

variable {claimants : Claimants} {site : Site} {target : VariableSite} {place : Visit}
  {facts result : Facts}

/-- With usage versions, a read of facts without phantoms keeps the phantoms tethered. -/
private theorem Ledger.read_tied (ledger : claimants.Ledger state) (admitted : state.Admitted facts)
    (usage : site.config.has .usageVersions = true)
    (known : claimants.arena.site? target.expression = some target) (ordinary : 0 ≤ target.slot)
    (shaped : state.Shaped reads) (isRead : reads ⟨target.slot, final.version target.expression⟩)
    (tied : state.Tied) (unhaunted : state.Unhaunted facts)
    (run : RunM.read site target facts state = .ok result final) : final.Tied := by
  rcases shaped with ⟨graph, stored, shaped⟩
  have plain (version : Version) (member : version ∈ facts.reaching target.slot) :=
    shaped.plain_of_admits stored ordinary (admitted target.slot ordinary version member)
  refine tied.of_phantoms ((indifferent_books _).read _ _ _ (books_refl state) run).phantoms
    fun owner phantom recorded tethers => ?_
  have avoids (version : Version) (member : version ∈ facts.reaching target.slot) :
      ⟨target.slot, version⟩ ≠ phantom :=
    fun same => unhaunted target.slot ordinary version member owner (same ▸ recorded)
  cases read_ok run with
  | undefined unreached run => exact define_tethers tethers run
  | adopting only noUsage reached => exact absurd (noUsage.symm.trans usage) Bool.false_ne_true
  | tabulating noUsage several run =>
      exact absurd (noUsage.symm.trans usage) Bool.false_ne_true
  | splitting source usage reached run =>
      rcases tethers with ⟨_, found, tethers⟩
      rw [stored] at found
      cases found
      have member : source ∈ facts.reaching target.slot := by
        rw [reached]
        exact VersionSet.mem_singleton.2 rfl
      exact splitRead_tethers stored shaped (plain source member) ordinary tethers
        (avoids source member) run
  | merging usage several run =>
      rcases tethers with ⟨_, found, tethers⟩
      rw [stored] at found
      cases found
      exact mergeRead_tethers stored shaped (fun versioned => shaped.plain_of_admits stored ordinary
        (ledger.written _ target known versioned)) plain ordinary isRead recorded tethers avoids run

/-- The phantom that an increment records is tethered, too. -/
private theorem Ledger.increment_tied (ledger : claimants.Ledger state)
    (known : claimants.arena.site? target.expression = some target) (ordinary : 0 ≤ target.slot)
    (versioned : state.version target.expression ≠ 0) (shaped : state.Shaped reads)
    (isRead : reads ⟨target.slot, state.version target.expression⟩) (tied : state.Tied)
    (run : incrementVariable site target facts state = .ok result final) : final.Tied := by
  cases incrementVariable_cases run with
  | unrecorded off => exact tied
  | @recorded haunted _ on ensures live =>
      rcases shaped with ⟨graph, stored, shaped⟩
      have plain := shaped.plain_of_admits stored ordinary
        (ledger.written _ target known versioned)
      have ensured := ensurePhantom_tied stored shaped ordinary isRead plain on tied ensures
      have books := (indifferent_books haunted.tables).recordLive _ _ _ _ _ _ (books_refl _) live
      exact ensured.of_phantoms books.phantoms fun owner phantom _ tethers =>
        recordLive_tethers tethers live

/-- With usage versions, a visit that begins with facts without phantoms keeps the phantoms tethered. -/
theorem Ledger.act_tied (ledger : claimants.Ledger state) (admitted : state.Admitted facts)
    (usage : site.config.has .usageVersions = true) (fits : claimants.Fits site.config place)
    (shaped : state.Shaped reads)
    (isRead : ∀ target, place.isRead = true → place.site? = some target →
      reads ⟨target.slot, final.version target.expression⟩)
    (tied : state.Tied) (unhaunted : state.Unhaunted facts)
    (run : place.act site facts state = .ok result final) : final.Tied := by
  have kept := books_refl state
  cases act_ok run with
  | read reading =>
      exact ledger.read_tied admitted usage (fits.known _ rfl) (fits.ordinary _ rfl) shaped
        (isRead _ rfl rfl) tied unhaunted reading
  | define definition =>
      exact tied.of_phantoms ((indifferent_books _).define _ _ _ kept definition).phantoms
        fun owner phantom _ tethers => define_tethers tethers definition
  | assign definition copy =>
      rcases recordCopy_ok copy with ⟨copies, events, rfl⟩
      have defined := tied.of_phantoms ((indifferent_books _).define _ _ _ kept definition).phantoms
        fun owner phantom _ tethers => define_tethers tethers definition
      exact defined
  | @increment target picked _ middle _ reading increases =>
      have marks := isRead target rfl rfl
      rw [(incrementVariable_ok increases).1.version] at marks
      have settles : claimants.Settles (.increment target) picked state middle :=
        ledger.read admitted fits rfl rfl reading
      have begun := ledger.read_shaped admitted usage (fits.known _ rfl) (fits.ordinary _ rfl)
        shaped marks reading
      have began := ledger.read_tied admitted usage (fits.known _ rfl) (fits.ordinary _ rfl) shaped
        marks tied unhaunted reading
      exact settles.ledger.increment_tied (fits.known _ rfl) (fits.ordinary _ rfl)
        (settles.versioned _ (Visit.mem_written_of_site rfl)) begun marks began increases
  | field request =>
      exact tied.of_phantoms (slotOfField_phantoms request) fun owner phantom _ tethers =>
        slotOfField_tethers tethers request
  | unversionedField | clobber => exact tied

end Claimants

end SlotVersioning
