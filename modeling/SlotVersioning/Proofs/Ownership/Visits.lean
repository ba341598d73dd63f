import SlotVersioning.Proofs.Ownership.Steps

/-!
# Visits keep ledgers

A visit that begins with admitted facts ends with admitted facts, keeps the ledger and leaves a
version at its site (`act_settles`). Without usage versions the site of a read keeps no version of
its own, for a read may write the version of another site or number a new one.
-/

namespace SlotVersioning

open Std VersionGraph RunM

namespace Claimants

/-- What a visit that begins with admitted facts comes to. -/
structure Settles (claimants : Claimants) (place : Visit) (result : Facts)
    (before after : RunState) : Prop where
  ledger : claimants.Ledger after
  advances : claimants.Advances before after
  versioned : ∀ expression ∈ place.written, after.version expression ≠ 0
  admitted : after.Admitted result

variable {claimants : Claimants} {site : Site} {target : VariableSite} {facts result : Facts}
  {state middle final : RunState}

/-- The end of a visit that makes an admitted version the only one of its slot. -/
theorem Settles.of_pin {place : Visit} {version : Nat} (visits : place.site? = some target)
    (ledger : claimants.Ledger final) (advances : claimants.Advances state final)
    (admitted : state.Admitted facts) (admits : final.Admits target.slot version)
    (written : final.version target.expression = version) :
    claimants.Settles place (facts.pin target.slot version) state final where
  ledger := ledger
  advances := advances
  versioned := by
    intro expression member
    rcases Visit.mem_written.1 member with ⟨other, same, rfl⟩
    rw [visits] at same
    cases same
    rw [written]
    exact Nat.ne_of_gt admits.positive
  admitted := (advances.admitted admitted).pin fun _ => admits

/-- An entry of the phi table owns its own key. -/
theorem owned_of_insert {before after : RunState} {phi : ExtTreeMap VersionKey VersionSet}
    {merged key : VersionKey} {sources : VersionSet} {owner : Owner}
    (owns : claimants.Owns after owner key) (stored : before.tables.phi = some phi)
    (inserted : after.tables.phi = some (phi.insert merged sources))
    (versions : after.versions = before.versions)
    (phantoms : after.tables.phantoms = before.tables.phantoms)
    (graph : after.tables.graph = before.tables.graph) :
    claimants.Owns before owner key ∨ owner = .merged merged ∧ key = merged := by
  cases owner with
  | merged other =>
      obtain ⟨rfl, known⟩ := owns
      rw [merged?_insert inserted] at known
      split at known
      · next same => exact .inr ⟨congrArg Owner.merged same.symm, same.symm⟩
      · refine .inl ⟨rfl, ?_⟩
        rw [Tables.merged?_of_stored stored]
        exact known
  | seed index => exact .inl owns
  | site expression =>
      unfold Owns Holds RunState.version at owns
      rw [versions] at owns
      exact .inl owns
  | phantom incremented =>
      exact .inl ((Tables.phantom?_congr phantoms incremented).symm.trans owns)
  | input input =>
      obtain ⟨equal, next, found, isInput⟩ := owns
      rw [graph] at found
      exact .inl ⟨equal, next, found, isInput⟩

/-- The phi table gets an entry for a free version, or for one that it lists already. -/
private theorem Ledger.merge {phi : ExtTreeMap VersionKey VersionSet} {merged : VersionKey}
    {events : List Event} (ledger : claimants.Ledger state)
    (stored : state.tables.phi = some phi) (sources : VersionSet)
    (vacant : claimants.Free state merged ∨ (state.tables.merged? merged).isSome) :
    claimants.Ledger { state with
      tables := { state.tables with phi := some (phi.insert merged sources) }, events } := by
  have negative : RunState.FieldsNegative { state with
      tables := { state.tables with phi := some (phi.insert merged sources) }, events } :=
    ⟨ledger.negative.next, ledger.negative.given⟩
  rcases vacant with free | known
  · refine ledger.claim free.unowned free.positive free.numbered (fun _ => Nat.le_refl _)
      (fun _ _ owns => owned_of_insert owns stored rfl rfl rfl rfl)
      (fun expression target found versioned => ?_) negative
      fun graph facts found recorded slot ordinary version member => ?_
    · have before := ledger.written expression target found versioned
      exact ⟨before.positive, before.numbered, before.plain⟩
    · have before := ledger.live graph facts found recorded slot ordinary version member
      exact ⟨before.positive, before.numbered, before.plain⟩
  · refine ledger.narrow ⟨fun _ => Nat.le_refl _, fun owner key owns => ?_⟩ rfl negative
      fun graph facts found recorded => .inl ⟨graph, found, recorded⟩
    rcases owned_of_insert owns stored rfl rfl rfl rfl with old | ⟨rfl, rfl⟩
    · exact old
    · exact ⟨rfl, known⟩

section

variable (ledger : claimants.Ledger state) (admitted : state.Admitted facts)
variable (known : claimants.arena.site? target.expression = some target)

include ledger admitted known

/-- A site that has a version already is pinned to it, whatever keeps the ledger in between. -/
theorem Ledger.again {place : Visit} (visits : place.site? = some target)
    (versioned : state.version target.expression ≠ 0)
    (kept : claimants.Ledger final) (advances : claimants.Advances state final)
    (versions : final.versions = state.versions) :
    claimants.Settles place (facts.pin target.slot (state.version target.expression)) state
      final := by
  refine .of_pin visits kept advances admitted ?_ (by unfold RunState.version; rw [versions])
  exact advances.admits (ledger.written _ _ known versioned)

theorem Ledger.first {place : Visit} (visits : place.site? = some target)
    (kept : claimants.Ledger final)
    (advances : claimants.Advances (state.stamped site.tree site.statement target) final)
    (versions : final.versions = (state.stamped site.tree site.statement target).versions) :
    claimants.Settles place (facts.pin target.slot (state.last target.slot + 1)) state final := by
  obtain ⟨-, stamps, admits, -⟩ := ledger.stamp site.tree site.statement known
  refine .of_pin visits kept (stamps.trans advances) admitted (advances.admits admits) ?_
  unfold RunState.version
  rw [versions]
  exact state.version_stamped site.tree site.statement target

/-- A stamped site settles if what it draws has no phi input. -/
theorem Ledger.mark {place : Visit} (visits : place.site? = some target)
    {draw : Version → VersionGraph → VersionGraph}
    (created : Version → List (VersionKey × VersionOrigin))
    (plain : ∀ version key, (key, .phiInput) ∉ created version)
    (creates : ∀ version graph, Creates (created version) graph (draw version graph))
    (stamping : Stamping site target draw facts state result final) :
    claimants.Settles place result state final := by
  cases stamping with
  | first unversioned =>
      obtain ⟨stamped, -, -, -⟩ := ledger.stamp site.tree site.statement known
      obtain ⟨kept, advances⟩ := safely_editGraph _ (plain _) (creates _) _ _ _ stamped rfl
      exact ledger.first admitted known visits kept advances
        (quietly_editGraph _ _ _ _ rfl).versions
  | later versioned live =>
      obtain ⟨kept, advances⟩ := ledger.recordLive admitted live
      exact ledger.again admitted known visits versioned kept advances
        (quietly_recordLive _ _ _ _ _ _ live).versions

theorem Ledger.define {place : Visit} (visits : place.site? = some target)
    (run : RunM.define site target facts state = .ok result final) :
    claimants.Settles place result state final := by
  refine ledger.mark admitted known visits
    (fun version => [(⟨target.slot, version⟩, .definition)]) (by simp) ?_ (define_stamping run)
  exact fun version graph => creates_ensure graph _ _ _

private theorem Ledger.splitRead {place : Visit} (visits : place.site? = some target)
    {source : Version} (run : RunM.splitRead site target source facts state = .ok result final) :
    claimants.Settles place result state final := by
  refine ledger.mark admitted known visits
    (fun version => [(⟨target.slot, source⟩, .definition), (⟨target.slot, version⟩, .use)])
    (by simp) ?_ (splitRead_stamping run)
  exact fun version graph => ((creates_ensure graph _ _ _).trans (creates_ensure _ _ _ _)).trans
    (creates_link _ _ _)

private theorem Ledger.mergeRead {place : Visit} (visits : place.site? = some target)
    {reaching : VersionSet}
    (run : RunM.mergeRead site target reaching facts state = .ok result final) :
    claimants.Settles place result state final := by
  rcases mergeRead_stamping run with ⟨middle, stamping, merges⟩
  cases stamping with
  | first unversioned =>
      obtain ⟨stamped, -, -, -⟩ := ledger.stamp site.tree site.statement known
      obtain ⟨created, first⟩ := safely_editGraph
        [(⟨target.slot, state.last target.slot + 1⟩, .use)] (by simp)
        (fun graph => creates_ensure graph _ _ _) _ _ _ stamped rfl
      obtain ⟨kept, second⟩ := safely_mergeInto _ _ _ _ created merges
      exact ledger.first admitted known visits kept (first.trans second)
        ((quietly_mergeInto _ _ _ _ _ _ merges).versions.trans
          (quietly_editGraph _ _ _ _ rfl).versions)
  | later versioned live =>
      obtain ⟨created, first⟩ := ledger.recordLive admitted live
      obtain ⟨kept, second⟩ := safely_mergeInto _ _ _ _ created merges
      exact ledger.again admitted known visits versioned kept (first.trans second)
        ((quietly_mergeInto _ _ _ _ _ _ merges).versions.trans
          (quietly_recordLive _ _ _ _ _ _ live).versions)

/-- A merged version belongs to the phi table, not to the site of the read. -/
private theorem Ledger.tabulateRead {place : Visit} (visits : place.site? = some target)
    (loose : ¬ claimants.keeps target.expression) {reaching : VersionSet}
    (run : RunM.tabulateRead site target reaching facts state = .ok result final) :
    claimants.Settles place result state final := by
  unfold RunM.tabulateRead at run
  rw [bind_eq (tables_apply _)] at run
  cases stored : state.tables.phi with
  | none =>
      simp only [stored] at run
      exact nomatch run
  | some phi =>
      simp only [stored] at run
      rw [bind_eq (versionOf_apply _ _)] at run
      split at run
      · next again =>
        rw [bind_eq (editTables_apply _ _)] at run
        rcases pure_ok run with ⟨rfl, rfl⟩
        have listed :
            (state.tables.merged? ⟨target.slot, state.version target.expression⟩).isSome := by
          rw [Tables.merged?_of_stored stored]
          exact ExtTreeMap.mem_iff_isSome_getElem?.1 (ExtTreeMap.contains_iff_mem.1 again.2)
        refine ledger.again admitted known visits again.1 (ledger.merge stored _ (.inr listed))
          ⟨fun _ => Nat.le_refl _, fun other held owns => ?_⟩ rfl
        rcases owned_of_insert owns stored rfl rfl rfl rfl with old | ⟨rfl, rfl⟩
        · exact .inl old
        · exact .inl ⟨rfl, listed⟩
      · rw [stamp_eq, bind_eq (report_apply _ _), bind_eq (editTables_apply _ _)] at run
        rcases pure_ok run with ⟨rfl, rfl⟩
        obtain ⟨stamped, advances, admits, free⟩ :=
          ledger.stamp site.tree site.statement known
        have stampedStored : (state.stamped site.tree site.statement target).tables.phi = some phi :=
          stored
        refine .of_pin visits (stamped.merge stampedStored reaching (.inl (free loose)))
          ⟨advances.last, fun other held owns => ?_⟩ admitted
          ⟨admits.positive, admits.numbered, admits.plain⟩
          (state.version_stamped site.tree site.statement target)
        rcases owned_of_insert owns stampedStored rfl rfl rfl rfl with old | ⟨rfl, rfl⟩
        · exact advances.owned other held old
        · exact .inr (Nat.lt_succ_self _)

/-- A read may take over the version that reaches it. -/
private theorem Ledger.adopt {place : Visit} (visits : place.site? = some target)
    (loose : ¬ claimants.keeps target.expression) {only : Version}
    (admits : state.Admits target.slot only) :
    claimants.Settles place facts state
      { state with versions := state.versions.insert target.expression only } := by
  have version (expression : ExprId) := state.version_insert target.expression expression only
  have narrows : claimants.Narrows state
      { state with versions := state.versions.insert target.expression only } := by
    refine ⟨fun _ => Nat.le_refl _, fun owner key owns => ?_⟩
    cases owner with
    | site expression =>
        obtain ⟨keeps, versioned, site, found, rfl⟩ := owns
        have different : target.expression ≠ expression := by
          rintro rfl
          exact loose keeps
        rw [version, if_neg different] at versioned ⊢
        exact ⟨keeps, versioned, site, found, rfl⟩
    | seed | merged | phantom | input => exact owns
  have written : RunState.version
      { state with versions := state.versions.insert target.expression only }
      target.expression = only := by
    rw [version, if_pos rfl]
  refine ⟨⟨?_, ?_, ?_, ?_, ?_⟩, narrows.advances, ?_, narrows.advances.admitted admitted⟩
  · exact fun first second key left right =>
      ledger.unique first second key (narrows.owned _ _ left) (narrows.owned _ _ right)
  · exact fun owner key owns => ledger.numbered owner key (narrows.owned owner key owns)
  · intro expression found known' versioned
    rw [version] at versioned ⊢
    split
    · next same =>
        subst same
        rw [known] at known'
        cases known'
        exact narrows.advances.admits admits
    · next different =>
        rw [if_neg different] at versioned
        exact narrows.advances.admits (ledger.written expression found known' versioned)
  · exact ⟨ledger.negative.next, ledger.negative.given⟩
  · intro graph facts stored recorded
    exact narrows.advances.admitted (ledger.live graph facts stored recorded)
  · intro expression member
    rcases Visit.mem_written.1 member with ⟨other, same, rfl⟩
    rw [visits] at same
    cases same
    rw [written]
    exact Nat.ne_of_gt admits.positive

end

/-! ## Every visit -/

/-- The place is at a variable of the arena, and without usage versions a read keeps no version of
its own. -/
structure Fits (claimants : Claimants) (config : Config) (place : Visit) : Prop where
  known : ∀ target, place.site? = some target →
    claimants.arena.site? target.expression = some target
  ordinary : ∀ target, place.site? = some target → 0 ≤ target.slot
  loose : config.has .usageVersions = false → place.isRead = true →
    ∀ target, place.site? = some target → ¬ claimants.keeps target.expression

theorem Settles.after {place : Visit} (settles : claimants.Settles place result state middle)
    (ledger : claimants.Ledger final) (advances : claimants.Advances middle final)
    (versions : final.versions = middle.versions) :
    claimants.Settles place result state final where
  ledger := ledger
  advances := settles.advances.trans advances
  versioned := by
    unfold RunState.version
    rw [versions]
    exact settles.versioned
  admitted := advances.admitted settles.admitted

variable {place : Visit}

theorem Ledger.read (ledger : claimants.Ledger state) (admitted : state.Admitted facts)
    (fits : claimants.Fits site.config place) (isRead : place.isRead = true)
    (visits : place.site? = some target)
    (run : RunM.read site target facts state = .ok result final) :
    claimants.Settles place result state final := by
  have known := fits.known target visits
  cases read_ok run with
  | undefined unreached run => exact ledger.define admitted known visits run
  | adopting only plain reached =>
      refine ledger.adopt admitted known visits (fits.loose plain isRead target visits) ?_
      apply admitted target.slot (fits.ordinary target visits)
      rw [reached]
      exact VersionSet.mem_singleton.2 rfl
  | splitting source usage reached run => exact ledger.splitRead admitted known visits run
  | merging usage several run => exact ledger.mergeRead admitted known visits run
  | tabulating plain several run =>
      exact ledger.tabulateRead admitted known visits (fits.loose plain isRead target visits) run

/-- What an increment does besides reading. -/
private theorem Settles.increment (settles : claimants.Settles place facts state middle)
    (fits : claimants.Fits site.config place) (visits : place.site? = some target)
    (run : incrementVariable site target facts middle = .ok result final) :
    claimants.Settles place result state final := by
  cases incrementVariable_cases run with
  | unrecorded off => exact settles
  | recorded on phantom live =>
      obtain ⟨kept, first⟩ := safely_ensurePhantom _ _ _ settles.ledger phantom
      obtain ⟨done, second⟩ := kept.recordLive (first.admitted settles.admitted) live
      have known := fits.known target visits
      have versioned := settles.versioned _ (Visit.mem_written_of_site visits)
      have admits := settles.ledger.written _ target known versioned
      have quiet := (quietly_ensurePhantom _ _ _ _ _ phantom).trans
        (quietly_recordLive _ _ _ _ _ _ live)
      have later := settles.after done (first.trans second) quiet.versions
      exact { later with
        admitted := later.admitted.pin fun _ => (first.trans second).admits admits }

/-- Every visit that begins with admitted facts settles. -/
theorem Ledger.act (ledger : claimants.Ledger state) (admitted : state.Admitted facts)
    (fits : claimants.Fits site.config place)
    (run : place.act site facts state = .ok result final) :
    claimants.Settles place result state final := by
  cases act_ok run with
  | read reading => exact ledger.read admitted fits rfl rfl reading
  | define definition => exact ledger.define admitted (fits.known _ rfl) rfl definition
  | @assign target value _ middle _ definition copy =>
      have settles : claimants.Settles (.assign target value) result state middle :=
        ledger.define admitted (fits.known _ rfl) rfl definition
      obtain ⟨kept, advances⟩ := safely_recordCopy _ _ _ _ _ settles.ledger copy
      exact settles.after kept advances (quietly_recordCopy _ _ _ _ _ copy).versions
  | increment reading increases =>
      exact (ledger.read admitted fits rfl rfl reading).increment fits rfl increases
  | field request =>
      obtain ⟨kept, advances⟩ := safely_slotOfField _ _ _ _ ledger request
      have below := slotOfField_negative request ledger.negative
      exact ⟨kept, advances, (fun _ member => nomatch member),
        (advances.admitted admitted).pin fun ordinary => absurd below (Int.not_lt.2 ordinary)⟩
  | unversionedField => exact ⟨ledger, .refl _, (fun _ member => nomatch member), admitted⟩
  | clobber =>
      refine ⟨ledger, .refl _, (fun _ member => nomatch member), ?_⟩
      unfold clobberFields
      split
      · exact admitted.withoutFields
      · exact admitted

end Claimants

end SlotVersioning
