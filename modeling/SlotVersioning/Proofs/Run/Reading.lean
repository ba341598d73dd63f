import SlotVersioning.Proofs.Run.Quiet

/-!
# Definitions and reads

What a visit to a variable site does to the state. A visit *touches* its site: no other version
changes. A visit that *stamps* its site gives it a version of its own on the first visit and keeps
that version later. Definitions stamp their site, and so do all reads with usage versions.

`Reading` tells the ways in which a read can go apart.
-/

namespace SlotVersioning

open Std

namespace VersionSet

theorem eq_empty_of_toList {set : VersionSet} (members : set.toList = []) : set = ∅ :=
  ext fun version => by rw [← mem_toList, members]; simp

theorem eq_singleton_of_toList {set : VersionSet} {only : Version}
    (members : set.toList = [only]) : set = {only} :=
  ext fun version => by rw [← mem_toList, members]; simp

end VersionSet

theorem Tables.phantom?_congr {before after : Tables} (same : after.phantoms = before.phantoms)
    (owner : VersionKey) : after.phantom? owner = before.phantom? owner := by
  unfold Tables.phantom?
  rw [same]

/-- At most the version of the site changes. -/
structure Touches (target : VariableSite) (before after : RunState) : Prop where
  others : ∀ expression, expression ≠ target.expression →
    after.version expression = before.version expression
  stores : after.stores = before.stores
  last : ∀ slot, before.last slot ≤ after.last slot
  fields : before.FieldsNegative → after.FieldsNegative

/-- The site has a version afterwards: the one that it had, or else a new one. -/
structure Stamps (target : VariableSite) (before after : RunState) : Prop
    extends Touches target before after where
  phi : after.tables.phi = before.tables.phi
  kept : before.version target.expression ≠ 0 →
    after.version target.expression = before.version target.expression
  fresh : before.version target.expression = 0 →
    before.last target.slot < after.version target.expression
  bounded : before.version target.expression = 0 →
    after.version target.expression ≤ after.last target.slot

theorem Quiet.touches {target : VariableSite} {before after : RunState}
    (quiet : Quiet before after) : Touches target before after where
  others := fun expression _ => quiet.version expression
  stores := quiet.stores
  last := quiet.last
  fields := quiet.fields

namespace Touches

variable {target : VariableSite} {first second third : RunState}

theorem trans (left : Touches target first second) (right : Touches target second third) :
    Touches target first third where
  others := fun expression different =>
    (right.others expression different).trans (left.others expression different)
  stores := right.stores.trans left.stores
  last := fun slot => Nat.le_trans (left.last slot) (right.last slot)
  fields := fun negative => right.fields (left.fields negative)

end Touches

namespace Stamps

variable {target : VariableSite} {first second third : RunState}

/-- A site that has a version already is stamped by any quiet action. -/
private theorem of_quiet (quiet : Quiet first second)
    (versioned : first.version target.expression ≠ 0) :
    Stamps target first second where
  toTouches := quiet.touches
  phi := quiet.phi
  kept := fun _ => quiet.version _
  fresh := fun none => absurd none versioned
  bounded := fun none => absurd none versioned

theorem trans_quiet (left : Stamps target first second) (right : Quiet second third) :
    Stamps target first third where
  toTouches := left.toTouches.trans right.touches
  phi := right.phi.trans left.phi
  kept := fun versioned => (right.version _).trans (left.kept versioned)
  fresh := fun none => by
    rw [right.version]
    exact left.fresh none
  bounded := fun none => by
    rw [right.version]
    exact Nat.le_trans (left.bounded none) (right.last _)

theorem ne_zero (stamps : Stamps target first second) : second.version target.expression ≠ 0 := by
  by_cases versioned : first.version target.expression = 0
  · have fresh := stamps.fresh versioned
    omega
  · rw [stamps.kept versioned]
    exact versioned

end Stamps

namespace RunState

/-- The state after a new version was numbered for a site and written there. -/
def stamped (state : RunState) (tree : StatementTree) (statement : StatementId)
    (target : VariableSite) : RunState :=
  { state with
    tables := (state.tables.mint tree target.slot (some statement)).1
    versions := state.versions.insert target.expression (state.last target.slot + 1) }

theorem version_insert (state : RunState) (expression other : ExprId) (version : Version) :
    RunState.version { state with versions := state.versions.insert expression version } other =
      if expression = other then version else state.version other := by
  simp only [RunState.version, ExtTreeMap.getD_insert, Std.compare_eq_iff_eq]

theorem last_mint (state : RunState) (tree : StatementTree) (slot other : Slot)
    (statement : Option StatementId) :
    RunState.last { state with tables := (state.tables.mint tree slot statement).1 } other =
      if slot = other then state.last slot + 1 else state.last other := by
  change (state.tables.lastVersions.insert slot (state.last slot + 1)).getD other 0 = _
  rw [ExtTreeMap.getD_insert]
  simp only [Std.compare_eq_iff_eq]
  rfl

theorem version_stamped_eq (state : RunState) (tree : StatementTree) (statement : StatementId)
    (target : VariableSite) (other : ExprId) :
    (state.stamped tree statement target).version other =
      if target.expression = other then state.last target.slot + 1 else state.version other :=
  state.version_insert target.expression other _

@[simp] theorem version_stamped (state : RunState) (tree : StatementTree)
    (statement : StatementId) (target : VariableSite) :
    (state.stamped tree statement target).version target.expression =
      state.last target.slot + 1 := by
  rw [version_stamped_eq, if_pos rfl]

@[simp] theorem last_stamped (state : RunState) (tree : StatementTree)
    (statement : StatementId) (target : VariableSite) :
    (state.stamped tree statement target).last target.slot = state.last target.slot + 1 := by
  have minted := state.last_mint tree target.slot target.slot (some statement)
  rw [if_pos rfl] at minted
  exact minted

theorem touches_stamped (state : RunState) (tree : StatementTree) (statement : StatementId)
    (target : VariableSite) : Touches target state (state.stamped tree statement target) := by
  have mint := RunM.quietly_mint tree target.slot (some statement) state _ _ rfl
  refine { others := ?_, stores := mint.stores, last := mint.last, fields := fun negative => ?_ }
  · intro expression different
    rw [version_stamped_eq, if_neg fun equal => different equal.symm]
  · exact ⟨(mint.fields negative).next, (mint.fields negative).given⟩

private theorem stamps_stamped (state : RunState) (tree : StatementTree) (statement : StatementId)
    (target : VariableSite) (unversioned : state.version target.expression = 0) :
    Stamps target state (state.stamped tree statement target) where
  toTouches := state.touches_stamped tree statement target
  phi := (RunM.quietly_mint tree target.slot (some statement) state _ _ rfl).phi
  kept := fun versioned => absurd unversioned versioned
  fresh := fun _ => by
    rw [version_stamped]
    exact Nat.lt_succ_self _
  bounded := fun _ => by
    apply Nat.le_of_eq
    rw [version_stamped, last_stamped]

end RunState

namespace RunM

/-- The ways in which a read can go. -/
inductive Reading (site : Site) (target : VariableSite) (facts : Facts) (before : RunState) :
    Facts → RunState → Prop
  | undefined {result : Facts} {after : RunState}
      (unreached : facts.reaching target.slot = ∅)
      (run : define site target facts before = .ok result after) :
      Reading site target facts before result after
  | adopting (only : Version)
      (plain : site.config.has .usageVersions = false)
      (reached : facts.reaching target.slot = {only}) :
      Reading site target facts before facts
        { before with versions := before.versions.insert target.expression only }
  | splitting {result : Facts} {after : RunState} (source : Version)
      (usage : site.config.has .usageVersions = true)
      (reached : facts.reaching target.slot = {source})
      (run : splitRead site target source facts before = .ok result after) :
      Reading site target facts before result after
  | merging {result : Facts} {after : RunState}
      (usage : site.config.has .usageVersions = true)
      (several : 2 ≤ (facts.reaching target.slot).cardinality)
      (run : mergeRead site target (facts.reaching target.slot) facts before = .ok result after) :
      Reading site target facts before result after
  | tabulating {result : Facts} {after : RunState}
      (plain : site.config.has .usageVersions = false)
      (several : 2 ≤ (facts.reaching target.slot).cardinality)
      (run : tabulateRead site target (facts.reaching target.slot) facts before =
        .ok result after) :
      Reading site target facts before result after

theorem read_ok {site : Site} {target : VariableSite} {facts result : Facts}
    {state final : RunState} (run : read site target facts state = .ok result final) :
    Reading site target facts state result final := by
  have size := VersionSet.cardinality_eq (facts.reaching target.slot)
  unfold read at run
  rcases members : (facts.reaching target.slot).toList with _ | ⟨only, _ | ⟨other, rest⟩⟩
  · simp only [members] at run
    exact .undefined (VersionSet.eq_empty_of_toList members) run
  · simp only [members] at run
    have reached := VersionSet.eq_singleton_of_toList members
    split at run
    · next usage => exact .splitting only usage reached run
    · next plain =>
        cases run
        exact .adopting only (Bool.eq_false_iff.2 plain) reached
  · simp only [members] at run
    have several : 2 ≤ (facts.reaching target.slot).cardinality := by
      rw [size, members, List.length_cons, List.length_cons]
      omega
    split at run
    · next usage => exact .merging usage several run
    · next plain => exact .tabulating (Bool.eq_false_iff.2 plain) several run

/-! ## Stamping visits -/

/-- The visit stamps its site, and the site's version is the only one of its slot afterwards. -/
structure StampsAndPins (target : VariableSite) (facts result : Facts) (before after : RunState) :
    Prop where
  stamps : Stamps target before after
  pins : result = facts.pin target.slot (after.version target.expression)

theorem stamp_eq {α : Type} (tree : StatementTree) (statement : StatementId)
    (target : VariableSite) (next : Version → RunM α) (state : RunState) :
    (do
      let minted ← mint tree target.slot (some statement)
      writeVersion target.expression minted
      next minted) state =
      next (state.last target.slot + 1) (state.stamped tree statement target) := rfl

/-- A first visit stamps its site when all that it does besides is quiet. -/
private theorem stampsAndPins_of_first {tree : StatementTree} {statement : StatementId}
    {target : VariableSite} {facts : Facts} {state final : RunState}
    (unversioned : state.version target.expression = 0)
    (quiet : Quiet (state.stamped tree statement target) final) :
    StampsAndPins target facts (facts.pin target.slot (state.last target.slot + 1)) state
      final where
  stamps := (state.stamps_stamped tree statement target unversioned).trans_quiet quiet
  pins := by rw [quiet.version, RunState.version_stamped]

/-- A later visit stamps its site when all that it does is quiet. -/
private theorem stampsAndPins_of_later {target : VariableSite} {facts : Facts}
    {state final : RunState} (versioned : state.version target.expression ≠ 0)
    (quiet : Quiet state final) :
    StampsAndPins target facts (facts.pin target.slot (state.version target.expression)) state
      final where
  stamps := .of_quiet quiet versioned
  pins := by rw [quiet.version]

/-- The common course of definitions and split reads: the first visit numbers a version and draws
it, and later visits record live facts. -/
inductive Stamping (site : Site) (target : VariableSite)
    (draw : Version → VersionGraph → VersionGraph) (facts : Facts) (before : RunState) :
    Facts → RunState → Prop
  | first (unversioned : before.version target.expression = 0) :
      Stamping site target draw facts before (facts.pin target.slot (before.last target.slot + 1))
        { before.stamped site.tree site.statement target with
          tables := (before.stamped site.tree site.statement target).tables.editGraph
            (draw (before.last target.slot + 1)) }
  | later {after : RunState} (versioned : before.version target.expression ≠ 0)
      (live : recordLive site ⟨target.slot, before.version target.expression⟩ facts before =
        .ok () after) :
      Stamping site target draw facts before
        (facts.pin target.slot (before.version target.expression)) after

section

variable {site : Site} {target : VariableSite} {facts result : Facts} {state final : RunState}

theorem stamping_of_run {draw : Version → VersionGraph → VersionGraph}
    (run : (do
      let version ← versionOf target.expression
      if version = 0 then
        let minted ← mint site.tree target.slot (some site.statement)
        writeVersion target.expression minted
        editGraph (draw minted)
        return facts.pin target.slot minted
      else
        recordLive site ⟨target.slot, version⟩ facts
        return facts.pin target.slot version) state = .ok result final) :
    Stamping site target draw facts state result final := by
  rw [bind_eq (versionOf_apply _ _)] at run
  split at run
  · next unversioned =>
      rw [stamp_eq, bind_eq (editGraph_apply _ _)] at run
      rcases pure_ok run with ⟨rfl, rfl⟩
      exact .first unversioned
  · next versioned =>
      rcases bind_ok run with ⟨_, middle, live, run⟩
      rcases pure_ok run with ⟨rfl, rfl⟩
      exact .later versioned live

theorem define_stamping (run : define site target facts state = .ok result final) :
    Stamping site target
      (fun version graph => (graph.ensure ⟨target.slot, version⟩ .definition target.debugName).1)
      facts state result final :=
  stamping_of_run run

theorem splitRead_stamping {source : Version}
    (run : splitRead site target source facts state = .ok result final) :
    Stamping site target
      (fun version graph =>
        let (graph, origin) := graph.ensure ⟨target.slot, source⟩ .definition
        let (graph, use) := graph.ensure ⟨target.slot, version⟩ .use
        graph.link origin use)
      facts state result final :=
  stamping_of_run run

theorem Stamping.stampsAndPins {draw : Version → VersionGraph → VersionGraph}
    (stamping : Stamping site target draw facts state result final) :
    StampsAndPins target facts result state final := by
  cases stamping with
  | first unversioned =>
      exact stampsAndPins_of_first unversioned (quietly_editGraph _ _ _ _ rfl)
  | later versioned live =>
      exact stampsAndPins_of_later versioned (quietly_recordLive _ _ _ _ _ _ live)

theorem define_ok (run : define site target facts state = .ok result final) :
    StampsAndPins target facts result state final :=
  (define_stamping run).stampsAndPins

theorem splitRead_ok {source : Version}
    (run : splitRead site target source facts state = .ok result final) :
    StampsAndPins target facts result state final :=
  (splitRead_stamping run).stampsAndPins

/-- A read that several versions reach is stamped first, and its version is then wired to them. -/
theorem mergeRead_stamping {reaching : VersionSet}
    (run : mergeRead site target reaching facts state = .ok result final) :
    ∃ middle, Stamping site target
        (fun version graph => (graph.ensure ⟨target.slot, version⟩ .use).1) facts state result
        middle ∧
      mergeInto site ⟨target.slot, middle.version target.expression⟩ reaching middle =
        .ok () final := by
  unfold mergeRead at run
  rw [bind_eq (versionOf_apply _ _)] at run
  split at run
  · next unversioned =>
      rw [stamp_eq, bind_eq (editGraph_apply _ _), pure_bind] at run
      rcases bind_ok run with ⟨_, _, merges, run⟩
      rcases pure_ok run with ⟨rfl, rfl⟩
      refine ⟨_, .first unversioned, ?_⟩
      change mergeInto site ⟨_, (state.stamped site.tree site.statement target).version _⟩ _ _ = _
      rw [RunState.version_stamped]
      exact merges
  · next versioned =>
      rcases bind_ok run with ⟨_, middle, live, run⟩
      rw [pure_bind] at run
      rcases bind_ok run with ⟨_, _, merges, run⟩
      rcases pure_ok run with ⟨rfl, rfl⟩
      refine ⟨middle, .later versioned live, ?_⟩
      rw [(quietly_recordLive _ _ _ _ _ _ live).version]
      exact merges

theorem mergeRead_ok {reaching : VersionSet}
    (run : mergeRead site target reaching facts state = .ok result final) :
    StampsAndPins target facts result state final := by
  rcases mergeRead_stamping run with ⟨middle, stamping, merges⟩
  have quiet := quietly_mergeInto _ _ _ _ _ _ merges
  rcases stamping.stampsAndPins with ⟨stamps, pins⟩
  exact ⟨stamps.trans_quiet quiet, by rw [quiet.version, pins]⟩

end

/-! ## Reads recorded in the phi table -/

/-- The ways in which a read of several versions is recorded: under the version of its site when
that is a merged version already, or else under a new version. -/
inductive Tabulating (site : Site) (target : VariableSite) (reaching : VersionSet) (facts : Facts)
    (phi : ExtTreeMap VersionKey VersionSet) (before : RunState) : Facts → RunState → Prop
  | again (versioned : before.version target.expression ≠ 0)
      (known : phi.contains ⟨target.slot, before.version target.expression⟩ = true) :
      Tabulating site target reaching facts phi before
        (facts.pin target.slot (before.version target.expression))
        { before with
          tables := { before.tables with
            phi := some (phi.insert ⟨target.slot, before.version target.expression⟩
              (phi.getD ⟨target.slot, before.version target.expression⟩ ∅ ∪ reaching)) } }
  | minting {after : RunState}
      (unknown : before.version target.expression ≠ 0 →
        phi.contains ⟨target.slot, before.version target.expression⟩ = false)
      (touches : Touches target before after)
      (version : after.version target.expression = before.last target.slot + 1)
      (last : after.last target.slot = before.last target.slot + 1)
      (table : after.tables.phi =
        some (phi.insert ⟨target.slot, before.last target.slot + 1⟩ reaching)) :
      Tabulating site target reaching facts phi before
        (facts.pin target.slot (before.last target.slot + 1)) after

theorem tabulateRead_ok {site : Site} {target : VariableSite} {reaching : VersionSet}
    {facts result : Facts} {state final : RunState}
    (run : tabulateRead site target reaching facts state = .ok result final) :
    ∃ phi, state.tables.phi = some phi ∧
      Tabulating site target reaching facts phi state result final := by
  unfold tabulateRead at run
  rw [bind_eq (tables_apply _)] at run
  cases stored : state.tables.phi with
  | none =>
      simp only [stored] at run
      exact nomatch run
  | some phi =>
      simp only [stored] at run
      refine ⟨phi, rfl, ?_⟩
      rw [bind_eq (versionOf_apply _ _)] at run
      split at run
      · next known =>
          rw [bind_eq (editTables_apply _ _)] at run
          rcases pure_ok run with ⟨rfl, rfl⟩
          exact .again known.1 known.2
      · next unknown =>
        rw [stamp_eq, bind_eq (report_apply _ _), bind_eq (editTables_apply _ _)] at run
        rcases pure_ok run with ⟨rfl, rfl⟩
        have touches := state.touches_stamped site.tree site.statement target
        exact .minting
          (fun versioned => Bool.eq_false_iff.2 fun known => unknown ⟨versioned, known⟩)
          { others := touches.others, stores := touches.stores, last := touches.last,
            fields := fun negative =>
              ⟨(touches.fields negative).next, (touches.fields negative).given⟩ }
          (state.version_stamped site.tree site.statement target)
          (state.last_stamped site.tree site.statement target) rfl

theorem Tabulating.touches {site : Site} {target : VariableSite} {reaching : VersionSet}
    {facts result : Facts} {phi : ExtTreeMap VersionKey VersionSet} {before after : RunState}
    (tabulating : Tabulating site target reaching facts phi before result after) :
    Touches target before after := by
  cases tabulating with
  | again versioned known =>
      exact { others := fun _ _ => rfl, stores := rfl, last := fun _ => Nat.le_refl _,
              fields := fun negative => ⟨negative.next, negative.given⟩ }
  | minting unknown touches version table => exact touches

theorem Tabulating.pins {site : Site} {target : VariableSite} {reaching : VersionSet}
    {facts result : Facts} {phi : ExtTreeMap VersionKey VersionSet} {before after : RunState}
    (tabulating : Tabulating site target reaching facts phi before result after) :
    result = facts.pin target.slot (after.version target.expression) := by
  cases tabulating with
  | again versioned known => rfl
  | minting unknown touches version table => rw [version]

end RunM

end SlotVersioning
