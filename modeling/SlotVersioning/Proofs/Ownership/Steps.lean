import SlotVersioning.Proofs.Ownership.Owners
import SlotVersioning.Proofs.Run.Visit

/-!
# Ledgers are kept

The actions of a run keep the ledger, one after the other, and only versions that they number
themselves get an owner. `Safely` says this of an action and composes; an action that numbers a
version holds it free until its owner is there.
-/

namespace SlotVersioning

open Std VersionGraph RunM

namespace Claimants

variable {α β : Type} {claimants : Claimants}

/-- Every successful run of the action keeps the ledger and advances. -/
def Safely (claimants : Claimants) (action : RunM α) : Prop :=
  ∀ state value final, claimants.Ledger state → action state = .ok value final →
    claimants.Ledger final ∧ claimants.Advances state final

namespace Safely

theorem pure (value : α) : claimants.Safely (pure value : RunM α) := by
  intro state result final ledger run
  rcases RunM.pure_ok run with ⟨-, rfl⟩
  exact ⟨ledger, .refl _⟩

theorem bind {action : RunM α} {next : α → RunM β} (first : claimants.Safely action)
    (second : ∀ value, claimants.Safely (next value)) : claimants.Safely (action >>= next) := by
  intro state value final ledger run
  rcases RunM.bind_ok run with ⟨result, middle, firstRun, secondRun⟩
  obtain ⟨kept, advances⟩ := first _ _ _ ledger firstRun
  obtain ⟨done, further⟩ := second result _ _ _ kept secondRun
  exact ⟨done, advances.trans further⟩

theorem forM (list : List α) {action : α → RunM Unit}
    (each : ∀ value, claimants.Safely (action value)) : claimants.Safely (list.forM action) := by
  induction list with
  | nil => exact pure ()
  | cons head tail induction => exact (each head).bind fun _ => induction

end Safely

variable {state : RunState} {site : Site} {target : VariableSite} {key : VersionKey}

/-! ## Numbering -/

section

variable (ledger : claimants.Ledger state) (tree : StatementTree) (slot : Slot)
variable (statement : Option StatementId)

include ledger

/-- A version that is numbered is free. -/
theorem Ledger.mint :
    let minted := { state with tables := (state.tables.mint tree slot statement).1 }
    claimants.Ledger minted ∧ claimants.Narrows state minted ∧
      claimants.Free minted ⟨slot, state.last slot + 1⟩ := by
  intro minted
  have quiet := RunM.quietly_mint tree slot statement state _ _ rfl
  have narrows : claimants.Narrows state minted :=
    narrows_of_same rfl rfl rfl (fun _ isInput => isInput) quiet.last
  refine ⟨ledger.narrow narrows rfl (quiet.fields ledger.negative) fun graph facts stored recorded =>
    .inl ⟨graph, stored, recorded⟩, narrows, Nat.succ_pos _, ?_, fun owner owns => ?_⟩
  · exact Nat.le_of_eq ((state.last_mint tree slot slot statement).trans (if_pos rfl)).symm
  · have numbered := (ledger.numbered owner _ (narrows.owned owner _ owns)).2
    exact absurd numbered (Nat.not_succ_le_self _)

end

/-- What a free version is given to was not owned when the version was not numbered yet. -/
private theorem Narrows.advances_claim {before middle after : RunState} {owner : Owner}
    (narrows : claimants.Narrows before middle) (unnumbered : before.last key.slot < key.version)
    (last : ∀ slot, middle.last slot ≤ after.last slot)
    (owned : ∀ other held, claimants.Owns after other held →
      claimants.Owns middle other held ∨ other = owner ∧ held = key) :
    claimants.Advances before after where
  last := fun slot => Nat.le_trans (narrows.last slot) (last slot)
  owned := by
    intro other held owns
    rcases owned other held owns with old | ⟨-, rfl⟩
    · exact .inl (narrows.owned other held old)
    · exact .inr unnumbered

/-- A site is given the version that was numbered for it. -/
theorem Ledger.stamp (ledger : claimants.Ledger state) (tree : StatementTree)
    (statement : StatementId) (known : claimants.arena.site? target.expression = some target) :
    let stamped := state.stamped tree statement target
    claimants.Ledger stamped ∧ claimants.Advances state stamped ∧
      stamped.Admits target.slot (state.last target.slot + 1) ∧
      (¬ claimants.keeps target.expression →
        claimants.Free stamped ⟨target.slot, state.last target.slot + 1⟩) := by
  intro stamped
  obtain ⟨minted, narrows, free⟩ := ledger.mint tree target.slot (some statement)
  have owned : ∀ owner held, claimants.Owns stamped owner held →
      claimants.Owns { state with
        tables := (state.tables.mint tree target.slot (some statement)).1 } owner held ∨
      claimants.keeps target.expression ∧ owner = .site target.expression ∧
        held = ⟨target.slot, state.last target.slot + 1⟩ := by
    intro owner held owns
    cases owner with
    | site expression =>
        obtain ⟨keeps, versioned, site, found, rfl⟩ := owns
        by_cases same : target.expression = expression
        · subst same
          obtain rfl := Option.some.inj (known.symm.trans found)
          exact .inr ⟨keeps, rfl, by rw [RunState.version_stamped]⟩
        · rw [RunState.version_stamped_eq, if_neg same] at versioned
          refine .inl ⟨keeps, versioned, site, found, ?_⟩
          rw [RunState.version_stamped_eq, if_neg same]
          rfl
    | seed | merged | phantom | input => exact .inl owns
  have admits : stamped.Admits target.slot (state.last target.slot + 1) :=
    ⟨Nat.succ_pos _, Nat.le_of_eq (RunState.last_stamped ..).symm,
      fun isInput => free.unowned (.input _) ⟨rfl, isInput⟩⟩
  refine ⟨minted.claim free.unowned free.positive free.numbered (fun _ => Nat.le_refl _)
    (fun other held owns => (owned other held owns).imp_right And.right) ?_
    ⟨minted.negative.next, minted.negative.given⟩ fun graph facts stored recorded => ?_,
    narrows.advances_claim (Nat.lt_succ_self _) (fun _ => Nat.le_refl _)
      (fun other held owns => (owned other held owns).imp_right And.right),
    admits, fun loose => ?_⟩
  · intro expression site found versioned
    rw [RunState.version_stamped_eq] at versioned ⊢
    by_cases same : target.expression = expression
    · subst same
      obtain rfl := Option.some.inj (known.symm.trans found)
      rw [if_pos rfl]
      exact admits
    · rw [if_neg same] at versioned ⊢
      have old := minted.written expression site found versioned
      exact ⟨old.positive, old.numbered, old.plain⟩
  · intro slot ordinary version member
    have old := minted.live graph facts stored recorded slot ordinary version member
    exact ⟨old.positive, old.numbered, old.plain⟩
  · refine ⟨free.positive, free.numbered, fun owner owns => ?_⟩
    rcases owned owner _ owns with old | ⟨keeps, -, -⟩
    · exact free.unowned owner old
    · exact loose keeps

/-! ## Editing the graph -/

/-- An edit that creates no phi input gives nothing away. -/
theorem Ledger.draw {before : RunState} (ledger : claimants.Ledger before) (after : RunState)
    (created : List (VersionKey × VersionOrigin)) (quiet : Quiet before after)
    (phantoms : after.tables.phantoms = before.tables.phantoms)
    (plain : ∀ key, (key, .phiInput) ∉ created)
    (creates : ∀ next, after.tables.graph = some next →
      ∃ stored, before.tables.graph = some stored ∧ Creates created stored next) :
    claimants.Ledger after ∧ claimants.Narrows before after := by
  have narrows : claimants.Narrows before after := by
    refine narrows_of_same quiet.versions quiet.phi phantoms ?_ quiet.last
    rintro key ⟨next, stored, isInput⟩
    rcases creates next stored with ⟨old, found, edited⟩
    rcases edited.nodes key .phiInput isInput with old | new
    · exact ⟨_, found, old⟩
    · exact absurd new (plain key)
  refine ⟨ledger.narrow narrows quiet.versions (quiet.fields ledger.negative) ?_, narrows⟩
  intro next facts stored recorded
  rcases creates next stored with ⟨old, found, edited⟩
  exact .inl ⟨old, found, edited.records facts recorded⟩

/-- An action that changes neither the phantoms nor the graph gives nothing away. -/
private theorem Ledger.book {before after : RunState} (ledger : claimants.Ledger before)
    (quiet : Quiet before after) (phantoms : after.tables.phantoms = before.tables.phantoms)
    (graph : after.tables.graph = before.tables.graph) :
    claimants.Ledger after ∧ claimants.Narrows before after := by
  refine ledger.draw after [] quiet phantoms (fun _ => List.not_mem_nil) fun next stored => ?_
  rw [graph] at stored
  exact ⟨next, stored, .refl next⟩

theorem safely_editGraph {edit : VersionGraph → VersionGraph}
    (created : List (VersionKey × VersionOrigin)) (plain : ∀ key, (key, .phiInput) ∉ created)
    (creates : ∀ graph, Creates created graph (edit graph)) :
    claimants.Safely (editGraph edit) := by
  intro state value final ledger run
  have quiet := quietly_editGraph edit state value final run
  rw [editGraph_apply] at run
  cases run
  refine (ledger.draw _ created quiet rfl plain fun next stored => ?_).imp_right Narrows.advances
  rcases Option.map_eq_some_iff.1 stored with ⟨old, found, rfl⟩
  exact ⟨old, found, creates old⟩

theorem safely_recordCopy (target : VariableSite) (value : Term) :
    claimants.Safely (recordCopy target value) := by
  intro state result final ledger run
  have quiet := quietly_recordCopy target value state result final run
  rcases recordCopy_ok run with ⟨copies, events, rfl⟩
  exact (ledger.book quiet rfl rfl).imp_right Narrows.advances

theorem safely_slotOfField (expression : ExprId) : claimants.Safely (slotOfField expression) := by
  intro state slot final ledger run
  have quiet := quietly_slotOfField expression state slot final run
  rcases slotOfField_cases run with ⟨-, rfl⟩ | ⟨-, rfl, rfl⟩
  · exact ⟨ledger, .refl _⟩
  · refine (ledger.draw _ [(⟨state.tables.nextFieldSlot, 1⟩, .field)] quiet rfl
      (by simp) fun next stored => ?_).imp_right Narrows.advances
    rcases Option.map_eq_some_iff.1 stored with ⟨old, found, rfl⟩
    exact ⟨old, found, creates_ensure old _ _ _⟩

/-- What live facts are recorded may be held. -/
theorem Ledger.recordLive {facts : Facts} {final : RunState} (ledger : claimants.Ledger state)
    (admitted : state.Admitted facts) (run : recordLive site key facts state = .ok () final) :
    claimants.Ledger final ∧ claimants.Advances state final := by
  have quiet := quietly_recordLive site key facts state () final run
  rcases recordLive_ok run with rfl | rfl
  · exact ⟨ledger, .refl _⟩
  · have narrows : claimants.Narrows state
        { state with tables := state.tables.editGraph (·.withLive key facts) } := by
      refine narrows_of_same rfl rfl rfl ?_ quiet.last
      rintro other ⟨next, stored, isInput⟩
      rcases Option.map_eq_some_iff.1 stored with ⟨old, found, rfl⟩
      exact ⟨old, found, (similar_withLive old key facts).has_iff.1 isInput⟩
    refine ⟨ledger.narrow narrows rfl (quiet.fields ledger.negative) ?_, narrows.advances⟩
    intro next recorded stored records
    rcases Option.map_eq_some_iff.1 stored with ⟨old, found, rfl⟩
    rcases records_withLive old records with before | rfl
    · exact .inl ⟨old, found, before⟩
    · exact .inr admitted

/-! ## Phi inputs and phantoms -/

private theorem safely_addPhiInput (target : Nat) (source : Version) :
    claimants.Safely (addPhiInput site key target source) := by
  intro state value final ledger run
  have quiet := quietly_addPhiInput site key target source state value final run
  unfold addPhiInput at run
  rw [bind_eq (mint_apply _ _ _ _), bind_eq (editGraph_apply _ _), report_apply] at run
  obtain ⟨minted, narrows, free⟩ := ledger.mint site.tree key.slot (some site.statement)
  have edits (next : VersionGraph) (stored : final.tables.graph = some next) :
      ∃ old, state.tables.graph = some old ∧
        Creates [(⟨key.slot, source⟩, .definition),
          (⟨key.slot, state.last key.slot + 1⟩, .phiInput)] old next := by
    cases run
    rcases Option.map_eq_some_iff.1 stored with ⟨old, found, rfl⟩
    exact ⟨old, found, creates_addInput old _ _ _⟩
  have owned (other : Owner) (held : VersionKey) (owns : claimants.Owns final other held) :
      claimants.Owns state other held ∨
        other = .input ⟨key.slot, state.last key.slot + 1⟩ ∧
          held = ⟨key.slot, state.last key.slot + 1⟩ := by
    have phantoms : final.tables.phantoms = state.tables.phantoms := by
      cases run
      rfl
    rcases owned_of_same quiet.versions quiet.phi phantoms owns with old | ⟨rfl, next, stored, has⟩
    · exact .inl old
    · rcases edits next stored with ⟨old, found, edited⟩
      rcases edited.nodes held .phiInput has with before | member
      · exact .inl ⟨rfl, old, found, before⟩
      · simp only [List.mem_cons, Prod.mk.injEq, reduceCtorEq, and_false, and_true,
          List.not_mem_nil, or_false, false_or] at member
        exact .inr ⟨by rw [member], member⟩
  have numbered : final.last key.slot = state.last key.slot + 1 := by
    have counted := state.last_mint site.tree key.slot key.slot (some site.statement)
    rw [if_pos rfl] at counted
    cases run
    exact counted
  have unnumbered : state.last key.slot < state.last key.slot + 1 := Nat.lt_succ_self _
  have advances : claimants.Advances state final :=
    ⟨quiet.last, fun other held owns => (owned other held owns).imp_right fun new => by
      rw [new.2]
      exact unnumbered⟩
  have unowned (other : Owner) :
      ¬ claimants.Owns state other ⟨key.slot, state.last key.slot + 1⟩ := fun owns =>
    Nat.not_succ_le_self _ (ledger.numbered other _ owns).2
  refine ⟨ledger.claim unowned (Nat.succ_pos _) ?_ quiet.last owned ?_
    (quiet.fields ledger.negative) ?_, advances⟩
  · exact Nat.le_of_eq numbered.symm
  · intro expression target found versioned
    unfold RunState.version at versioned ⊢
    rw [quiet.versions] at versioned ⊢
    exact advances.admits (ledger.written expression target found versioned)
  · intro next facts stored recorded
    rcases edits next stored with ⟨old, found, edited⟩
    exact advances.admitted (ledger.live old facts found (edited.records facts recorded))

theorem safely_mergeInto (sources : VersionSet) :
    claimants.Safely (mergeInto site key sources) := by
  intro state value final ledger run
  unfold mergeInto at run
  rw [bind_eq (tables_apply _)] at run
  cases stored : state.tables.graph with
  | none =>
      simp only [stored] at run
      exact nomatch run
  | some graph =>
      simp only [stored] at run
      rw [bind_eq (editTables_apply _ _)] at run
      have pruned (target : Nat) (wanted : Version → Bool) : Creates [(key, .use)] graph
          ((graph.ensure key .use).1.pruneInputs target wanted).1 :=
        (creates_ensure graph key .use none).trans (creates_pruneInputs _ target wanted)
      have begun (target : Nat) (wanted : Version → Bool) := ledger.draw
        { state with tables := { state.tables with
          graph := some ((graph.ensure key .use).1.pruneInputs target wanted).1 } }
        [(key, .use)] (.of_books rfl rfl rfl rfl rfl rfl) rfl (by simp)
        fun next found => ⟨graph, stored, Option.some.inj found ▸ pruned target wanted⟩
      obtain ⟨done, advances⟩ := Safely.forM _ (safely_addPhiInput _) _ _ _ (begun _ _).1 run
      exact ⟨done, (begun _ _).2.advances.trans advances⟩

/-- The version of a phantom is free until the phantom is recorded. -/
private theorem Ledger.addPhantom {phantom : VersionKey} {final : RunState}
    (ledger : claimants.Ledger state) (run : addPhantom site key state = .ok phantom final) :
    claimants.Ledger final ∧ claimants.Advances state final ∧ claimants.Free final phantom ∧
      state.last phantom.slot < phantom.version := by
  unfold RunM.addPhantom at run
  rw [bind_eq (mint_apply _ _ _ _), bind_eq (tables_apply _)] at run
  obtain ⟨minted, narrows, free⟩ := ledger.mint site.tree key.slot none
  generalize equal : { state with tables := (state.tables.mint site.tree key.slot none).1 } =
    middle at run minted narrows free
  cases stored : middle.tables.graph with
  | none =>
      simp only [stored] at run
      exact nomatch run
  | some graph =>
      simp only [stored] at run
      rw [bind_eq (editTables_apply _ _), bind_eq (report_apply _ _)] at run
      rcases bind_ok run with ⟨_, merged, merges, run⟩
      rcases pure_ok run with ⟨rfl, rfl⟩
      have created := (creates_ensure graph ⟨key.slot, state.last key.slot + 1⟩ .phantom none).trans
        (creates_ensure _ key .use none)
      have begun (events : List Event) := minted.draw
        { middle with
          tables := { middle.tables with
            graph := some ((graph.ensure ⟨key.slot, state.last key.slot + 1⟩ .phantom).1.ensure
              key .use).1 }, events } _
        (.of_books rfl rfl rfl rfl rfl rfl) rfl (by simp)
        fun next found => ⟨graph, stored, Option.some.inj found ▸ created⟩
      obtain ⟨done, advances⟩ := safely_mergeInto _ _ _ _ (begun _).1 merges
      exact ⟨done, (narrows.advances.trans (begun _).2.advances).trans advances,
        advances.free ((begun _).2.advances.free free), Nat.lt_succ_self _⟩

theorem safely_ensurePhantom : claimants.Safely (ensurePhantom site key) := by
  intro state value final ledger run
  rcases ensurePhantom_parts run with ⟨-, rfl⟩ | ⟨-, phantom, middle, added, equal⟩
  · exact ⟨ledger, .refl _⟩
  · obtain ⟨kept, advances, free, unnumbered⟩ := ledger.addPhantom added
    have owned (other : Owner) (held : VersionKey) (owns : claimants.Owns final other held) :
        claimants.Owns middle other held ∨ other = .phantom key ∧ held = phantom := by
      subst equal
      cases other with
      | phantom incremented =>
          rcases Option.bind_eq_some_iff.1 owns with ⟨_, mapped, found⟩
          rcases Option.map_eq_some_iff.1 mapped with ⟨phantoms, stored, rfl⟩
          rw [ExtTreeMap.getElem?_insert] at found
          split at found
          · next same =>
              exact .inr ⟨by rw [Std.compare_eq_iff_eq.1 same], (Option.some.inj found).symm⟩
          · exact .inl (Option.bind_eq_some_iff.2 ⟨phantoms, stored, found⟩)
      | seed | site | merged | input => exact .inl owns
    have admits {slot : Slot} {version : Nat} (before : middle.Admits slot version) :
        final.Admits slot version := by
      subst equal
      exact ⟨before.positive, before.numbered, before.plain⟩
    subst equal
    refine ⟨kept.claim free.unowned free.positive free.numbered (fun _ => Nat.le_refl _) owned
      (fun expression target found versioned => admits (kept.written _ _ found versioned))
      ⟨kept.negative.next, kept.negative.given⟩
      (fun graph facts stored recorded slot ordinary version member =>
        admits (kept.live graph facts stored recorded slot ordinary version member)),
      advances.last, fun other held owns => ?_⟩
    rcases owned other held owns with old | ⟨-, rfl⟩
    · exact advances.owned other held old
    · exact .inr unnumbered

end Claimants

end SlotVersioning
