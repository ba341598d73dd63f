import SlotVersioning.Proofs.Fields.Runs
import SlotVersioning.Proofs.Rest.Endings

/-!
# Recorded copies

A copy is recorded under the version of an assigned variable. Once it is assigned, a variable keeps
its version, so nothing is recorded under a version that was given up (`Assigned.act`). After a run
the table of copies has one entry for each assignment of a variable or a field, with the source as
it is written then, and no other entries (`Versioner.copies_of_run`).
-/

namespace SlotVersioning

open Std RunM

/-- The version belongs to an assigned variable, and what is assigned can be recorded. -/
def Assigned (body : Body) (state : RunState) (key : VersionKey) : Prop :=
  ∃ target value, body.Places (.assign target value) ∧ state.version target.expression ≠ 0 ∧
    key = ⟨target.slot, state.version target.expression⟩ ∧ (value.copied? state).isSome

/-- What a visit needs is visited, too. -/
private theorem Body.Places.needed {body : Body} {place need : Visit} (placed : body.Places place)
    (needs : need ∈ place.needs) : body.Places need := by
  rcases placed with ⟨name, member⟩
  exact ⟨name, (body.prepared_course name []).needs_visited member need needs⟩

/-- The copies are kept if they are on, and every copy is recorded for an assignment. -/
structure Recording (body : Body) (config : Config) (state : RunState) : Prop where
  accounts : Accounts body config state
  table : state.tables.copies.isSome = config.has .copies
  assigned : ∀ key source, state.tables.copy? key = some source → Assigned body state key

variable {body : Body} {config : Config} {site : Site} {place : Visit} {target : VariableSite}
  {value : Term} {key : VersionKey} {name : NodeId} {facts result : Facts}
  {before after : RunState}

/-- What could be recorded still can be. -/
theorem copied?_isSome_of_keepsFields (keeps : KeepsFields before after)
    (copied : (value.copied? before).isSome) : (value.copied? after).isSome := by
  cases value with
  | «variable» source => rfl
  | field expression receiver =>
      unfold Term.copied? at copied ⊢
      rw [Option.isSome_map] at copied ⊢
      rcases Option.isSome_iff_exists.1 copied with ⟨slot, given⟩
      rw [keeps.fieldSlot expression slot given]
      rfl
  | _ => exact copied

/-- A variable that was defined before keeps its version. -/
private theorem act_keeps_defined (run : place.act site facts before = .ok result after)
    (visits : place.site? = some target) (defines : place.isRead = false)
    (versioned : before.version target.expression ≠ 0) :
    after.version target.expression = before.version target.expression := by
  cases act_ok run with
  | read | increment => exact nomatch defines
  | define definition =>
      cases visits
      exact (define_ok definition).stamps.kept versioned
  | assign definition copy =>
      cases visits
      have quiet := quietly_recordCopy _ _ _ _ _ copy
      exact ((define_ok definition).stamps.trans_quiet quiet).kept versioned
  | field | unversionedField | clobber => exact nomatch visits

/-- The version of an assignment goes on belonging to it. -/
theorem Assigned.act (usedOnce : body.uses.Nodup) (member : place ∈ (body.course name).visits)
    (run : place.act site facts before = .ok result after) (assigned : Assigned body before key) :
    Assigned body after key := by
  rcases assigned with ⟨target, value, ⟨other, placed⟩, versioned, rfl, copied⟩
  have kept : after.version target.expression = before.version target.expression := by
    by_cases written : target.expression ∈ place.written
    · have same := body.place_unique usedOnce placed member
        (Visit.mem_written_of_site rfl) written
      subst same
      exact act_keeps_defined run rfl rfl versioned
    · exact (act_frame run).version _ written
  rw [← kept] at versioned ⊢
  exact ⟨target, value, ⟨other, placed⟩, versioned, rfl,
    copied?_isSome_of_keepsFields (act_keepsFields run) copied⟩

private theorem upholds_recording (config : Config) (usedOnce : body.uses.Nodup)
    (ordinary : ∀ expression target, body.arena.site? expression = some target → 0 ≤ target.slot) :
    Upholds { config, body } (Recording body config) RunState.Admitted Versioned := by
  have upholds := @upholds_accounts body config usedOnce ordinary
  refine ⟨upholds.closed, ?_, ?_⟩
  · intro live statement name place facts result before after hosts member recording admitted run
    have acts := upholds.act hosts member recording.accounts admitted run
    have table := (act_keepsBooks run).copies.trans recording.table
    refine ⟨⟨acts.1, table, fun key source found => ?_⟩, acts.2⟩
    have old (found : before.tables.copy? key = some source) : Assigned body after key :=
      (recording.assigned key source found).act usedOnce member run
    rcases act_copies run with same | ⟨target, value, recorded, rfl, copied, lookup⟩
    · apply old
      unfold Tables.copy? at found ⊢
      rw [← same]
      exact found
    · rw [lookup] at found
      split at found
      · next own =>
          refine ⟨target, value, ⟨name, member⟩, ?_, own.symm, by rw [copied]; rfl⟩
          exact acts.2.2.1 _ (Visit.mem_written_of_site rfl)
      · exact old found
  · intro before after beside recording
    have kept := upholds.beside beside recording.accounts
    refine ⟨⟨kept.1, by rw [beside.copies]; exact recording.table, fun key source found => ?_⟩,
      kept.2⟩
    unfold Tables.copy? at found
    rw [beside.copies] at found
    rcases recording.assigned key source found with ⟨target, value, placed, versioned, own, copied⟩
    rw [← beside.version] at versioned own
    exact ⟨target, value, placed, versioned, own,
      copied?_isSome_of_keepsFields (.of_fields beside.fields) copied⟩

/-! ## Whole runs -/

namespace RunResult

/-- What an assigned value is a copy of: the version that is written at a variable, or the slot of
a field. -/
def copied? (result : RunResult) : Term → Option VersionKey
  | .variable source => some ⟨source.slot, result.version source.expression⟩
  | .field expression _ => (result.fieldSlot? expression).map (⟨·, 0⟩)
  | _ => none

/-- The table of copies after a run. -/
structure Copies (result : RunResult) (body : Body) : Prop where
  kept : result.versioner.tables.copies.isSome
  /-- An assigned variable or field is the source, and nothing else has one. -/
  sources : ∀ target value, body.Places (.assign target value) →
    result.versioner.tables.copy? ⟨target.slot, result.version target.expression⟩ =
      result.copied? value
  /-- Assigned fields have slots if fields are versioned. -/
  fields : ∀ target expression receiver, body.Places (.assign target (.field expression receiver)) →
    (result.fieldSlot? expression).isSome = result.versioner.config.has .fieldVersions
  only : ∀ key source, result.versioner.tables.copy? key = some source →
    ∃ target value, body.Places (.assign target value) ∧
      key = ⟨target.slot, result.version target.expression⟩ ∧ result.copied? value = some source
  apart : ∀ target value other otherValue, body.Places (.assign target value) →
    body.Places (.assign other otherValue) →
    (⟨target.slot, result.version target.expression⟩ : VersionKey) =
      ⟨other.slot, result.version other.expression⟩ → target = other ∧ value = otherValue

end RunResult

/-- A loop that copies a parameter and a field, and then assigns the parameter. -/
def Body.copying : Body where
  arena.exprs := #[.variable { slot := 1 }, .variable { slot := 0 }, .assignment 0 1 none,
    .variable { slot := 2 }, .field none "f", .assignment 3 4 none, .variable { slot := 0 },
    .literal .null, .assignment 6 7 none]
  graph.nodes := #[
    { kind := .direct, statement := 0, expressions := [2, 5, 8], predecessors := [0]
      successors := [0] }]
  graph.entry := some 0
  signature := { isStatic := true, parameters := [.single] }

namespace Versioner

/-- Before the first round nothing is recorded. -/
private theorem Begins.recording {state : RunState} (begins : Begins config body state) :
    Kept { config, body } (Recording body config) RunState.Admitted Versioned 0 state := by
  have kept : Kept { config, body } (Accounts body config) RunState.Admitted Versioned 0 state :=
    begins.entering.kept
  have fresh : state.tables.copies = if config.has .copies then some ∅ else none :=
    begins.books.copies
  refine kept.imp fun accounts => ⟨accounts, ?_, fun key source found => ?_⟩
  · rw [fresh]
    cases config.has .copies <;> rfl
  · unfold Tables.copy? at found
    rw [fresh] at found
    split at found
    · rw [Option.bind_some, ExtTreeMap.getElem?_empty] at found
      cases found
    · cases found

section

variable {final : RunState}
  (kept : Kept { config, body } (Recording body config) RunState.Admitted Versioned body.graph.size
    final)

include kept

/-- Different assignments have different versions. -/
theorem assignment_unique (usedOnce : body.uses.Nodup) {target other : VariableSite}
    {value otherValue : Term} (placed : body.Places (.assign target value))
    (placedOther : body.Places (.assign other otherValue))
    (same : (⟨target.slot, final.version target.expression⟩ : VersionKey) =
      ⟨other.slot, final.version other.expression⟩) : target = other ∧ value = otherValue := by
  have once := place_of_version (kept.imp Recording.accounts) usedOnce placed placedOther rfl rfl
    (.inr rfl) (.inr rfl) same
  cases once
  exact ⟨rfl, rfl⟩

private theorem copied_of_kept {target : VariableSite} {value : Term}
    (placed : body.Places (.assign target value)) :
    (finish config body final (.ok ())).copied? value = value.copied? final := by
  cases value with
  | «variable» source =>
      refine congrArg (fun version => some (⟨source.slot, version⟩ : VersionKey)) ?_
      exact version_of_kept (kept.imp Recording.accounts) (placed.needed List.mem_cons_self) rfl
  | _ => rfl

/-- What an assignment has for its source is recorded, and nothing else under its version. -/
private theorem copy?_of_kept (usedOnce : body.uses.Nodup) (records : config.has .copies = true)
    (reposing : Reposing { config, body } body.graph.size final) {target : VariableSite}
    {value : Term} (placed : body.Places (.assign target value)) :
    final.tables.copy? ⟨target.slot, final.version target.expression⟩ = value.copied? final := by
  cases copied : value.copied? final with
  | some source =>
      rcases reposing.rests_at placed with ⟨reaching, rests⟩
      exact rests.copied target value rfl (kept.holds.table.trans records) source copied
  | none =>
      cases found : final.tables.copy? ⟨target.slot, final.version target.expression⟩ with
      | none => rfl
      | some source =>
          rcases kept.holds.assigned _ source found with
            ⟨other, otherValue, placedOther, -, same, known⟩
          rcases assignment_unique kept usedOnce placed placedOther same with ⟨rfl, rfl⟩
          rw [copied] at known
          cases known

end

/-- After a successful run with copies on, there is one entry for each assignment of a variable or a
field: the version of the assigned variable with what is written as its source. -/
theorem copies_of_run {versioner : Versioner} {body : Body}
    (valid : versioner.config.validate = .ok ())
    (records : versioner.config.has .copies = true) (usedOnce : body.uses.Nodup)
    (ordinary : ∀ expression target, body.arena.site? expression = some target → 0 ≤ target.slot)
    (success : (versioner.run body).outcome = .ok ()) : (versioner.run body).Copies body := by
  have recording := upholds_recording versioner.config usedOnce ordinary
  rcases reposing_of_run valid usedOnce ordinary recording.carries
    (fun _ begins => begins.recording) success with ⟨final, result, reposing, kept⟩
  rw [result]
  have accounted := kept.imp Recording.accounts
  refine ⟨kept.holds.table.trans records, ?_, ?_, ?_, ?_⟩
  · intro target value placed
    rw [version_of_kept accounted placed rfl, copied_of_kept kept placed]
    exact copy?_of_kept kept usedOnce records reposing placed
  · intro target expression receiver placed
    change (final.fieldSlot? expression).isSome = versioner.config.has .fieldVersions
    cases versioned : versioner.config.has .fieldVersions with
    | true =>
        rcases reposing.rests_at placed with ⟨reaching, rests⟩
        exact rests.named expression (List.mem_cons_of_mem _ List.mem_cons_self) versioned
    | false =>
        have off : final.tables.fields = none := by
          rw [← Option.not_isSome_iff_eq_none, reposing.recorded]
          simp [versioned]
        unfold RunState.fieldSlot?
        rw [off]
        rfl
  · intro key source found
    rcases kept.holds.assigned key source found with ⟨target, value, placed, -, rfl, -⟩
    refine ⟨target, value, placed, by rw [version_of_kept accounted placed rfl], ?_⟩
    rw [copied_of_kept kept placed, ← copy?_of_kept kept usedOnce records reposing placed]
    exact found
  · intro target value other otherValue placed placedOther same
    rw [version_of_kept accounted placed rfl, version_of_kept accounted placedOther rfl] at same
    exact assignment_unique kept usedOnce placed placedOther same

theorem copies_copying :
    (Config.plain.enable [.copies]).versioner.config.validate = .ok () ∧
      (Config.plain.enable [.copies]).versioner.config.has .copies = true ∧
      Body.copying.uses.Nodup ∧
      ((Config.plain.enable [.copies]).versioner.run .copying).outcome = .ok () ∧
      ((Config.plain.enable [.copies]).versioner.run .copying).Copies .copying := by
  have valid : (Config.plain.enable [.copies]).versioner.config.validate = .ok () := by decide
  have records : (Config.plain.enable [.copies]).versioner.config.has .copies = true := by decide
  have usedOnce : Body.copying.uses.Nodup := by decide
  have success : ((Config.plain.enable [.copies]).versioner.run .copying).outcome = .ok () := by
    decide +kernel
  exact ⟨valid, records, usedOnce, success,
    copies_of_run valid records usedOnce (Body.ordinary_of_all rfl) success⟩

example : ((Config.plain.enable [.copies]).versioner.run .copying).versioner.tables.copies.map
    (·.toList) = some [(⟨1, 1⟩, ⟨0, 3⟩), (⟨2, 1⟩, ⟨-1, 0⟩)] := by decide +kernel

end Versioner

end SlotVersioning
