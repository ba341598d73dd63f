import SlotVersioning.Proofs.Course.Basic

/-!
# What actions are assembled from

The actions of a run are assembled from a few elementary ones. What holds of these, and of any two
actions in a row, holds of all that happens at a visit (`assembled_act`). In particular no action
looks at the reports, so that runs whose reports differ are the same run otherwise
(`Assembled.unheard`).
-/

namespace SlotVersioning

open Std

namespace RunM

variable {α β : Type}

/-- The action is assembled from steps that have nothing to do with the reports, from reports, and
from faults other than that the passes ran out. -/
inductive Assembled : {α : Type} → RunM α → Prop
  | step {α : Type} (move : Tables → ExtTreeMap ExprId Version →
      α × Tables × ExtTreeMap ExprId Version) :
      Assembled fun state =>
        let (value, tables, versions) := move state.tables state.versions
        .ok value { state with tables, versions }
  | report (event : Event) : Assembled (report event)
  | throw {α : Type} {fault : Fault} (other : fault.kind ≠ .notConverged) :
      Assembled (throw fault : RunM α)
  | bind {α β : Type} {action : RunM α} {next : α → RunM β} (first : Assembled action)
      (second : ∀ value, Assembled (next value)) : Assembled (action >>= next)

namespace Assembled

theorem pure (value : α) : Assembled (pure value : RunM α) :=
  step fun tables versions => (value, tables, versions)

theorem forM (list : List α) {action : α → RunM Unit} (each : ∀ value, Assembled (action value)) :
    Assembled (list.forM action) := by
  induction list with
  | nil => exact pure ()
  | cons head tail induction => exact (each head).bind fun _ => induction

theorem foldlM (list : List α) {step : β → α → RunM β} (start : β)
    (each : ∀ value entry, Assembled (step value entry)) : Assembled (list.foldlM step start) := by
  induction list generalizing start with
  | nil => exact pure start
  | cons head tail induction =>
      rw [List.foldlM_cons]
      exact (each start head).bind fun next => induction next

theorem ofExcept {value : Except Fault α}
    (faults : ∀ fault, value = .error fault → fault.kind ≠ .notConverged) :
    Assembled (ofExcept value) := by
  cases value with
  | ok value => exact pure value
  | error fault => exact throw (faults fault rfl)

end Assembled

/-! ## Elementary actions -/

theorem assembled_tables : Assembled tables :=
  .step fun tables versions => (tables, tables, versions)

theorem assembled_editTables (edit : Tables → Tables) : Assembled (editTables edit) :=
  .step fun tables versions => ((), edit tables, versions)

theorem assembled_editGraph (edit : VersionGraph → VersionGraph) : Assembled (editGraph edit) :=
  assembled_editTables _

theorem assembled_versionOf (expression : ExprId) : Assembled (versionOf expression) :=
  .step fun tables versions => (versions.getD expression 0, tables, versions)

theorem assembled_writeVersion (expression : ExprId) (version : Version) :
    Assembled (writeVersion expression version) :=
  .step fun tables versions => ((), tables, versions.insert expression version)

theorem assembled_mint (tree : StatementTree) (slot : Slot) (statement : Option StatementId) :
    Assembled (mint tree slot statement) :=
  .step fun tables versions =>
    ((tables.mint tree slot statement).2, (tables.mint tree slot statement).1, versions)

private theorem assembled_slotOfField (expression : ExprId) : Assembled (slotOfField expression) :=
  .step fun tables versions =>
    ((tables.slotOfField expression).2, (tables.slotOfField expression).1, versions)

theorem assembled_recordLive (site : Site) (key : VersionKey) (facts : Facts) :
    Assembled (recordLive site key facts) := by
  unfold recordLive
  split
  · exact assembled_editGraph _
  · exact .pure _

/-! ## Visits -/

theorem assembled_mergeInto (site : Site) (key : VersionKey) (sources : VersionSet) :
    Assembled (mergeInto site key sources) := by
  apply assembled_tables.bind
  intro before
  cases before.graph with
  | none => exact .throw (by decide)
  | some graph =>
      apply (assembled_editTables _).bind
      intro _
      apply Assembled.forM
      intro source
      exact (assembled_mint _ _ _).bind fun _ => (assembled_editGraph _).bind fun _ =>
        .report _

private theorem assembled_ensurePhantom (site : Site) (key : VersionKey) :
    Assembled (ensurePhantom site key) := by
  have adds : Assembled (addPhantom site key) := by
    apply (assembled_mint _ _ _).bind
    intro phantom
    apply assembled_tables.bind
    intro before
    cases before.graph with
    | none => exact .throw (by decide)
    | some graph =>
        exact (assembled_editTables _).bind fun _ => (Assembled.report _).bind fun _ =>
          (assembled_mergeInto _ _ _).bind fun _ => .pure _
  apply assembled_tables.bind
  intro before
  split
  · exact adds.bind fun _ => assembled_editTables _
  · exact .pure _

private theorem assembled_recordCopy (target : VariableSite) (value : Term) :
    Assembled (recordCopy target value) := by
  have records {rest : Option VersionKey → RunM Unit} (nothing : Assembled (rest none))
      (copied : ∀ source, Assembled (rest (some source))) (source : Option VersionKey) :
      Assembled (rest source) := by
    cases source with
    | none => exact nothing
    | some source => exact copied source
  apply assembled_tables.bind
  intro before
  split
  · apply (assembled_versionOf _).bind
    intro version
    cases value with
    | «variable» site =>
        apply (assembled_versionOf _).bind
        intro value
        apply (Assembled.pure _).bind
        apply records (.pure _)
        exact fun _ => (Assembled.report _).bind fun _ => assembled_editTables _
    | _ =>
        apply (Assembled.pure _).bind
        apply records (.pure _)
        exact fun _ => (Assembled.report _).bind fun _ => assembled_editTables _
  · exact .pure _

variable {site : Site} {target : VariableSite} {facts : Facts}

theorem assembled_define : Assembled (define site target facts) := by
  apply (assembled_versionOf _).bind
  intro version
  split
  · exact (assembled_mint _ _ _).bind fun _ => (assembled_writeVersion _ _).bind fun _ =>
      (assembled_editGraph _).bind fun _ => .pure _
  · exact (assembled_recordLive _ _ _).bind fun _ => .pure _

private theorem assembled_splitRead (source : Version) :
    Assembled (splitRead site target source facts) := by
  apply (assembled_versionOf _).bind
  intro version
  split
  · exact (assembled_mint _ _ _).bind fun _ => (assembled_writeVersion _ _).bind fun _ =>
      (assembled_editGraph _).bind fun _ => .pure _
  · exact (assembled_recordLive _ _ _).bind fun _ => .pure _

private theorem assembled_mergeRead (reaching : VersionSet) :
    Assembled (mergeRead site target reaching facts) := by
  apply (assembled_versionOf _).bind
  intro version
  split
  · exact (assembled_mint _ _ _).bind fun _ => (assembled_writeVersion _ _).bind fun _ =>
      (assembled_editGraph _).bind fun _ => (Assembled.pure _).bind fun _ =>
        (assembled_mergeInto _ _ _).bind fun _ => .pure _
  · exact (assembled_recordLive _ _ _).bind fun _ => (Assembled.pure _).bind fun _ =>
      (assembled_mergeInto _ _ _).bind fun _ => .pure _

private theorem assembled_tabulateRead (reaching : VersionSet) :
    Assembled (tabulateRead site target reaching facts) := by
  apply assembled_tables.bind
  intro before
  cases before.phi with
  | none => exact .throw (by decide)
  | some phi =>
      apply (assembled_versionOf _).bind
      intro version
      dsimp only
      split
      · exact (assembled_editTables _).bind fun _ => .pure _
      · exact (assembled_mint _ _ _).bind fun _ => (assembled_writeVersion _ _).bind fun _ =>
          (Assembled.report _).bind fun _ => (assembled_editTables _).bind fun _ => .pure _

private theorem assembled_read : Assembled (read site target facts) := by
  unfold read
  dsimp only
  split
  · exact assembled_define
  · split
    · exact assembled_splitRead _
    · exact (assembled_writeVersion _ _).bind fun _ => .pure _
  · split
    · exact assembled_mergeRead _
    · exact assembled_tabulateRead _

theorem assembled_act (place : Visit) : Assembled (place.act site facts) := by
  cases place with
  | read target => exact assembled_read
  | define target => exact assembled_define
  | assign target value =>
      exact assembled_define.bind fun _ => (assembled_recordCopy _ _).bind fun _ => .pure _
  | increment target =>
      apply assembled_read.bind
      intro picked
      apply assembled_tables.bind
      intro before
      split
      · exact .pure _
      · exact (assembled_versionOf _).bind fun _ => (assembled_ensurePhantom _ _).bind fun _ =>
          (assembled_recordLive _ _ _).bind fun _ => .pure _
  | field expression =>
      simp only [Visit.act]
      split
      · exact (assembled_slotOfField _).bind fun _ => .pure _
      · exact .pure _
  | clobber => exact .pure _

end RunM

end SlotVersioning
