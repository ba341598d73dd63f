import SlotVersioning.Proofs.Run.Visit

/-!
# What most actions do not bear on

Most actions of a run number versions, write them at sites, edit the version graph or the phi table,
and report. What is indifferent to all of these is preserved by definitions and reads as a whole
(`Indifferent.define`, `Indifferent.read`), without a look at the cases in between. If phantoms and
copies do not bear on it either, every visit of a variable preserves it (`Indifferent.act`).
-/

namespace SlotVersioning

open Std

/-- Neither versions and their numbers nor the version graph, the phi table and the reports bear on
it. -/
def Indifferent (motive : RunState → Prop) : Prop :=
  ∀ (state : RunState) (lastVersions : ExtTreeMap Slot Version)
    (phi : Option (ExtTreeMap VersionKey VersionSet))
    (ranges : Option (ExtTreeMap VersionKey StatementId)) (graph : Option VersionGraph)
    (versions : ExtTreeMap ExprId Version) (events : List Event), motive state →
    motive { tables := { state.tables with lastVersions, phi, ranges, graph }, versions, events }

namespace Indifferent

open RunM

variable {motive : RunState → Prop} (indifferent : Indifferent motive)

include indifferent

theorem tables : Preserves motive tables := by
  intro state value final holds run
  cases run
  exact indifferent state _ _ _ _ _ _ holds

theorem versionOf (expression : ExprId) : Preserves motive (versionOf expression) := by
  intro state value final holds run
  cases run
  exact indifferent state _ _ _ _ _ _ holds

theorem report (event : Event) : Preserves motive (report event) := by
  intro state value final holds run
  cases run
  exact indifferent state _ _ _ _ _ _ holds

theorem editGraph (edit : VersionGraph → VersionGraph) : Preserves motive (editGraph edit) := by
  intro state value final holds run
  cases run
  exact indifferent state _ _ _ _ _ _ holds

theorem setGraph (graph : VersionGraph) :
    Preserves motive (editTables fun tables => { tables with graph := some graph }) := by
  intro state value final holds run
  cases run
  exact indifferent state _ _ _ _ _ _ holds

private theorem setPhi (phi : ExtTreeMap VersionKey VersionSet) :
    Preserves motive (editTables fun tables => { tables with phi := some phi }) := by
  intro state value final holds run
  cases run
  exact indifferent state _ _ _ _ _ _ holds

theorem writeVersion (expression : ExprId) (version : Version) :
    Preserves motive (writeVersion expression version) := by
  intro state value final holds run
  cases run
  exact indifferent state _ _ _ _ _ _ holds

theorem mint (tree : StatementTree) (slot : Slot) (statement : Option StatementId) :
    Preserves motive (mint tree slot statement) := by
  intro state value final holds run
  cases run
  exact indifferent state _ _ _ _ _ _ holds

theorem recordLive (site : Site) (key : VersionKey) (facts : Facts) :
    Preserves motive (recordLive site key facts) := by
  unfold RunM.recordLive
  split
  · exact indifferent.editGraph _
  · exact .pure _

theorem mergeInto (site : Site) (key : VersionKey) (sources : VersionSet) :
    Preserves motive (mergeInto site key sources) := by
  apply indifferent.tables.bind
  intro before
  cases before.graph with
  | none => exact .throw _
  | some graph =>
      apply (indifferent.setGraph _).bind
      intro _
      apply Preserves.forM
      intro source
      exact (indifferent.mint _ _ _).bind fun _ => (indifferent.editGraph _).bind fun _ =>
        indifferent.report _

theorem addPhantom (site : Site) (key : VersionKey) : Preserves motive (addPhantom site key) := by
  apply (indifferent.mint _ _ _).bind
  intro phantom
  apply indifferent.tables.bind
  intro before
  cases before.graph with
  | none => exact .throw _
  | some graph =>
      exact (indifferent.setGraph _).bind fun _ => (indifferent.report _).bind fun _ =>
        (indifferent.mergeInto _ _ _).bind fun _ => .pure _

/-! ## Definitions and reads -/

variable {site : Site} {target : VariableSite} {facts : Facts}

theorem define : Preserves motive (define site target facts) := by
  apply (indifferent.versionOf _).bind
  intro version
  split
  · exact (indifferent.mint _ _ _).bind fun _ => (indifferent.writeVersion _ _).bind fun _ =>
      (indifferent.editGraph _).bind fun _ => .pure _
  · exact (indifferent.recordLive _ _ _).bind fun _ => .pure _

private theorem splitRead (source : Version) :
    Preserves motive (splitRead site target source facts) := by
  apply (indifferent.versionOf _).bind
  intro version
  split
  · exact (indifferent.mint _ _ _).bind fun _ => (indifferent.writeVersion _ _).bind fun _ =>
      (indifferent.editGraph _).bind fun _ => .pure _
  · exact (indifferent.recordLive _ _ _).bind fun _ => .pure _

theorem mergeRead (reaching : VersionSet) :
    Preserves motive (mergeRead site target reaching facts) := by
  apply (indifferent.versionOf _).bind
  intro version
  split
  · exact (indifferent.mint _ _ _).bind fun _ => (indifferent.writeVersion _ _).bind fun _ =>
      (indifferent.editGraph _).bind fun _ => (Preserves.pure _).bind fun _ =>
        (indifferent.mergeInto _ _ _).bind fun _ => .pure _
  · exact (indifferent.recordLive _ _ _).bind fun _ => (Preserves.pure _).bind fun _ =>
      (indifferent.mergeInto _ _ _).bind fun _ => .pure _

private theorem tabulateRead (reaching : VersionSet) :
    Preserves motive (tabulateRead site target reaching facts) := by
  apply indifferent.tables.bind
  intro before
  cases before.phi with
  | none => exact .throw _
  | some phi =>
      apply (indifferent.versionOf _).bind
      intro version
      dsimp only
      split
      · exact (indifferent.setPhi _).bind fun _ => .pure _
      · exact (indifferent.mint _ _ _).bind fun _ => (indifferent.writeVersion _ _).bind fun _ =>
          (indifferent.report _).bind fun _ => (indifferent.setPhi _).bind fun _ => .pure _

theorem read : Preserves motive (read site target facts) := by
  unfold RunM.read
  dsimp only
  split
  · exact indifferent.define
  · split
    · exact indifferent.splitRead _
    · exact (indifferent.writeVersion _ _).bind fun _ => .pure _
  · split
    · exact indifferent.mergeRead _
    · exact indifferent.tabulateRead _

/-! ## Visits of variables -/

/-- Phantoms and copies do not bear on it. -/
def Aloof (motive : RunState → Prop) : Prop :=
  ∀ (state : RunState) (phantoms copies : Option (ExtTreeMap VersionKey VersionKey)),
    motive state → motive { state with tables := { state.tables with phantoms, copies } }

variable (aloof : Aloof motive)

include aloof

private theorem ensurePhantom (key : VersionKey) : Preserves motive (ensurePhantom site key) := by
  apply indifferent.tables.bind
  intro before
  split
  · apply (indifferent.addPhantom site key).bind
    intro phantom state value final holds run
    cases run
    exact aloof state _ state.tables.copies holds
  · exact .pure _

private theorem recordCopy (value : Term) : Preserves motive (recordCopy target value) := by
  intro state result final holds run
  rcases recordCopy_ok run with ⟨copies, events, rfl⟩
  have recorded := aloof state state.tables.phantoms copies holds
  exact indifferent _ _ _ _ _ _ events recorded

private theorem incrementVariable : Preserves motive (incrementVariable site target facts) := by
  apply indifferent.tables.bind
  intro before
  split
  · exact .pure _
  · exact (indifferent.versionOf _).bind fun _ => (indifferent.ensurePhantom aloof _).bind fun _ =>
      (indifferent.recordLive _ _ _).bind fun _ => .pure _

theorem act {place : Visit} (visits : place.site? = some target) :
    Preserves motive (place.act site facts) := by
  cases place with
  | read other => exact indifferent.read
  | define other => exact indifferent.define
  | assign other value =>
      exact indifferent.define.bind fun _ => (indifferent.recordCopy aloof value).bind fun _ =>
        .pure _
  | increment other => exact indifferent.read.bind fun _ => indifferent.incrementVariable aloof
  | field | clobber => exact nomatch visits

end Indifferent

end SlotVersioning
