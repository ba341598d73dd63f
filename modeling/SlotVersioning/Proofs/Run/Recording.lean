import SlotVersioning.Proofs.Graph.Nodes
import SlotVersioning.Proofs.Run.Transfer

/-!
# What live facts hold

A property of version graphs that every edit keeps, other than the recording of live facts, is kept
by all actions that record none (`Bears`). Visits keep it too, if it survives what they record: the
facts that enter, and those that a read makes of them. So if these are good, and all that was
recorded before is, then all live facts are good after the visit (`RunM.act_recordsGood`).
-/

namespace SlotVersioning

open VersionGraph

/-- All live facts of the graph, if there is one, are good. -/
def VersionGraph.RecordsGood (good : Facts → Prop) (graph? : Option VersionGraph) : Prop :=
  ∀ graph, graph? = some graph → ∀ facts, graph.Records facts → good facts

/-- All live facts are good. -/
def Tables.Recording (tables : Tables) (good : Facts → Prop) : Prop :=
  VersionGraph.RecordsGood good tables.graph

/-- A property of a graph, if there is one, that stays when no live facts are recorded. -/
def VersionGraph.Unmoved (motive : Option VersionGraph → Prop) : Prop :=
  ∀ ⦃created : List (VersionKey × VersionOrigin)⦄ ⦃before after : VersionGraph⦄,
    Creates created before after → motive (some before) → motive (some after)

namespace RunM

/-- The property stays when these facts are recorded, as they are at a live site. -/
def Bearable (motive : Option VersionGraph → Prop) (site : Site) (facts : Facts) : Prop :=
  site.live = true → ∀ key graph, motive (some graph) → motive (some (graph.withLive key facts))

variable {α β : Type} {motive : Option VersionGraph → Prop} {site : Site} {target : VariableSite}
  {facts : Facts}

/-- If the graph has the property, it has it after the action. -/
def Bears (motive : Option VersionGraph → Prop) (action : RunM α) : Prop :=
  Preserves (fun state => motive state.tables.graph) action

namespace Bears

theorem pure (value : α) : Bears motive (pure value : RunM α) := Preserves.pure value

theorem throw (fault : Fault) : Bears motive (throw fault : RunM α) := Preserves.throw fault

theorem bind {action : RunM α} {next : α → RunM β} (first : Bears motive action)
    (second : ∀ value, Bears motive (next value)) : Bears motive (action >>= next) :=
  Preserves.bind first second

theorem of_graph {action : RunM α} (same : ∀ state value final,
    action state = .ok value final → final.tables.graph = state.tables.graph) :
    Bears motive action := by
  intro state value final bears run
  rw [same state value final run]
  exact bears

/-- An action that begins with a look at the tables may count on them. -/
theorem tables {next : Tables → RunM α}
    (each : ∀ before, motive before.graph → Bears motive (next before)) :
    Bears motive (tables >>= next) := by
  intro state value final bears run
  rw [bind_eq (tables_apply _)] at run
  exact each state.tables bears state value final bears run

end Bears

/-! ## Elementary actions -/

theorem bears_report (event : Event) : Bears motive (report event) := by
  apply Bears.of_graph
  intro state value final run
  cases run
  rfl

theorem bears_versionOf (expression : ExprId) : Bears motive (versionOf expression) := by
  apply Bears.of_graph
  intro state value final run
  cases run
  rfl

theorem bears_writeVersion (expression : ExprId) (version : Version) :
    Bears motive (writeVersion expression version) := by
  apply Bears.of_graph
  intro state value final run
  cases run
  rfl

theorem bears_mint (tree : StatementTree) (slot : Slot) (statement : Option StatementId) :
    Bears motive (mint tree slot statement) := by
  apply Bears.of_graph
  intro state value final run
  cases run
  rfl

/-- A side table is replaced. -/
theorem bears_editTables {edit : Tables → Tables}
    (same : ∀ tables, (edit tables).graph = tables.graph) : Bears motive (editTables edit) := by
  apply Bears.of_graph
  intro state value final run
  cases run
  exact same state.tables

private theorem bears_setPhi (phi : Std.ExtTreeMap VersionKey VersionSet) :
    Bears motive (editTables fun tables => { tables with phi := some phi }) :=
  bears_editTables fun _ => rfl

theorem bears_setGraph {graph : VersionGraph} (holds : motive (some graph)) :
    Bears motive (editTables fun tables => { tables with graph := some graph }) := by
  intro state value final bears run
  cases run
  exact holds

theorem bears_editGraph {edit : VersionGraph → VersionGraph}
    (kept : ∀ graph, motive (some graph) → motive (some (edit graph))) :
    Bears motive (editGraph edit) := by
  intro state value final bears run
  cases run
  change motive (state.tables.graph.map edit)
  cases stored : state.tables.graph with
  | none =>
      rw [stored] at bears
      exact bears
  | some graph =>
      rw [stored] at bears
      exact kept graph bears

theorem bears_recordLive (bearable : Bearable motive site facts) (key : VersionKey) :
    Bears motive (recordLive site key facts) := by
  unfold recordLive
  split
  · next isLive => exact bears_editGraph (bearable isLive key)
  · exact .pure _

private theorem bears_recordCopy (value : Term) : Bears motive (recordCopy target value) := by
  apply Bears.of_graph
  intro state result final run
  rcases recordCopy_ok run with ⟨copies, events, rfl⟩
  rfl

section

variable (unmoved : Unmoved motive)

include unmoved

theorem bears_ensure (key : VersionKey) (origin : VersionOrigin) (debugName : Option DebugName) :
    Bears motive (editGraph fun graph => (graph.ensure key origin debugName).1) :=
  bears_editGraph fun graph holds => unmoved (creates_ensure graph key origin debugName) holds

/-! ## Merges and phantoms -/

theorem bears_mergeInto (key : VersionKey) (sources : VersionSet) :
    Bears motive (mergeInto site key sources) := by
  refine .tables fun before bears => ?_
  cases stored : before.graph with
  | none => exact .throw _
  | some graph =>
      refine (bears_setGraph ?_).bind fun _ => ?_
      · exact unmoved (creates_pruneInputs _ _ _)
          (unmoved (creates_ensure graph key .use none) (stored ▸ bears))
      · apply Preserves.forM
        intro source
        refine (bears_mint _ _ _).bind fun input =>
          (bears_editGraph fun graph holds => ?_).bind fun _ => bears_report _
        exact unmoved (creates_addInput graph _ _ _) holds

private theorem bears_addPhantom (key : VersionKey) : Bears motive (addPhantom site key) := by
  refine (bears_mint _ _ _).bind fun phantom => ?_
  refine .tables fun before bears => ?_
  cases stored : before.graph with
  | none => exact .throw _
  | some graph =>
      refine (bears_setGraph ?_).bind fun _ => (bears_report _).bind fun _ =>
        (bears_mergeInto unmoved _ _).bind fun _ => .pure _
      exact unmoved (creates_ensure _ key .use none)
        (unmoved (creates_ensure graph _ .phantom none) (stored ▸ bears))

theorem bears_ensurePhantom (key : VersionKey) : Bears motive (ensurePhantom site key) := by
  refine .tables fun before bears => ?_
  split
  · exact (bears_addPhantom unmoved key).bind fun _ => bears_editTables fun _ => rfl
  · exact .pure _

theorem bears_slotOfField (expression : ExprId) : Bears motive (slotOfField expression) := by
  intro state slot final bears run
  rcases slotOfField_cases run with ⟨-, rfl⟩ | ⟨-, rfl, rfl⟩
  · exact bears
  · change motive (state.tables.graph.map _)
    cases stored : state.tables.graph with
    | none =>
        rw [stored] at bears
        exact bears
    | some graph =>
        rw [stored] at bears
        exact unmoved (creates_ensure graph _ _ none) bears

/-! ## Visits -/

section

variable (bearable : Bearable motive site facts)

include bearable

theorem bears_define : Bears motive (define site target facts) := by
  refine (bears_versionOf _).bind fun version => ?_
  split
  · exact (bears_mint _ _ _).bind fun _ => (bears_writeVersion _ _).bind fun _ =>
      (bears_ensure unmoved _ _ _).bind fun _ => .pure _
  · exact (bears_recordLive bearable _).bind fun _ => .pure _

private theorem bears_splitRead (source : Version) :
    Bears motive (splitRead site target source facts) := by
  refine (bears_versionOf _).bind fun version => ?_
  split
  · refine (bears_mint _ _ _).bind fun minted => (bears_writeVersion _ _).bind fun _ =>
      (bears_editGraph fun graph holds => ?_).bind fun _ => .pure _
    exact unmoved (creates_link _ _ _)
      (unmoved (creates_ensure _ ⟨target.slot, minted⟩ .use none)
        (unmoved (creates_ensure graph ⟨target.slot, source⟩ .definition none) holds))
  · exact (bears_recordLive bearable _).bind fun _ => .pure _

private theorem bears_mergeRead (reaching : VersionSet) :
    Bears motive (mergeRead site target reaching facts) := by
  refine (bears_versionOf _).bind fun version => ?_
  split
  · exact (bears_mint _ _ _).bind fun _ => (bears_writeVersion _ _).bind fun _ =>
      (bears_ensure unmoved _ _ _).bind fun _ => (Bears.pure _).bind fun _ =>
        (bears_mergeInto unmoved _ _).bind fun _ => .pure _
  · exact (bears_recordLive bearable _).bind fun _ => (Bears.pure _).bind fun _ =>
      (bears_mergeInto unmoved _ _).bind fun _ => .pure _

omit unmoved bearable in
private theorem bears_tabulateRead (reaching : VersionSet) :
    Bears motive (tabulateRead site target reaching facts) := by
  refine .tables fun before bears => ?_
  cases before.phi with
  | none => exact .throw _
  | some phi =>
      refine (bears_versionOf _).bind fun version => ?_
      dsimp only
      split
      · exact (bears_setPhi _).bind fun _ => .pure _
      · exact (bears_mint _ _ _).bind fun _ => (bears_writeVersion _ _).bind fun _ =>
          (bears_report _).bind fun _ => (bears_setPhi _).bind fun _ => .pure _

private theorem bears_read : Bears motive (read site target facts) := by
  unfold read
  dsimp only
  split
  · exact bears_define unmoved bearable
  · split
    · exact bears_splitRead unmoved bearable _
    · exact (bears_writeVersion _ _).bind fun _ => .pure _
  · split
    · exact bears_mergeRead unmoved bearable _
    · exact bears_tabulateRead _

private theorem bears_incrementVariable : Bears motive (incrementVariable site target facts) := by
  refine .tables fun before bears => ?_
  split
  · exact .pure _
  · exact (bears_versionOf _).bind fun _ => (bears_ensurePhantom unmoved _).bind fun _ =>
      (bears_recordLive bearable _).bind fun _ => .pure _

end

/-- A visit keeps what survives the facts that enter it, and what a read makes of them. -/
theorem act_bears {place : Visit} (bearable : Bearable motive site facts)
    (reads : ∀ target version, place.site? = some target →
      Bearable motive site (facts.pin target.slot version)) :
    Bears motive (place.act site facts) := by
  cases place with
  | read target => exact bears_read unmoved bearable
  | define target => exact bears_define unmoved bearable
  | assign target value =>
      exact (bears_define unmoved bearable).bind fun _ => (bears_recordCopy value).bind fun _ =>
        .pure _
  | increment target =>
      intro state value final bears run
      rcases bind_ok run with ⟨picked, middle, reading, run⟩
      have visited : (Visit.read target).act site facts state = .ok picked middle := reading
      have pinned := act_pins visited rfl
      subst pinned
      exact bears_incrementVariable unmoved (reads target _ rfl) _ _ _
        (bears_read unmoved bearable _ _ _ bears reading) run
  | field expression =>
      simp only [Visit.act]
      split
      · exact (bears_slotOfField unmoved expression).bind fun _ => .pure _
      · exact .pure _
  | clobber => exact .pure _

end

/-! ## Good facts -/

variable {good : Facts → Prop}

theorem unmoved_recordsGood (good : Facts → Prop) : Unmoved (RecordsGood good) := by
  intro created before after creates recorded graph stored facts found
  cases stored
  exact recorded before rfl facts (creates.records facts found)

private theorem bearable_recordsGood (enters : good facts) :
    Bearable (RecordsGood good) site facts := by
  intro _ key before recorded graph stored other found
  cases stored
  rcases records_withLive before found with old | rfl
  · exact recorded before rfl other old
  · exact enters

theorem slotOfField_recordsGood (expression : ExprId) :
    Preserves (fun state => state.tables.Recording good) (slotOfField expression) :=
  bears_slotOfField (unmoved_recordsGood good) expression

/-- A visit records good facts when such enter it, and when a read makes such of them. -/
theorem act_recordsGood {place : Visit} (enters : good facts)
    (reads : ∀ target version, place.site? = some target → good (facts.pin target.slot version)) :
    Preserves (fun state => state.tables.Recording good) (place.act site facts) :=
  act_bears (unmoved_recordsGood good) (bearable_recordsGood enters) fun target version visits =>
    bearable_recordsGood (reads target version visits)

end RunM

end SlotVersioning
