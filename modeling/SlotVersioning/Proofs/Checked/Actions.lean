import SlotVersioning.Proofs.Checked.Following
import SlotVersioning.Proofs.Rest.Books

/-!
# Checked actions

The actions of a site with every position in the graph checked. Each follows the action whose name
it has, from all states in range.
-/

namespace SlotVersioning

namespace CheckedM

/-! ## Phis and phantoms -/

def recordLive (site : Site) (key : VersionKey) (facts : Facts) : CheckedM Unit :=
  if site.live then editGraph fun graph => graph.withLive? key facts else pure ()

def slotOfField (expression : ExprId) : CheckedM Slot := do
  let before ← RunM.tables
  match before.fields.bind fun fields => fields[expression]? with
  | some slot => return slot
  | none =>
      let slot := before.nextFieldSlot
      RunM.editTables fun tables =>
        { tables with
          nextFieldSlot := slot - 1
          fields := tables.fields.map fun fields => fields.insert expression slot }
      editGraph fun graph => do return (← graph.ensure? ⟨slot, 1⟩ .field).1
      return slot

def addPhiInput (site : Site) (key : VersionKey) (target : Nat) (source : Version) :
    CheckedM Unit := do
  let input ← RunM.mint site.tree key.slot (some site.statement)
  editGraph fun graph => graph.addInput? ⟨key.slot, source⟩ ⟨key.slot, input⟩ target
  RunM.report (.phiInputMinted ⟨key.slot, input⟩ source key)

def mergeInto (site : Site) (key : VersionKey) (sources : VersionSet) : CheckedM Unit := do
  let before ← RunM.tables
  match before.graph with
  | none => throw (.graphRequired .usageVersions)
  | some graph =>
      let phantom := (before.phantom? key).map VersionKey.version
      let (graph, target) ← graph.ensure? key .use
      let (graph, wired) ← graph.pruneInputs? target fun source =>
        sources.contains source || phantom == some source
      RunM.editTables fun tables => { tables with graph := some graph }
      (sources.toList.filter fun source => !wired.contains source).forM
        (addPhiInput site key target)

def addPhantom (site : Site) (key : VersionKey) : CheckedM VersionKey := do
  let phantom : VersionKey := ⟨key.slot, ← RunM.mint site.tree key.slot none⟩
  match (← RunM.tables).graph with
  | none => throw (.graphRequired .phantomIncrements)
  | some graph =>
      let (graph, _) ← graph.ensure? phantom .phantom
      let (graph, target) ← graph.ensure? key .use
      let flowing ← graph.sourcesAt? target
      RunM.editTables fun tables => { tables with graph := some graph }
      RunM.report (.phantomMinted phantom key)
      mergeInto site key (insert phantom.version flowing)
      return phantom

def ensurePhantom (site : Site) (key : VersionKey) : CheckedM Unit := do
  if ((← RunM.tables).phantom? key).isNone then
    let phantom ← addPhantom site key
    RunM.editTables fun tables =>
      { tables with phantoms := tables.phantoms.map fun phantoms => phantoms.insert key phantom }

/-! ## Reads and definitions -/

def define (site : Site) (target : VariableSite) (facts : Facts) : CheckedM Facts := do
  let version ← RunM.versionOf target.expression
  if version = 0 then
    let minted ← RunM.mint site.tree target.slot (some site.statement)
    RunM.writeVersion target.expression minted
    editGraph fun graph => do
      return (← graph.ensure? ⟨target.slot, minted⟩ .definition target.debugName).1
    return facts.pin target.slot minted
  else
    recordLive site ⟨target.slot, version⟩ facts
    return facts.pin target.slot version

def splitRead (site : Site) (target : VariableSite) (source : Version) (facts : Facts) :
    CheckedM Facts := do
  let version ← RunM.versionOf target.expression
  if version = 0 then
    let minted ← RunM.mint site.tree target.slot (some site.statement)
    RunM.writeVersion target.expression minted
    editGraph fun graph => do
      let (graph, origin) ← graph.ensure? ⟨target.slot, source⟩ .definition
      let (graph, use) ← graph.ensure? ⟨target.slot, minted⟩ .use
      graph.link? origin use
    return facts.pin target.slot minted
  else
    recordLive site ⟨target.slot, version⟩ facts
    return facts.pin target.slot version

def mergeRead (site : Site) (target : VariableSite) (reaching : VersionSet) (facts : Facts) :
    CheckedM Facts := do
  let version ← RunM.versionOf target.expression
  let current ←
    if version = 0 then do
      let minted ← RunM.mint site.tree target.slot (some site.statement)
      RunM.writeVersion target.expression minted
      editGraph fun graph => do return (← graph.ensure? ⟨target.slot, minted⟩ .use).1
      pure minted
    else do
      recordLive site ⟨target.slot, version⟩ facts
      pure version
  mergeInto site ⟨target.slot, current⟩ reaching
  return facts.pin target.slot current

def read (site : Site) (target : VariableSite) (facts : Facts) : CheckedM Facts := do
  let reaching := facts.reaching target.slot
  match reaching.toList with
  | [] => define site target facts
  | [only] =>
      if site.config.has .usageVersions then
        splitRead site target only facts
      else do
        RunM.writeVersion target.expression only
        return facts
  | _ =>
      if site.config.has .usageVersions then
        mergeRead site target reaching facts
      else
        RunM.tabulateRead site target reaching facts

def incrementVariable (site : Site) (target : VariableSite) (facts : Facts) : CheckedM Facts := do
  if (← RunM.tables).phantoms.isNone then
    return facts
  else
    let version ← RunM.versionOf target.expression
    let key : VersionKey := ⟨target.slot, version⟩
    ensurePhantom site key
    recordLive site key facts
    return facts.pin target.slot version

end CheckedM

/-! ## What they follow -/

variable {bound : Nat} {site : Site} {target : VariableSite} {facts : Facts}

namespace RunM.Maintains

private theorem tabulateRead_inRange (reaching : VersionSet) :
    Maintains (RunState.InRange bound) (RunM.tabulateRead site target reaching facts) := by
  refine tables.bind fun before => ?_
  cases before.phi with
  | none => exact throw _
  | some phi =>
      refine (versionOf _).bind fun version => ?_
      dsimp only
      split
      · exact bind (editTables_inRange fun _ => rfl) fun _ => pure _
      · exact (mint_inRange _ _ _).bind fun _ => (writeVersion_inRange _ _).bind fun _ =>
          (report_inRange _).bind fun _ => bind (editTables_inRange fun _ => rfl) fun _ => pure _

theorem recordCopy_inRange (value : Term) :
    Maintains (RunState.InRange bound) (RunM.recordCopy target value) := by
  intro state holds
  unfold stateAfter
  cases on : state.tables.copies.isSome with
  | false =>
      rw [recordCopy_off (Option.not_isSome_iff_eq_none.1 (Bool.eq_false_iff.1 on))]
      exact holds
  | true =>
      rw [recordCopy_on on]
      cases value.copied? state with
      | none => exact holds
      | some source => exact holds

end RunM.Maintains

private theorem permitted_withLive (key : VersionKey) (facts : Facts) :
    Permitted bound (·.withLive? key facts) (·.withLive key facts) :=
  fun _ inRange _ => ⟨inRange.withLive?_eq key facts, inRange.withLive key facts,
    Nat.le_of_eq (VersionGraph.size_withLive ..).symm⟩

theorem permitted_ensure (key : VersionKey) (origin : VersionOrigin)
    (debugName : Option DebugName) :
    Permitted bound (fun graph => do return (← graph.ensure? key origin debugName).1)
      fun graph => (graph.ensure key origin debugName).1 :=
  fun graph inRange _ => ⟨bind_of_eq_some (inRange.ensure?_eq key origin debugName) _,
    inRange.ensure key origin debugName, graph.size_le_ensure key origin debugName⟩

private theorem permitted_split (source use : VersionKey) :
    Permitted bound
      (fun graph => do
        let (graph, origin) ← graph.ensure? source .definition
        let (graph, use) ← graph.ensure? use .use
        graph.link? origin use)
      fun graph =>
        let (graph, origin) := graph.ensure source .definition
        let (graph, use) := graph.ensure use .use
        graph.link origin use := by
  intro graph inRange _
  have first := inRange.ensure source .definition none
  have origin := inRange.ensure_lt_size source .definition none
  have second := first.ensure use .use none
  have further := (graph.ensure source .definition none).1.size_le_ensure use .use none
  have way := first.ensure_lt_size use .use none
  have inside := Nat.lt_of_lt_of_le origin further
  refine ⟨?_, second.link inside way, ?_⟩
  · dsimp only
    rw [bind_of_eq_some (inRange.ensure?_eq source .definition none)]
    rw [bind_of_eq_some (first.ensure?_eq use .use none)]
    exact VersionGraph.link?_eq inside way
  · dsimp only
    rw [VersionGraph.size_link]
    exact Nat.le_trans (graph.size_le_ensure source .definition none) further

namespace Follows

theorem recordLive (key : VersionKey) :
    Follows bound (CheckedM.recordLive site key facts) (RunM.recordLive site key facts) := by
  unfold CheckedM.recordLive RunM.recordLive
  split
  · exact editGraph (permitted_withLive key facts)
  · exact pure ()

theorem mint (tree : StatementTree) (slot : Slot) (statement : Option StatementId) :
    Follows bound (liftM (RunM.mint tree slot statement)) (RunM.mint tree slot statement) :=
  perform (.mint_inRange _ _ _)

theorem writeVersion (expression : ExprId) (version : Version) :
    Follows bound (liftM (RunM.writeVersion expression version))
      (RunM.writeVersion expression version) :=
  perform (.writeVersion_inRange _ _)

theorem versionOf (expression : ExprId) :
    Follows bound (liftM (RunM.versionOf expression)) (RunM.versionOf expression) :=
  perform (.versionOf _)

theorem report (event : Event) :
    Follows bound (liftM (RunM.report event)) (RunM.report event) :=
  perform (.report_inRange _)

theorem editTables {edit : Tables → Tables}
    (same : ∀ tables : Tables, (edit tables).graph = tables.graph) :
    Follows bound (liftM (RunM.editTables edit)) (RunM.editTables edit) :=
  perform (.editTables_inRange same)

theorem slotOfField (expression : ExprId) :
    Follows bound (CheckedM.slotOfField expression) (RunM.slotOfField expression) := by
  have block : RunM.slotOfField expression = (do
      let before ← RunM.tables
      match before.fields.bind fun fields => fields[expression]? with
      | some slot => return slot
      | none =>
          let slot := before.nextFieldSlot
          RunM.editTables fun tables =>
            { tables with
              nextFieldSlot := slot - 1
              fields := tables.fields.map fun fields => fields.insert expression slot }
          RunM.editGraph fun graph => (graph.ensure ⟨slot, 1⟩ .field).1
          return slot) := by
    funext state
    rw [RunM.slotOfField_apply, RunM.bind_eq (RunM.tables_apply state)]
    unfold Tables.slotOfField
    cases state.tables.fields.bind fun fields => fields[expression]? with
    | some slot => rfl
    | none => rfl
  rw [block]
  refine tables fun before _ => ?_
  cases before.fields.bind fun fields => fields[expression]? with
  | some slot => exact pure slot
  | none =>
      dsimp only
      exact bind (editTables fun _ => rfl) fun _ =>
        (editGraph (permitted_ensure _ _ _)).bind fun _ => pure _

private theorem addPhiInput {place : Nat} (key : VersionKey) (inside : place < bound)
    (source : Version) :
    Follows bound (CheckedM.addPhiInput site key place source)
      (RunM.addPhiInput site key place source) :=
  (mint _ key.slot _).bind fun _ =>
    (editGraph fun _ inRange enough =>
      inRange.addInput _ _ (Nat.lt_of_lt_of_le inside enough)).bind fun _ => report _

theorem mergeInto (key : VersionKey) (sources : VersionSet) :
    Follows bound (CheckedM.mergeInto site key sources) (RunM.mergeInto site key sources) := by
  refine tables fun before holds => ?_
  cases found : before.graph with
  | none => exact throw _
  | some graph =>
      rcases holds graph found with ⟨inRange, enough⟩
      have ensured := inRange.ensure key .use none
      have inside := inRange.ensure_lt_size key .use none
      have grown := graph.size_le_ensure key .use none
      refine known (inRange.ensure?_eq key .use none) ?_
      refine known (ensured.pruneInputs?_eq inside _) ?_
      rcases ensured.pruneInputs (graph.ensure key .use none).2 fun source =>
        sources.contains source || (before.phantom? key).map VersionKey.version == some source with
        ⟨pruned, sized⟩
      exact setGraph pruned (Nat.le_trans enough (Nat.le_trans grown (Nat.le_of_eq sized.symm)))
        (forM fun source _ => addPhiInput key (inside.trans_eq sized.symm) source)

private theorem addPhantom (key : VersionKey) :
    Follows bound (CheckedM.addPhantom site key) (RunM.addPhantom site key) := by
  refine (mint _ key.slot none).bind fun minted => tables fun before holds => ?_
  cases found : before.graph with
  | none => exact throw _
  | some graph =>
      rcases holds graph found with ⟨inRange, enough⟩
      have first := inRange.ensure ⟨key.slot, minted⟩ .phantom none
      have grown := graph.size_le_ensure ⟨key.slot, minted⟩ .phantom none
      refine known (inRange.ensure?_eq ⟨key.slot, minted⟩ .phantom none) ?_
      have second := first.ensure key .use none
      have inside := first.ensure_lt_size key .use none
      have further := (graph.ensure ⟨key.slot, minted⟩ .phantom none).1.size_le_ensure key .use none
      refine known (first.ensure?_eq key .use none) ?_
      refine known (second.sourcesAt?_eq inside) ?_
      exact setGraph second (Nat.le_trans enough (Nat.le_trans grown further))
        ((report _).bind fun _ => (mergeInto _ _).bind fun _ => pure _)

private theorem ensurePhantom (key : VersionKey) :
    Follows bound (CheckedM.ensurePhantom site key) (RunM.ensurePhantom site key) := by
  refine tables fun before _ => ?_
  split
  · exact (addPhantom key).bind fun _ => editTables fun _ => rfl
  · exact pure ()

theorem define :
    Follows bound (CheckedM.define site target facts) (RunM.define site target facts) := by
  refine (versionOf _).bind fun version => ?_
  split
  · exact (mint _ _ _).bind fun _ => (writeVersion _ _).bind fun _ =>
      (editGraph (permitted_ensure _ _ _)).bind fun _ => pure _
  · exact (recordLive _).bind fun _ => pure _

private theorem splitRead (source : Version) :
    Follows bound (CheckedM.splitRead site target source facts)
      (RunM.splitRead site target source facts) := by
  refine (versionOf _).bind fun version => ?_
  split
  · exact (mint _ _ _).bind fun _ => (writeVersion _ _).bind fun _ =>
      (editGraph (permitted_split _ _)).bind fun _ => pure _
  · exact (recordLive _).bind fun _ => pure _

private theorem mergeRead (reaching : VersionSet) :
    Follows bound (CheckedM.mergeRead site target reaching facts)
      (RunM.mergeRead site target reaching facts) := by
  refine (versionOf _).bind fun version => ?_
  split
  · exact (mint _ _ _).bind fun _ => (writeVersion _ _).bind fun _ =>
      (editGraph (permitted_ensure _ _ _)).bind fun _ => (mergeInto _ _).bind fun _ => pure _
  · exact (recordLive _).bind fun _ => (mergeInto _ _).bind fun _ => pure _

/-- A read that is tabulated does not touch the graph. -/
private theorem tabulateRead (reaching : VersionSet) :
    Follows bound (liftM (RunM.tabulateRead site target reaching facts))
      (RunM.tabulateRead site target reaching facts) :=
  perform (.tabulateRead_inRange reaching)

theorem read : Follows bound (CheckedM.read site target facts) (RunM.read site target facts) := by
  unfold CheckedM.read RunM.read
  dsimp only
  cases (facts.reaching target.slot).toList with
  | nil => exact define
  | cons only rest =>
      cases rest with
      | nil =>
          dsimp only
          split
          · exact splitRead only
          · exact (writeVersion _ _).bind fun _ => pure _
      | cons other others =>
          dsimp only
          split
          · exact mergeRead _
          · exact tabulateRead _

theorem incrementVariable :
    Follows bound (CheckedM.incrementVariable site target facts)
      (RunM.incrementVariable site target facts) := by
  refine tables fun before _ => ?_
  split
  · exact pure _
  · exact (versionOf _).bind fun _ => (ensurePhantom _).bind fun _ => (recordLive _).bind fun _ =>
      pure _

end Follows

end SlotVersioning
