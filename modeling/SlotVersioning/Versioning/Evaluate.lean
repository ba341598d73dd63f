import SlotVersioning.Facts.Outcome
import SlotVersioning.Versioning.Merge

/-!
# Evaluation

How a term changes the facts. Terms are walked in evaluation order. A definition makes its version
the only one of its slot; a read picks up the versions that reach it, and several of them become
one new version; boolean operators send different facts to their outcomes. A version is minted at a
site once, on the first visit, and asserted again later.
-/

namespace SlotVersioning

namespace RunM

/-- A site defines its variable. -/
def define (site : Site) (target : VariableSite) (facts : Facts) : RunM Facts := do
  let version ← versionOf target.expression
  if version = 0 then
    let minted ← mint site.tree target.slot (some site.statement)
    writeVersion target.expression minted
    editGraph fun graph => (graph.ensure ⟨target.slot, minted⟩ .definition target.debugName).1
    return facts.pin target.slot minted
  else
    recordLive site ⟨target.slot, version⟩ facts
    return facts.pin target.slot version

/-- With usage versions, a read that one version reaches becomes a version of its own. -/
def splitRead (site : Site) (target : VariableSite) (source : Version) (facts : Facts) :
    RunM Facts := do
  let version ← versionOf target.expression
  if version = 0 then
    let minted ← mint site.tree target.slot (some site.statement)
    writeVersion target.expression minted
    editGraph fun graph =>
      let (graph, origin) := graph.ensure ⟨target.slot, source⟩ .definition
      let (graph, use) := graph.ensure ⟨target.slot, minted⟩ .use
      graph.link origin use
    return facts.pin target.slot minted
  else
    recordLive site ⟨target.slot, version⟩ facts
    return facts.pin target.slot version

/-- A read that several versions reach is recorded in the phi table under a version of its own. -/
def tabulateRead (site : Site) (target : VariableSite) (reaching : VersionSet) (facts : Facts) :
    RunM Facts := do
  match (← tables).phi with
  | none => throw .mergesUnrecorded
  | some phi =>
      let version ← versionOf target.expression
      let key : VersionKey := ⟨target.slot, version⟩
      if version ≠ 0 ∧ phi.contains key then
        editTables fun tables =>
          { tables with phi := some (phi.insert key (phi.getD key ∅ ∪ reaching)) }
        return facts.pin target.slot version
      else
        let minted ← mint site.tree target.slot (some site.statement)
        writeVersion target.expression minted
        report (.merged ⟨target.slot, minted⟩ reaching)
        editTables fun tables =>
          { tables with phi := some (phi.insert ⟨target.slot, minted⟩ reaching) }
        return facts.pin target.slot minted

/-- With usage versions, a read that several versions reach is a version into which they flow. -/
def mergeRead (site : Site) (target : VariableSite) (reaching : VersionSet) (facts : Facts) :
    RunM Facts := do
  let version ← versionOf target.expression
  let current ←
    if version = 0 then do
      let minted ← mint site.tree target.slot (some site.statement)
      writeVersion target.expression minted
      editGraph fun graph => (graph.ensure ⟨target.slot, minted⟩ .use).1
      pure minted
    else do
      recordLive site ⟨target.slot, version⟩ facts
      pure version
  mergeInto site ⟨target.slot, current⟩ reaching
  return facts.pin target.slot current

/-- A site reads its variable. A variable that no version reaches is defined by being read. -/
def read (site : Site) (target : VariableSite) (facts : Facts) : RunM Facts := do
  let reaching := facts.reaching target.slot
  match reaching.toList with
  | [] => define site target facts
  | [only] =>
      if site.config.has .usageVersions then
        splitRead site target only facts
      else do
        writeVersion target.expression only
        return facts
  | _ =>
      if site.config.has .usageVersions then
        mergeRead site target reaching facts
      else
        tabulateRead site target reaching facts

/-- The target of an increment was read; its version gets a phantom and is current again. -/
def incrementVariable (site : Site) (target : VariableSite) (facts : Facts) : RunM Facts := do
  if (← tables).phantoms.isNone then
    return facts
  else
    let version ← versionOf target.expression
    let key : VersionKey := ⟨target.slot, version⟩
    ensurePhantom site key
    recordLive site key facts
    return facts.pin target.slot version

/-- Records that the variable `target` was assigned from `value`, when that is a variable or a
versioned field. -/
def recordCopy (target : VariableSite) (value : Term) : RunM Unit := do
  let before ← tables
  if before.copies.isSome then
    let definition : VersionKey := ⟨target.slot, ← versionOf target.expression⟩
    let source : Option VersionKey ← match value with
      | .variable site => pure (some ⟨site.slot, ← versionOf site.expression⟩)
      | .field expression _ =>
          pure ((before.fields.bind fun fields => fields[expression]?).map (⟨·, 0⟩))
      | _ => pure none
    match source with
    | none => pure ()
    | some source =>
        report (.copied definition source)
        editTables fun tables =>
          { tables with
            copies := tables.copies.map fun assignments =>
              assignments.insert definition source }

/-- Forgets the field slots, when fields are versioned. -/
def clobberFields (site : Site) (facts : Facts) : Facts :=
  if site.config.has .fieldVersions then facts.withoutFields else facts

def joinArms : (onTrue onFalse : OutcomeFacts) → OutcomeFacts
  | .joined left, .joined right => .joined (left ∪ right)
  | onTrue, onFalse => (onTrue.separate.mergeTrue onFalse.ifTrue).mergeFalse onFalse.ifFalse

/-- The outcome of a term from the facts before it. A term is entered with joined facts only. -/
def evaluate (site : Site) : Term → OutcomeFacts → RunM OutcomeFacts
  | .nothing, entry => do
      return .joined (← ofExcept entry.single)
  | .missing expression, _ => throw (.unknownExpression expression)
  | .compound operator expression, _ =>
      throw (.compoundAssignment operator.symbol expression)
  | .header condition, entry => evaluate site condition entry
  | .variable target, entry => do
      return .joined (← read site target (← ofExcept entry.single))
  | .field expression receiver, entry => do
      let facts := (← evaluate site receiver entry).merged
      if site.config.has .fieldVersions then
        return .joined (facts.pin (← slotOfField expression) 1)
      else
        return .joined facts
  | .assign target value, entry =>
      match target.site? with
      | some defined => do
          let facts := (← evaluate site value entry).merged
          let facts ← define site defined facts
          recordCopy defined value
          return .joined facts
      | none => do
          let before ← evaluate site target entry
          let facts := (← evaluate site value before.join).merged
          return .joined (if target.isField then clobberFields site facts else facts)
  | .ternary condition onTrue onFalse, entry => do
      let tested ← evaluate site condition entry
      let left ← evaluate site onTrue (.joined tested.ifTrue)
      let right ← evaluate site onFalse (.joined tested.ifFalse)
      return joinArms left right
  | .and left right, entry => do
      let tested ← evaluate site left entry
      let second ← evaluate site right (.joined tested.ifTrue)
      return (tested.setTrue second.ifTrue).mergeFalse second.ifFalse
  | .or left right, entry => do
      let tested ← evaluate site left entry
      let second ← evaluate site right (.joined tested.ifFalse)
      return (tested.mergeTrue second.ifTrue).setFalse second.ifFalse
  | .not operand, entry => do
      return (← evaluate site operand entry).negate
  | .typeTest operand binding, entry => do
      let tested ← evaluate site operand entry
      match binding with
      | .none => return tested.join
      | .invalid expression => throw (.notVariable expression)
      | .variable target =>
          let bound ← define site target tested.merged
          return tested.join.setTrue bound
  | .increment target, entry => do
      let facts := (← evaluate site target entry).merged
      match target.site? with
      | some incremented => return .joined (← incrementVariable site incremented facts)
      | none => return .joined (if target.isField then clobberFields site facts else facts)
  | .chain first rest, entry => do
      let before ← evaluate site first entry
      evaluate site rest before.join
  | .clobber operands, entry => do
      let facts := (← evaluate site operands entry).merged
      return .joined (clobberFields site facts)

end RunM

end SlotVersioning
