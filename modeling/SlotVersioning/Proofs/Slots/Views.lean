import SlotVersioning.Proofs.Rest.Idle
import SlotVersioning.Proofs.Slots.Graphs

/-!
# Views of one slot

A view is what there is to see of one slot in the state of a run: the versions at its sites, their
count, what is merged into them, their phantoms, and the part of the version graph between them. Two
states agree in a view when all of this is the same. The same edit of the slot keeps states in
agreement, and an edit of another slot leaves a state in agreement with all that it agreed with.
-/

namespace SlotVersioning

open Std

/-- A variable in configured runs, and the expressions at which its versions are written. -/
structure SlotView where
  config : Config
  slot : Slot
  ordinary : 0 ≤ slot
  sites : ExprId → Prop

/-- Nothing that the configuration asks for is missing, and the slots of fields are negative. -/
structure RunState.Ready (config : Config) (state : RunState) : Prop where
  fields : state.FieldsNegative
  phi : config.has .usageVersions = false → state.tables.phi.isSome
  usage : config.has .usageVersions = true → state.tables.graph.isSome
  phantoms : state.tables.phantoms.isSome → state.tables.graph.isSome

theorem RunState.Ready.of_same {config : Config} {before after : RunState}
    (ready : before.Ready config)
    (next : after.tables.nextFieldSlot = before.tables.nextFieldSlot)
    (fields : after.tables.fields = before.tables.fields)
    (phi : after.tables.phi.isSome = before.tables.phi.isSome)
    (phantoms : after.tables.phantoms.isSome = before.tables.phantoms.isSome)
    (graph : after.tables.graph.isSome = before.tables.graph.isSome) : after.Ready config where
  fields := ⟨next ▸ ready.fields.next, fields ▸ ready.fields.given⟩
  phi := fun plain => phi.trans (ready.phi plain)
  usage := fun usage => graph.trans (ready.usage usage)
  phantoms := fun on => graph.trans (ready.phantoms (phantoms.symm.trans on))

namespace SlotView

/-- The states show the same of the slot. -/
structure Agrees (view : SlotView) (left right : RunState) : Prop where
  leftReady : left.Ready view.config
  rightReady : right.Ready view.config
  version : ∀ expression, view.sites expression →
    left.version expression = right.version expression
  last : left.tables.lastVersion? view.slot = right.tables.lastVersion? view.slot
  merged : ∀ version,
    left.tables.merged? ⟨view.slot, version⟩ = right.tables.merged? ⟨view.slot, version⟩
  haunted : left.tables.phantoms.isSome = right.tables.phantoms.isSome
  phantom : ∀ version,
    left.tables.phantom? ⟨view.slot, version⟩ = right.tables.phantom? ⟨view.slot, version⟩
  graph : Option.Rel (VersionGraph.AgreesAt view.slot) left.tables.graph right.tables.graph

namespace Agrees

variable {view : SlotView} {left middle right : RunState}

theorem symm (agrees : view.Agrees left right) : view.Agrees right left where
  leftReady := agrees.rightReady
  rightReady := agrees.leftReady
  version := fun expression inside => (agrees.version expression inside).symm
  last := agrees.last.symm
  merged := fun version => (agrees.merged version).symm
  haunted := agrees.haunted.symm
  phantom := fun version => (agrees.phantom version).symm
  graph := by
    have graphs := agrees.graph
    generalize left.tables.graph = stored at graphs ⊢
    generalize right.tables.graph = other at graphs ⊢
    cases graphs with
    | some graphs => exact .some graphs.symm
    | none => exact .none

theorem trans (first : view.Agrees left middle) (second : view.Agrees middle right) :
    view.Agrees left right where
  leftReady := first.leftReady
  rightReady := second.rightReady
  version := fun expression inside =>
    (first.version expression inside).trans (second.version expression inside)
  last := first.last.trans second.last
  merged := fun version => (first.merged version).trans (second.merged version)
  haunted := first.haunted.trans second.haunted
  phantom := fun version => (first.phantom version).trans (second.phantom version)
  graph := by
    have begun := first.graph
    have ended := second.graph
    generalize left.tables.graph = leftStored at begun ⊢
    generalize middle.tables.graph = middleStored at begun ended
    generalize right.tables.graph = rightStored at ended ⊢
    cases begun with
    | some begun =>
        cases ended with
        | some ended => exact .some (begun.trans ended)
    | none =>
        cases ended
        exact .none

theorem last_eq (agrees : view.Agrees left right) : left.last view.slot = right.last view.slot := by
  unfold RunState.last
  rw [ExtTreeMap.getD_eq_getD_getElem?, ExtTreeMap.getD_eq_getD_getElem?]
  exact congrArg (Option.getD · 0) agrees.last

/-- What is idle does not show. -/
theorem idle {live : Bool} {final : RunState} (agrees : view.Agrees left right)
    (idle : Idle live right final) : view.Agrees left final where
  leftReady := agrees.leftReady
  rightReady := by
    refine agrees.rightReady.of_same (idle.same Tables.nextFieldSlot fun _ => rfl)
      idle.books.fields (congrArg _ (idle.same Tables.phi fun _ => rfl))
      (congrArg _ idle.books.phantoms) (idle.same (fun tables => tables.graph.isSome) fun _ => ?_)
    exact Option.isSome_map
  version := by
    rw [idle.version]
    exact agrees.version
  last := agrees.last.trans (idle.same (·.lastVersion? view.slot) fun _ => rfl).symm
  merged := by
    rw [idle.merged]
    exact agrees.merged
  haunted := by
    rw [idle.books.phantoms]
    exact agrees.haunted
  phantom := fun version =>
    (agrees.phantom version).trans (Tables.phantom?_congr idle.books.phantoms _).symm
  graph := by
    have graphs := agrees.graph
    cases stored : right.tables.graph with
    | none =>
        have absent := idle.same (fun tables => tables.graph.isSome) fun _ => Option.isSome_map
        rw [stored, Option.isSome_none, Option.isSome_eq_false_iff, Option.isNone_iff_eq_none]
          at absent
        rw [absent, ← stored]
        exact graphs
    | some graph =>
        rcases idle.graph stored with ⟨next, nextStored, similar⟩
        rw [nextStored]
        rw [stored] at graphs
        generalize left.tables.graph = begun at graphs ⊢
        cases graphs with
        | some agree => exact .some (agree.trans (.of_similar agree.rightSound similar))

/-- The graphs of agreeing states agree, if there are any. -/
theorem graphs (agrees : view.Agrees left right) {graph : VersionGraph}
    (stored : left.tables.graph = some graph) :
    ∃ other, right.tables.graph = some other ∧ graph.AgreesAt view.slot other := by
  have graphs := agrees.graph
  rw [stored] at graphs
  cases found : right.tables.graph with
  | none =>
      rw [found] at graphs
      exact nomatch graphs
  | some other =>
      rw [found] at graphs
      cases graphs with
      | some agree => exact ⟨other, rfl, agree⟩

end Agrees

end SlotView

/-! ## Numbers and names -/

theorem Tables.lastVersion?_mint (tables : Tables) (tree : StatementTree) (slot other : Slot)
    (statement : Option StatementId) :
    (tables.mint tree slot statement).1.lastVersion? other =
      if slot = other then some (tables.lastVersions.getD slot 0 + 1)
      else tables.lastVersion? other := by
  unfold Tables.lastVersion? Tables.mint
  dsimp only
  rw [ExtTreeMap.getElem?_insert]
  simp only [Std.compare_eq_iff_eq]

namespace SlotView.Agrees

variable {view : SlotView} {left right : RunState} (agrees : view.Agrees left right)

include agrees

/-- The same versions are numbered. -/
theorem minted (tree otherTree : StatementTree) (statement otherStatement : Option StatementId) :
    view.Agrees { left with tables := (left.tables.mint tree view.slot statement).1 }
      { right with tables := (right.tables.mint otherTree view.slot otherStatement).1 } where
  __ := agrees
  leftReady := agrees.leftReady.of_same rfl rfl rfl rfl rfl
  rightReady := agrees.rightReady.of_same rfl rfl rfl rfl rfl
  last := by
    rw [Tables.lastVersion?_mint, Tables.lastVersion?_mint, if_pos rfl, if_pos rfl]
    exact congrArg (fun last => some (last + 1)) agrees.last_eq

theorem minted_elsewhere {slot : Slot} (elsewhere : slot ≠ view.slot) (tree : StatementTree)
    (statement : Option StatementId) :
    view.Agrees left { right with tables := (right.tables.mint tree slot statement).1 } where
  __ := agrees
  rightReady := agrees.rightReady.of_same rfl rfl rfl rfl rfl
  last := by
    rw [Tables.lastVersion?_mint, if_neg elsewhere]
    exact agrees.last

/-- The same version is written. -/
theorem written (expression : ExprId) (version : Version) :
    view.Agrees { left with versions := left.versions.insert expression version }
      { right with versions := right.versions.insert expression version } where
  __ := agrees
  leftReady := agrees.leftReady.of_same rfl rfl rfl rfl rfl
  rightReady := agrees.rightReady.of_same rfl rfl rfl rfl rfl
  version := by
    intro other inside
    rw [RunState.version_insert, RunState.version_insert, agrees.version other inside]

theorem written_elsewhere {expression : ExprId} (elsewhere : ¬ view.sites expression)
    (version : Version) :
    view.Agrees left { right with versions := right.versions.insert expression version } where
  __ := agrees
  rightReady := agrees.rightReady.of_same rfl rfl rfl rfl rfl
  version := by
    intro other inside
    rw [RunState.version_insert, if_neg]
    · exact agrees.version other inside
    · rintro rfl
      exact elsewhere inside

/-- What is reported does not show. -/
theorem reported (events others : List Event) :
    view.Agrees { left with events } { right with events := others } where
  __ := agrees
  leftReady := agrees.leftReady.of_same rfl rfl rfl rfl rfl
  rightReady := agrees.rightReady.of_same rfl rfl rfl rfl rfl

theorem reported_elsewhere (events : List Event) :
    view.Agrees left { right with events } :=
  agrees.reported left.events events

/-! ## The graph -/

/-- The graphs of both are replaced by graphs that agree. -/
theorem drawn {graph other : VersionGraph} (graphs : graph.AgreesAt view.slot other) :
    view.Agrees { left with tables := { left.tables with graph := some graph } }
      { right with tables := { right.tables with graph := some other } } where
  __ := agrees
  leftReady := ⟨⟨agrees.leftReady.fields.next, agrees.leftReady.fields.given⟩,
    agrees.leftReady.phi, fun _ => rfl, fun _ => rfl⟩
  rightReady := ⟨⟨agrees.rightReady.fields.next, agrees.rightReady.fields.given⟩,
    agrees.rightReady.phi, fun _ => rfl, fun _ => rfl⟩
  graph := .some graphs

theorem drawn_elsewhere {graph next : VersionGraph} (stored : right.tables.graph = some graph)
    (graphs : graph.AgreesAt view.slot next) :
    view.Agrees left { right with tables := { right.tables with graph := some next } } := by
  rcases agrees.symm.graphs stored with ⟨begun, begunStored, agree⟩
  have drawn := agrees.drawn (agree.symm.trans graphs)
  rw [← begunStored] at drawn
  exact drawn

/-- Graphs are edited so that they go on agreeing. -/
theorem edited {leftEdit rightEdit : VersionGraph → VersionGraph}
    (keeps : ∀ graph other, left.tables.graph = some graph → right.tables.graph = some other →
      graph.AgreesAt view.slot other → (leftEdit graph).AgreesAt view.slot (rightEdit other)) :
    view.Agrees { left with tables := left.tables.editGraph leftEdit }
      { right with tables := right.tables.editGraph rightEdit } where
  __ := agrees
  leftReady := agrees.leftReady.of_same rfl rfl rfl rfl Option.isSome_map
  rightReady := agrees.rightReady.of_same rfl rfl rfl rfl Option.isSome_map
  graph := by
    have graphs := agrees.graph
    unfold Tables.editGraph
    dsimp only
    generalize left.tables.graph = stored at graphs keeps ⊢
    generalize right.tables.graph = otherStored at graphs keeps ⊢
    cases graphs with
    | some agree => exact .some (keeps _ _ rfl rfl agree)
    | none => exact .none

theorem edited_elsewhere {edit : VersionGraph → VersionGraph}
    (keeps : ∀ graph, right.tables.graph = some graph → graph.Sound →
      graph.AgreesAt view.slot (edit graph)) :
    view.Agrees left { right with tables := right.tables.editGraph edit } := by
  have edits : view.Agrees { left with tables := left.tables.editGraph id }
      { right with tables := right.tables.editGraph edit } :=
    agrees.edited fun _ other _ stored graphs =>
      graphs.trans (keeps other stored graphs.rightSound)
  unfold Tables.editGraph at edits ⊢
  rw [Option.map_id] at edits
  exact edits

/-! ## Merges and phantoms -/

theorem tabulated {phi other : ExtTreeMap VersionKey VersionSet}
    (same : ∀ version, phi[VersionKey.mk view.slot version]? =
      other[VersionKey.mk view.slot version]?) :
    view.Agrees { left with tables := { left.tables with phi := some phi } }
      { right with tables := { right.tables with phi := some other } } where
  __ := agrees
  leftReady := ⟨⟨agrees.leftReady.fields.next, agrees.leftReady.fields.given⟩, fun _ => rfl,
    agrees.leftReady.usage, agrees.leftReady.phantoms⟩
  rightReady := ⟨⟨agrees.rightReady.fields.next, agrees.rightReady.fields.given⟩, fun _ => rfl,
    agrees.rightReady.usage, agrees.rightReady.phantoms⟩
  merged := same

theorem tabulated_elsewhere {phi next : ExtTreeMap VersionKey VersionSet}
    (stored : right.tables.phi = some phi)
    (same : ∀ version, next[VersionKey.mk view.slot version]? =
      phi[VersionKey.mk view.slot version]?) :
    view.Agrees left { right with tables := { right.tables with phi := some next } } where
  __ := agrees
  rightReady := ⟨⟨agrees.rightReady.fields.next, agrees.rightReady.fields.given⟩, fun _ => rfl,
    agrees.rightReady.usage, agrees.rightReady.phantoms⟩
  merged := by
    intro version
    rw [agrees.merged, Tables.merged?_of_stored stored]
    exact (same version).symm

end SlotView.Agrees

/-- The tables in which a phantom of the key is recorded, if phantoms are. -/
def Tables.withPhantom (tables : Tables) (key phantom : VersionKey) : Tables :=
  { tables with phantoms := tables.phantoms.map fun phantoms => phantoms.insert key phantom }

theorem Tables.phantom?_withPhantom (tables : Tables) (key phantom other : VersionKey) :
    (tables.withPhantom key phantom).phantom? other =
      if tables.phantoms.isSome ∧ key = other then some phantom else tables.phantom? other := by
  unfold Tables.phantom? withPhantom
  cases tables.phantoms with
  | none => rfl
  | some phantoms =>
      dsimp only [Option.map_some, Option.bind_some]
      rw [ExtTreeMap.getElem?_insert]
      simp only [Std.compare_eq_iff_eq, Option.isSome_some, true_and]

namespace SlotView.Agrees

variable {view : SlotView} {left right : RunState} (agrees : view.Agrees left right)

include agrees

theorem withPhantom (key phantom : VersionKey) :
    view.Agrees { left with tables := left.tables.withPhantom key phantom }
      { right with tables := right.tables.withPhantom key phantom } where
  __ := agrees
  leftReady := agrees.leftReady.of_same rfl rfl rfl Option.isSome_map rfl
  rightReady := agrees.rightReady.of_same rfl rfl rfl Option.isSome_map rfl
  haunted := Option.isSome_map.trans (agrees.haunted.trans Option.isSome_map.symm)
  phantom := by
    intro version
    rw [Tables.phantom?_withPhantom, Tables.phantom?_withPhantom, agrees.haunted, agrees.phantom]

theorem withPhantom_elsewhere {key : VersionKey} (elsewhere : key.slot ≠ view.slot)
    (phantom : VersionKey) :
    view.Agrees left { right with tables := right.tables.withPhantom key phantom } where
  __ := agrees
  rightReady := agrees.rightReady.of_same rfl rfl rfl Option.isSome_map rfl
  haunted := agrees.haunted.trans Option.isSome_map.symm
  phantom := by
    intro version
    rw [Tables.phantom?_withPhantom, agrees.phantom, if_neg]
    rintro ⟨-, rfl⟩
    exact elsewhere rfl

/-! ## Copies and fields -/

theorem withCopy (definition source : VersionKey) :
    view.Agrees left (right.withCopy definition source) where
  __ := agrees
  rightReady := agrees.rightReady.of_same rfl rfl rfl rfl rfl

/-- The nodes of fields belong to other slots. -/
theorem withField (expression : ExprId) :
    view.Agrees left { right with tables := (right.tables.slotOfField expression).1 } := by
  have request := RunM.slotOfField_apply expression right
  have negative := (RunM.quietly_slotOfField expression _ _ _ request).fields agrees.rightReady.fields
  have elsewhere : right.tables.nextFieldSlot ≠ view.slot := fun same =>
    absurd view.ordinary (Int.not_le.2 (same ▸ agrees.rightReady.fields.next))
  have grown : view.Agrees left { right with tables := right.tables.editGraph fun graph =>
      (graph.ensure ⟨right.tables.nextFieldSlot, 1⟩ .field).1 } :=
    agrees.edited_elsewhere fun graph _ sound =>
      VersionGraph.AgreesAt.ensure_elsewhere sound _ .field none elsewhere
  unfold Tables.slotOfField at negative ⊢
  split at negative
  · next known => exact agrees
  · next unknown =>
      exact {
        grown with
        rightReady := ⟨negative, grown.rightReady.phi, grown.rightReady.usage,
          grown.rightReady.phantoms⟩ }

end SlotView.Agrees

end SlotVersioning
