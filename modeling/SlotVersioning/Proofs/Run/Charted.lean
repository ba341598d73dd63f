import SlotVersioning.Proofs.Graph.Gathering
import SlotVersioning.Proofs.Run.Reading

/-!
# Charted states

A state is charted when its version graph is sound and holds no version that was not numbered yet.
Then every new version gets a node of its own, and wiring a version lets exactly the wanted versions
flow into it (`mergeInto_ok`, `ensurePhantom_ok`).
-/

namespace SlotVersioning

open VersionGraph

/-- The version graph of a state is this one; it is sound, and its versions were numbered. -/
structure Charted (state : RunState) (graph : VersionGraph) : Prop where
  stored : state.tables.graph = some graph
  sound : graph.Sound
  numbered : ∀ key origin, graph.Has key origin → 0 ≤ key.slot →
    key.version ≤ state.last key.slot

namespace Charted

variable {before after : RunState} {graph next : VersionGraph}

/-- Nothing matters but the graph and the numbers, which only grow. -/
theorem of_last (charted : Charted before graph) (stored : after.tables.graph = before.tables.graph)
    (last : ∀ slot, before.last slot ≤ after.last slot) : Charted after graph where
  stored := stored.trans charted.stored
  sound := charted.sound
  numbered := fun key origin has ordinary =>
    Nat.le_trans (charted.numbered key origin has ordinary) (last key.slot)

/-- A graph with the same nodes takes the place of the graph. -/
theorem of_identity (charted : Charted before graph) (stored : after.tables.graph = some next)
    (last : ∀ slot, before.last slot ≤ after.last slot) (sound : next.Sound)
    (identity : ∀ position, next.identity? position = graph.identity? position) :
    Charted after next where
  stored := stored
  sound := sound
  numbered := by
    rintro key origin ⟨position, found⟩ ordinary
    rw [identity] at found
    exact Nat.le_trans (charted.numbered key origin ⟨position, found⟩ ordinary) (last key.slot)

/-- A version that was not numbered yet has no node. -/
theorem fresh (charted : Charted before graph) {slot : Slot} (ordinary : 0 ≤ slot) {version : Nat}
    (unnumbered : before.last slot < version) : graph.position? ⟨slot, version⟩ = none := by
  cases found : graph.position? ⟨slot, version⟩ with
  | none => rfl
  | some position =>
      rcases charted.sound.placed _ position found with ⟨origin, identity⟩
      exact absurd (charted.numbered _ origin ⟨position, identity⟩ ordinary)
        (Nat.not_le_of_lt unnumbered)

end Charted

/-- The graph gets a node for a version that has just been numbered. -/
theorem Charted.of_grown {before after : RunState} {graph next : VersionGraph} {key : VersionKey}
    {origin : VersionOrigin} {place : Nat} (charted : Charted before graph) (sound : next.Sound)
    (identity : ∀ position, next.identity? position =
      if position = place then some (key, origin) else graph.identity? position)
    (stored : after.tables.graph = some next) (last : ∀ slot, before.last slot ≤ after.last slot)
    (numbered : 0 ≤ key.slot → key.version ≤ after.last key.slot) : Charted after next where
  stored := stored
  sound := sound
  numbered := by
    rintro other created ⟨position, found⟩ ordinary
    rw [identity] at found
    split at found
    · cases found
      exact numbered ordinary
    · exact Nat.le_trans (charted.numbered other created ⟨position, found⟩ ordinary)
        (last other.slot)

namespace RunM

variable {site : Site} {key : VersionKey} {origin : VersionOrigin} {target : Nat}
  {state final : RunState} {graph : VersionGraph}

theorem last_le_mint (state : RunState) (tree : StatementTree) (slot other : Slot)
    (statement : Option StatementId) :
    state.last other ≤
      RunState.last { state with tables := (state.tables.mint tree slot statement).1 } other :=
  (quietly_mint tree slot statement state _ _ rfl).last other

/-! ## Wiring -/

/-- Versions were wired into a node, beside what flowed there. -/
structure Wires (key : VersionKey) (target : Nat) (sources : List Version)
    (before after : VersionGraph) : Prop where
  rewires : Rewires key before after
  flows : ∀ source, after.FlowsTo source target ↔
    (∃ version ∈ sources, source = ⟨key.slot, version⟩) ∨ before.FlowsTo source target

private theorem addPhiInput_ok {source : Version}
    (run : addPhiInput site key target source state = .ok () final) (charted : Charted state graph)
    (found : graph.identity? target = some (key, origin)) (plain : origin ≠ .phiInput)
    (ordinary : 0 ≤ key.slot) (known : ∃ created, graph.Has ⟨key.slot, source⟩ created) :
    ∃ next, Charted final next ∧ Wires key target [source] graph next := by
  unfold addPhiInput at run
  rw [bind_eq (mint_apply _ _ _ _), bind_eq (editGraph_apply _ _), report_apply] at run
  cases run
  have fresh := charted.fresh ordinary (Nat.lt_succ_self (state.last key.slot))
  rcases known with ⟨created, has⟩
  have joined := joined_addInput charted.sound found plain has fresh rfl rfl
  have grows (slot : Slot) := last_le_mint state site.tree key.slot slot (some site.statement)
  refine ⟨_, ⟨?_, joined.sound, ?_⟩, joined.rewires, fun other => ?_⟩
  · change state.tables.graph.map _ = _
    rw [charted.stored]
    rfl
  · rintro other made has nonnegative
    rcases joined.sound.position?_of_has has with ⟨place, placed⟩
    rcases joined.position other place placed with rfl | before
    · have minted := state.last_mint site.tree key.slot key.slot (some site.statement)
      rw [if_pos rfl] at minted
      exact Nat.le_of_eq minted.symm
    · rcases charted.sound.placed other place before with ⟨old, there⟩
      exact Nat.le_trans (charted.numbered other old ⟨place, there⟩ nonnegative) (grows other.slot)
  · rw [joined.flows]
    simp

private theorem addPhiInputs_ok {sources : List Version}
    (run : sources.forM (addPhiInput site key target) state = .ok () final)
    (charted : Charted state graph) (found : graph.identity? target = some (key, origin))
    (plain : origin ≠ .phiInput) (ordinary : 0 ≤ key.slot)
    (known : ∀ version ∈ sources, ∃ created, graph.Has ⟨key.slot, version⟩ created) :
    ∃ next, Charted final next ∧ Wires key target sources graph next := by
  induction sources generalizing state graph with
  | nil =>
      rcases pure_ok run with ⟨-, rfl⟩
      exact ⟨graph, charted, .refl key graph, fun source => by simp⟩
  | cons head tail induction =>
      rcases bind_ok run with ⟨_, middle, first, rest⟩
      rcases addPhiInput_ok first charted found plain ordinary (known head List.mem_cons_self) with
        ⟨between, chartedBetween, wires⟩
      have later : ∀ version ∈ tail, ∃ created, between.Has ⟨key.slot, version⟩ created := by
        intro version member
        rcases known version (List.mem_cons_of_mem _ member) with ⟨created, has⟩
        exact ⟨created, wires.rewires.has has⟩
      rcases induction rest chartedBetween (wires.rewires.identity target _ found) later with
        ⟨next, chartedNext, wiresRest⟩
      refine ⟨next, chartedNext, wires.rewires.trans wiresRest.rewires, fun source => ?_⟩
      rw [wiresRest.flows, wires.flows]
      simp only [List.mem_cons, List.not_mem_nil, or_false, exists_eq_left, exists_eq_or_imp,
        or_assoc]
      exact or_left_comm

/-- The versions flow into the node, and besides them at most the phantom that flowed there. -/
structure Merged (key : VersionKey) (target : Nat) (sources : VersionSet)
    (phantom : Option Version) (before after : VersionGraph) : Prop where
  rewires : Rewires key before after
  flows : ∀ version ∈ sources, after.FlowsTo ⟨key.slot, version⟩ target
  flowed : ∀ source, after.FlowsTo source target → source.slot = key.slot ∧
    (source.version ∈ sources ∨ phantom = some source.version ∧ before.FlowsTo source target)

theorem mergeInto_ok {sources : VersionSet} (run : mergeInto site key sources state = .ok () final)
    (charted : Charted state graph) (found : graph.identity? target = some (key, origin))
    (plain : origin ≠ .phiInput) (ordinary : 0 ≤ key.slot)
    (known : ∀ version ∈ sources, ∃ created, graph.Has ⟨key.slot, version⟩ created) :
    ∃ next, Charted final next ∧
      Merged key target sources ((state.tables.phantom? key).map VersionKey.version) graph next := by
  unfold mergeInto at run
  rw [bind_eq (tables_apply _)] at run
  simp only [charted.stored] at run
  have placed := charted.sound.indexed target key origin found
  rcases ensure_known .use none placed with ⟨same, similar⟩
  generalize graph.ensure key .use = ensured at same similar run
  rcases ensured with ⟨begun, position⟩
  dsimp only at same similar run
  subst same
  have begunFound := (similar.identity position).trans found
  have notInput := isPhiInputAt_eq_false begunFound plain
  generalize wanting : (fun source => sources.contains source ||
    Option.map VersionKey.version (state.tables.phantom? key) == some source) = wanted at run
  have pruned := pruned_pruneInputs (similar.sound charted.sound) begunFound plain wanted
  have left {source : VersionKey}
      (flows : (begun.pruneInputs position wanted).1.FlowsTo source position) :
      wanted source.version = true :=
    wanted_of_pruneInputs (similar.sound charted.sound) notInput flows
  generalize begun.pruneInputs position wanted = result at pruned left run
  rcases result with ⟨cut, wired⟩
  dsimp only at pruned run
  rw [bind_eq (editTables_apply _ _)] at run
  have identity (place : Nat) : cut.identity? place = graph.identity? place :=
    (pruned.identity place).trans (similar.identity place)
  have chartedCut : Charted { state with tables := { state.tables with graph := some cut } } cut :=
    charted.of_identity rfl (fun _ => Nat.le_refl _) pruned.sound identity
  have cutFound := (identity position).trans found
  have rewiresCut := (similar.rewires key).trans pruned.rewires
  have missingKnown : ∀ version ∈ sources.toList.filter fun source => !wired.contains source,
      ∃ created, cut.Has ⟨key.slot, version⟩ created := by
    intro version member
    rcases known version (VersionSet.mem_toList.1 (List.mem_filter.1 member).1) with ⟨created, has⟩
    exact ⟨created, rewiresCut.has has⟩
  rcases addPhiInputs_ok run chartedCut cutFound plain ordinary missingKnown with
    ⟨next, chartedNext, wires⟩
  refine ⟨next, chartedNext, rewiresCut.trans wires.rewires, fun version member => ?_,
    fun source flows => ?_⟩
  · rw [wires.flows]
    by_cases already : version ∈ wired
    · exact .inr (pruned.wired version already)
    · refine .inl ⟨version, List.mem_filter.2 ⟨VersionSet.mem_toList.2 member, ?_⟩, rfl⟩
      rw [Bool.not_eq_true', ← Bool.not_eq_true]
      exact already
  · rcases (wires.flows source).1 flows with ⟨version, member, rfl⟩ | spared
    · exact ⟨rfl, .inl (VersionSet.mem_toList.1 (List.mem_filter.1 member).1)⟩
    · have before := (similar.flowsTo_iff source position).1 (pruned.flowed source spared)
      refine ⟨(charted.sound.of_flowsTo found before).2, ?_⟩
      have wants := left spared
      rw [← wanting, Bool.or_eq_true] at wants
      exact wants.imp id fun same => ⟨beq_iff_eq.1 same, before⟩

/-! ## Phantoms -/

/-- At most the phantom flows into the node besides what flowed there. -/
structure Haunts (key : VersionKey) (target : Nat) (phantom : Option Version)
    (before after : VersionGraph) : Prop where
  rewires : Rewires key before after
  flows : ∀ source, before.FlowsTo source target → after.FlowsTo source target
  flowed : ∀ source, after.FlowsTo source target →
    after.Has source .phantom ∧ phantom = some source.version ∨ before.FlowsTo source target

/-- Merging a phantom and what flows into a node already leaves what flows there. -/
private theorem Haunts.of_merged {phantom : Version} {other : Option Version}
    {before after : VersionGraph}
    (merged : Merged key target (insert phantom (before.sourcesAt target)) other before after)
    (sound : before.Sound) (found : before.identity? target = some (key, origin))
    (has : before.Has ⟨key.slot, phantom⟩ .phantom) :
    Haunts key target (some phantom) before after where
  rewires := merged.rewires
  flows := by
    intro source flows
    have into := merged.flows source.version
      (VersionSet.mem_insert.2 (.inr (mem_sourcesAt.2 ⟨source, rfl, flows⟩)))
    rw [← (sound.of_flowsTo found flows).2] at into
    exact into
  flowed := by
    intro source flows
    rcases merged.flowed source flows with ⟨slot, wanted | ⟨-, before⟩⟩
    · have whole : source = ⟨key.slot, source.version⟩ := by
        rw [← slot]
      rcases VersionSet.mem_insert.1 wanted with isPhantom | flowing
      · rw [isPhantom] at whole
        exact .inl ⟨merged.rewires.has (whole ▸ has), congrArg some isPhantom.symm⟩
      · rw [whole]
        exact .inr (sound.flowsTo_of_mem_sourcesAt found flowing)
    · exact .inr before

private theorem Haunts.of_added {haunting : Option Version} {phantom : VersionKey}
    {before between after : VersionGraph} (haunts : Haunts key target haunting between after)
    (added : Added before between phantom .phantom) (unknown : before.position? phantom = none)
    (sound : before.Sound) : Haunts key target haunting before after where
  rewires := (added.rewires key).trans haunts.rewires
  flows := fun source flows =>
    haunts.flows source ((added.flowsTo_iff unknown sound source target).2 flows)
  flowed := fun source flows =>
    (haunts.flowed source flows).imp_right (added.flowsTo_iff unknown sound source target).1

private theorem addPhantom_ok {phantom : VersionKey}
    (run : addPhantom site key state = .ok phantom final)
    (charted : Charted state graph) (found : graph.identity? target = some (key, origin))
    (plain : origin ≠ .phiInput) (ordinary : 0 ≤ key.slot) :
    ∃ next, Charted final next ∧ Haunts key target (some phantom.version) graph next := by
  unfold addPhantom at run
  rw [bind_eq (mint_apply _ _ _ _), bind_eq (tables_apply _)] at run
  have stored : (state.tables.mint site.tree key.slot none).1.graph = some graph := charted.stored
  simp only [stored] at run
  have unknown := charted.fresh ordinary (Nat.lt_succ_self (state.last key.slot))
  rcases ensure_unknown .phantom none unknown with ⟨-, added⟩
  generalize graph.ensure ⟨key.slot, state.last key.slot + 1⟩ .phantom = ensured at added run
  rcases ensured with ⟨begun, atPhantom⟩
  dsimp only at added run
  have begunSound := added.sound unknown charted.sound
  have begunFound := (added.rewires key).identity target _ found
  rcases ensure_known .use none (begunSound.indexed target key origin begunFound) with
    ⟨same, similar⟩
  generalize begun.ensure key .use = ensured at same similar run
  rcases ensured with ⟨grown, position⟩
  dsimp only at same similar run
  subst same
  rw [bind_eq (editTables_apply _ _), bind_eq (report_apply _ _)] at run
  rcases bind_ok run with ⟨_, merged, merges, run⟩
  rcases pure_ok run with ⟨rfl, rfl⟩
  have grew := added.of_similar similar
  have minted := state.last_mint site.tree key.slot key.slot none
  rw [if_pos rfl] at minted
  have chartedGrown : Charted { state with tables :=
      { (state.tables.mint site.tree key.slot none).1 with graph := some grown } } grown :=
    charted.of_grown (grew.sound unknown charted.sound) grew.identity rfl
      (fun slot => last_le_mint state site.tree key.slot slot none)
      fun _ => Nat.le_of_eq minted.symm
  have grownFound := (similar.identity position).trans begunFound
  have has : grown.Has ⟨key.slot, state.last key.slot + 1⟩ .phantom :=
    ⟨graph.size, (grew.identity graph.size).trans (if_pos rfl)⟩
  have known : ∀ version ∈ insert (state.last key.slot + 1) (grown.sourcesAt position),
      ∃ created, grown.Has ⟨key.slot, version⟩ created := by
    intro version member
    rcases VersionSet.mem_insert.1 member with rfl | flowing
    · exact ⟨_, has⟩
    · have flows := chartedGrown.sound.flowsTo_of_mem_sourcesAt grownFound flowing
      exact (chartedGrown.sound.of_flowsTo grownFound flows).1
  rcases mergeInto_ok merges (chartedGrown.of_last rfl fun _ => Nat.le_refl _) grownFound plain
    ordinary known with ⟨next, chartedNext, merged⟩
  have haunts := Haunts.of_merged merged chartedGrown.sound grownFound has
  exact ⟨next, chartedNext, haunts.of_added grew unknown charted.sound⟩

/-- A phantom that flows into a node anew is recorded. -/
theorem ensurePhantom_ok (run : ensurePhantom site key state = .ok () final)
    (charted : Charted state graph) (found : graph.identity? target = some (key, origin))
    (plain : origin ≠ .phiInput) (ordinary : 0 ≤ key.slot) :
    ∃ next phantom, Charted final next ∧ Haunts key target phantom graph next ∧
      (final.tables.phantoms.isSome → ∀ version, phantom = some version →
        (final.tables.phantom? key).map VersionKey.version = some version) := by
  rcases ensurePhantom_parts run with ⟨-, rfl⟩ | ⟨-, phantom, middle, adds, rfl⟩
  · exact ⟨graph, none, charted, ⟨.refl key graph, fun _ flows => flows, fun _ flows => .inr flows⟩,
      fun _ _ impossible => nomatch impossible⟩
  · rcases addPhantom_ok adds charted found plain ordinary with ⟨next, chartedNext, haunts⟩
    refine ⟨next, _, chartedNext.of_last rfl fun _ => Nat.le_refl _, haunts, ?_⟩
    intro recorded version same
    rcases Option.isSome_iff_exists.1 ((Option.isSome_map ..).symm.trans recorded) with
      ⟨phantoms, stored⟩
    rw [← same]
    unfold Tables.phantom?
    dsimp only
    rw [stored, Option.map_some, Option.bind_some, Std.ExtTreeMap.getElem?_insert_self]
    rfl

end RunM

end SlotVersioning
