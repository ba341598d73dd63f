import SlotVersioning.Proofs.Graph.Built
import SlotVersioning.Proofs.Graph.Rewired
import SlotVersioning.Proofs.Run.Reading

/-!
# Merging anew

Whatever flowed into a version before, `RunM.mergeInto` leaves it with one input for each wanted
version, keeps the inputs that were there, mints no more than it has to, and touches no other edge.
Doing the same again does nothing (`RunM.mergeInto_rewires`). The version has to be numbered, even
before it has a node, or one of its inputs may get its number (`RunM.input_takes_key`).
-/

namespace SlotVersioning

open Std VersionGraph

namespace RunM

variable {site : Site} {key : VersionKey} {target : Nat} {sources : VersionSet}
  {graph : VersionGraph} {state : RunState}

/-! ## New inputs -/

/-- The version has a node, and it and all versions of its slot are numbered. -/
structure Mergeable (key : VersionKey) (target : Nat) (graph : VersionGraph) (state : RunState) :
    Prop where
  stored : state.tables.graph = some graph
  consistent : graph.Consistent
  known : graph.position? key = some target
  numbered : ∀ version, graph.origin? ⟨key.slot, version⟩ ≠ none → version ≤ state.last key.slot

private theorem Mergeable.keyNumbered (mergeable : Mergeable key target graph state) :
    key.version ≤ state.last key.slot := by
  rcases mergeable.consistent.exists_identity_of_position mergeable.known with ⟨origin, -, created⟩
  exact mergeable.numbered key.version (created.trans_ne nofun)

/-- A new input has the next version of the slot. -/
private theorem addPhiInput_extends (site : Site) {source : Version}
    (mergeable : Mergeable key target graph state) (bounded : source ≤ state.last key.slot) :
    ∃ final after, addPhiInput site key target source state = .ok () final ∧
      Mergeable key target after final ∧
      Extended key ⟨key.slot, source⟩ ⟨key.slot, state.last key.slot + 1⟩ graph after ∧
      (∀ slot, final.last slot = state.last slot + if slot = key.slot then 1 else 0) ∧
      final.tables.phantoms = state.tables.phantoms := by
  have fresh : graph.origin? ⟨key.slot, state.last key.slot + 1⟩ = none := by
    by_contra there
    exact absurd (mergeable.numbered _ there) (Nat.not_le.2 (Nat.lt_succ_self _))
  have apart : (⟨key.slot, source⟩ : VersionKey) ≠ ⟨key.slot, state.last key.slot + 1⟩ :=
    fun same => Nat.ne_of_lt (Nat.lt_succ_of_le bounded) (congrArg VersionKey.version same)
  have extended := mergeable.consistent.extended mergeable.known fresh apart
  unfold addPhiInput
  rw [bind_eq (mint_apply _ _ _ _), bind_eq (editGraph_apply _ _), report_apply]
  have grows (slot : Slot) := state.last_mint site.tree key.slot slot (some site.statement)
  refine ⟨_, _, rfl, ⟨?_, extended.consistent, extended.position key target mergeable.known,
    fun version there => ?_⟩, extended, fun slot => (grows slot).trans ?_, rfl⟩
  · change state.tables.graph.map _ = _
    rw [mergeable.stored]
    rfl
  · refine Nat.le_trans ?_ (Nat.le_of_eq ((grows key.slot).trans (if_pos rfl)).symm)
    rcases extended.known _ there with old | same | same
    · exact Nat.le_succ_of_le (mergeable.numbered version old)
    · exact Nat.le_succ_of_le
        (Nat.le_trans (Nat.le_of_eq (congrArg VersionKey.version same)) bounded)
    · exact Nat.le_of_eq (congrArg VersionKey.version same)
  · by_cases same : slot = key.slot
    · rw [same, if_pos rfl, if_pos rfl]
    · rw [if_neg (Ne.symm same), if_neg same, Nat.add_zero]

/-- The inputs that are minted one after another. -/
private theorem addPhiInputs_gained (site : Site) (missing : List Version)
    (mergeable : Mergeable key target graph state)
    (bounded : ∀ version ∈ missing, version ≤ state.last key.slot) :
    ∃ final after, missing.forM (addPhiInput site key target) state = .ok () final ∧
      Mergeable key target after final ∧
      Gained key (missing.zipIdx (state.last key.slot + 1)) graph after ∧
      (∀ slot, final.last slot =
        state.last slot + if slot = key.slot then missing.length else 0) ∧
      final.tables.phantoms = state.tables.phantoms := by
  induction missing generalizing state graph with
  | nil =>
      refine ⟨state, graph, rfl, mergeable, .nil mergeable.consistent key, fun slot => ?_, rfl⟩
      simp
  | cons source missing induction =>
      rw [List.forall_mem_cons] at bounded
      rcases addPhiInput_extends site mergeable bounded.1 with
        ⟨middle, between, first, mergeableBetween, extended, grows, samePhantoms⟩
      have next : middle.last key.slot = state.last key.slot + 1 := by
        rw [grows, if_pos rfl]
      have stillBounded (version : Version) (member : version ∈ missing) :
          version ≤ middle.last key.slot :=
        next ▸ Nat.le_succ_of_le (bounded.2 version member)
      rcases induction mergeableBetween stillBounded with
        ⟨final, after, rest, mergeableAfter, gained, growsOn, samePhantomsOn⟩
      rw [next] at gained
      refine ⟨final, after, (bind_eq first).trans rest, mergeableAfter, ?_, fun slot => ?_,
        samePhantomsOn.trans samePhantoms⟩
      · -- Later inputs are newer than this one, so they leave it alone.
        rw [List.zipIdx_cons]
        refine .cons extended gained (Nat.ne_of_gt (Nat.lt_succ_of_le mergeable.keyNumbered))
          fun pair member => Nat.ne_of_lt (List.le_snd_of_mem_zipIdx member)
      · rw [growsOn, grows, List.length_cons]
        split <;> omega

/-! ## Merges -/

/-- The inputs of a version that are wanted stay, and the sources that none of them carries get new
ones. -/
theorem mergeInto_eq {base pruned : VersionGraph} {wired : VersionSet}
    (stored : state.tables.graph = some graph) (ensured : graph.ensure key .use = (base, target))
    (pared : base.pruneInputs target
      (wants sources ((state.tables.phantom? key).map VersionKey.version)) = (pruned, wired)) :
    mergeInto site key sources state =
      (sources.toList.filter fun source => !wired.contains source).forM
        (addPhiInput site key target)
        { state with tables := { state.tables with graph := some pruned } } := by
  unfold wants at pared
  unfold mergeInto
  rw [bind_eq (tables_apply _)]
  simp only [stored, ensured, pared]
  rw [bind_eq (editTables_apply _ _)]

/-- Nothing is merged anew where nothing is pruned, and every source is wired already. -/
theorem mergeInto_idle {wired : VersionSet} (stored : state.tables.graph = some graph)
    (known : graph.position? key = some target)
    (same : graph.pruneInputs target
      (wants sources ((state.tables.phantom? key).map VersionKey.version)) = (graph, wired))
    (covered : ∀ version ∈ sources, version ∈ wired) :
    mergeInto site key sources state = .ok () state := by
  rw [mergeInto_eq stored (ensure_same .use known) same, List.filter_eq_nil_iff.2, ← stored]
  · rfl
  · intro version member
    rw [Bool.not_eq_true, Bool.not_eq_false']
    exact covered version (VersionSet.mem_toList.1 member)

/-- A version that was rewired is merged again without any change. -/
private theorem mergeInto_rewired {last : Version} {before : VersionGraph}
    (mergeable : Mergeable key target graph state) (plain : graph.origin? key ≠ some .phiInput)
    (rewired : Rewired key sources ((state.tables.phantom? key).map VersionKey.version) last
      before graph) : mergeInto site key sources state = .ok () state := by
  rcases rewired.settled mergeable.consistent with ⟨wanted, covered⟩
  have pared := mergeable.consistent.pared mergeable.known plain
    (wants sources ((state.tables.phantom? key).map VersionKey.version))
  refine mergeInto_idle mergeable.stored mergeable.known
    (Prod.ext (mergeable.consistent.pruneInputs_same mergeable.known wanted) rfl)
    fun version member => (pared.wired version).2 ⟨?_, covered version member⟩
  exact wants_iff.2 (.inl member)

/-- A version is left with one input for each source, and one for its phantom if it had one. Inputs
that are wanted stay, and just the missing ones are minted. Merging once more changes nothing.

The versions of the slot were numbered before, also the key's when it has no node yet. -/
theorem mergeInto_rewires (built : graph.Built) (stored : state.tables.graph = some graph)
    (single : ∀ input, graph.origin? input = some .phiInput →
      ∃ source, graph.predecessors input = [source])
    (distinct : (graph.contributors key).Nodup) (plain : graph.origin? key ≠ some .phiInput)
    (numbered : ∀ version, graph.origin? ⟨key.slot, version⟩ ≠ none →
      version ≤ state.last key.slot)
    (newNumbered : graph.origin? key = none → key.version ≤ state.last key.slot)
    (sourcesNumbered : ∀ version ∈ sources, version ≤ state.last key.slot) :
    ∃ final after, mergeInto site key sources state = .ok () final ∧
      final.tables.graph = some after ∧
      Rewired key sources ((state.tables.phantom? key).map VersionKey.version)
        (state.last key.slot) graph after ∧
      (∀ slot, final.last slot =
        state.last slot + if slot = key.slot then (graph.missing key sources).length else 0) ∧
      mergeInto site key sources final = .ok () final := by
  have consistent := built.consistent
  have ensured := consistent.keyEnsured key .use none
  rcases began : graph.ensure key .use with ⟨base, target⟩
  rw [began] at ensured
  rcases ensured.exists_origin nofun plain with ⟨origin, created, ordinary⟩
  have notInput : some origin ≠ some .phiInput := fun same => ordinary (Option.some.inj same)
  have pared := ensured.consistent.pared ensured.placed (created.trans_ne notInput)
    (wants sources ((state.tables.phantom? key).map VersionKey.version))
  rcases cut : base.pruneInputs target
    (wants sources ((state.tables.phantom? key).map VersionKey.version)) with ⟨pruned, wired⟩
  rw [cut] at pared
  have mergeable : Mergeable key target pruned
      { state with tables := { state.tables with graph := some pruned } } := by
    refine ⟨rfl, pared.consistent, (pared.position key).trans ensured.placed,
      fun version there => ?_⟩
    rw [pared.origin, ensured.origin] at there
    split at there
    · next new =>
        exact Nat.le_trans (Nat.le_of_eq (congrArg VersionKey.version new.1)) (newNumbered new.2)
    · exact numbered version there
  rcases addPhiInputs_gained site (graph.missing key sources) mergeable
      fun version member => sourcesNumbered version (mem_missing.1 member).1 with
    ⟨final, after, run, mergeableAfter, gained, grows, samePhantoms⟩
  -- What pruning left without an input is what did not contribute before.
  rw [← ensured.missing_eq consistent nofun pared] at run
  have merged := (mergeInto_eq stored began cut).trans run
  have rewired := rewired_of_gained consistent plain numbered ensured pared gained single distinct
  have samePhantom : final.tables.phantom? key = state.tables.phantom? key := by
    unfold Tables.phantom?
    rw [samePhantoms]
  refine ⟨final, after, merged, mergeableAfter.stored, rewired, grows, ?_⟩
  have finalCreated := gained.origin key origin ((pared.origin key).trans created)
  exact mergeInto_rewired mergeableAfter (finalCreated.trans_ne notInput) (samePhantom ▸ rewired)

end RunM

namespace VersionGraph

/-- A version that one of two others leads to through an input, and the other one directly. -/
def halfWired : VersionGraph :=
  let definitions := (({} : VersionGraph).ensure ⟨0, 1⟩ .definition).1.ensure ⟨0, 2⟩ .definition
  let nodes := (definitions.1.ensure ⟨0, 3⟩ .use).1.ensure ⟨0, 4⟩ .phiInput
  ((nodes.1.link 0 3).link 3 2).link 1 2

private theorem built_halfWired : halfWired.Built := by
  have nodes := (((Built.empty.ensure ⟨0, 1⟩ .definition none).ensure ⟨0, 2⟩ .definition
    none).ensure ⟨0, 3⟩ .use none).ensure ⟨0, 4⟩ .phiInput none
  refine .link (.link (.link nodes ?_ ?_) ?_ ?_) ?_ ?_ <;> decide

theorem mem_keys_of_origin {graph : VersionGraph} (built : graph.Built) {key : VersionKey}
    (known : graph.origin? key ≠ none) : key ∈ graph.keys := by
  rcases Option.ne_none_iff_exists'.1 known with ⟨origin, created⟩
  exact mem_keys.2 ⟨origin, built.consistent.has_of_origin created⟩

end VersionGraph

/-- The state of that graph. -/
def RunState.halfWired : RunState where
  tables :=
    { lastVersions := (∅ : ExtTreeMap Slot Version).insert 0 4
      graph := some VersionGraph.halfWired }

namespace RunM

/-- The edge becomes an input, and the other input stays. -/
theorem mergeInto_rewires_halfWired : ∃ final after,
    mergeInto ⟨⟨∅, 1000, 64⟩, {}, 0, false⟩ ⟨0, 3⟩ {1, 2} .halfWired = .ok () final ∧
      final.tables.graph = some after ∧
      Rewired ⟨0, 3⟩ {1, 2} none 4 halfWired after ∧ final.last 0 = 5 ∧
      mergeInto ⟨⟨∅, 1000, 64⟩, {}, 0, false⟩ ⟨0, 3⟩ {1, 2} final = .ok () final := by
  have inputs : ∀ input ∈ halfWired.keys, halfWired.origin? input = some .phiInput →
      (halfWired.predecessors input).length = 1 := by decide
  have single (input : VersionKey) (isInput : halfWired.origin? input = some .phiInput) :
      ∃ source, halfWired.predecessors input = [source] :=
    List.length_eq_one_iff.1 (inputs input (mem_keys_of_origin built_halfWired (isInput ▸ nofun)) isInput)
  have last : RunState.halfWired.last 0 = 4 := by decide
  have numbered : ∀ key ∈ halfWired.keys, key.version ≤ 4 := by decide
  have sourcesNumbered : ∀ version ∈ ({1, 2} : VersionSet).toList, version ≤ 4 := by
    decide
  have lacking : halfWired.missing ⟨0, 3⟩ {1, 2} = [2] := by decide
  rcases @mergeInto_rewires ⟨⟨∅, 1000, 64⟩, {}, 0, false⟩ ⟨0, 3⟩ {1, 2} halfWired .halfWired
      built_halfWired rfl single (by decide) (by decide)
      (fun version known => last.symm ▸ numbered _ (mem_keys_of_origin built_halfWired known))
      (by decide)
      (fun version member => last.symm ▸ sourcesNumbered _ (VersionSet.mem_toList.2 member)) with
    ⟨final, after, run, stored, rewired, grows, again⟩
  refine ⟨final, after, run, stored, last ▸ rewired, ?_, again⟩
  rw [grows, last, lacking]
  rfl

end RunM

namespace VersionGraph

/-- Two definitions of a variable. -/
def defined : VersionGraph :=
  ((({} : VersionGraph).ensure ⟨0, 1⟩ .definition).1.ensure ⟨0, 2⟩ .definition).1

private theorem built_defined : defined.Built :=
  (Built.empty.ensure ⟨0, 1⟩ .definition none).ensure ⟨0, 2⟩ .definition none

end VersionGraph

/-- The state of that graph. -/
def RunState.defined : RunState where
  tables :=
    { lastVersions := (∅ : ExtTreeMap Slot Version).insert 0 2
      graph := some VersionGraph.defined }

namespace RunM

/-- Two definitions are merged into a version that is not numbered and has no node. The input of the
first one gets its number, so that the definition itself becomes a predecessor. -/
theorem input_takes_key :
    ¬ ∀ (site : Site) (key : VersionKey) (sources : VersionSet) (graph : VersionGraph)
        (state : RunState), graph.Built → state.tables.graph = some graph →
      (∀ input, graph.origin? input = some .phiInput →
        ∃ source, graph.predecessors input = [source]) →
      (∀ target ∈ graph.keys, (graph.contributors target).Nodup) →
      graph.origin? key ≠ some .phiInput →
      (∀ version ∈ sources, graph.origin? ⟨key.slot, version⟩ ≠ some .phiInput) →
      (∀ slot version, graph.origin? ⟨slot, version⟩ ≠ none → version ≤ state.last slot) →
      (∀ version ∈ sources, version ≤ state.last key.slot) →
      (∀ target phantom, state.tables.phantom? target = some phantom →
        phantom.version ≤ state.last phantom.slot) →
      ∃ final after, mergeInto site key sources state = .ok () final ∧
        final.tables.graph = some after ∧
        Rewired key sources ((state.tables.phantom? key).map VersionKey.version)
          (state.last key.slot) graph after := by
  intro claim
  have known : ∀ key ∈ defined.keys, key.slot = 0 ∧ key.version ≤ 2 ∧
      defined.origin? key = some .definition ∧ (defined.contributors key).Nodup := by
    decide
  have defines {key : VersionKey} (there : defined.origin? key ≠ none) :=
    known key (mem_keys_of_origin built_defined there)
  have noInput {key : VersionKey} : defined.origin? key ≠ some .phiInput := fun isInput =>
    nomatch (defines (isInput ▸ nofun)).2.2.1.symm.trans isInput
  have last : RunState.defined.last 0 = 2 := by decide
  have numbered (slot : Slot) (version : Version) (there : defined.origin? ⟨slot, version⟩ ≠ none) :
      version ≤ RunState.defined.last slot := by
    rcases defines there with ⟨rfl, bounded, -⟩
    exact last.symm ▸ bounded
  have sourcesNumbered : ∀ version ∈ ({1, 2} : VersionSet).toList, version ≤ 2 := by
    decide
  have merged : (match mergeInto ⟨.usage, {}, 0, false⟩ ⟨0, 3⟩ {1, 2} .defined with
      | .ok _ final => final.tables.graph.map fun after =>
          (after.predecessors ⟨0, 3⟩, after.origin? ⟨0, 1⟩)
      | .error _ _ => none) = some ([⟨0, 1⟩, ⟨0, 3⟩, ⟨0, 4⟩], some .definition) := by
    decide
  rcases claim ⟨.usage, {}, 0, false⟩ ⟨0, 3⟩ {1, 2} .defined .defined built_defined rfl
      (fun input isInput => absurd isInput noInput) (fun target member => (known target member).2.2.2)
      noInput (fun version member => noInput) numbered
      (fun version member => last.symm ▸ sourcesNumbered _ (VersionSet.mem_toList.2 member))
      (fun target phantom found => nomatch found) with
    ⟨final, after, run, stored, rewired⟩
  rw [run] at merged
  dsimp only at merged
  rw [stored] at merged
  rcases Prod.mk.inj (Option.some.inj merged) with ⟨predecessors, created⟩
  have isInput := (rewired.inputs ⟨0, 1⟩ (predecessors ▸ List.mem_cons_self)).1
  exact nomatch created.symm.trans isInput

end RunM

end SlotVersioning
