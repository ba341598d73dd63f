import Mathlib.Data.List.Nodup
import SlotVersioning.Proofs.Graph.Rewiring

/-!
# Rewired versions

When a version is merged anew, its contributors afterwards are those of before that are wanted, with
their inputs, and one of its own for every version that was missing (`contributors_gained`). That is
all that changes (`rewired_of_gained`).
-/

namespace SlotVersioning

namespace VersionGraph

variable {graph base pruned after : VersionGraph} {key input : VersionKey} {target : Nat}
  {wanted : Version → Bool} {version : Version}

/-! ## Contributors -/

/-- What flows into the version through an input. -/
def contribution? (graph : VersionGraph) (input : VersionKey) : Option VersionKey :=
  if graph.origin? input = some .phiInput then (graph.predecessors input).head? else none

theorem inputVersion?_eq (graph : VersionGraph) (input : VersionKey) :
    graph.inputVersion? input = (graph.contribution? input).map VersionKey.version := by
  unfold inputVersion? contribution?
  split <;> rfl

theorem isInput_of_keeps (kept : graph.keeps wanted input = true) :
    graph.origin? input = some .phiInput := by
  by_contra other
  unfold keeps inputVersion? at kept
  rw [if_neg other] at kept
  exact nomatch kept

theorem contribution?_of_input (isInput : graph.origin? input = some .phiInput)
    {source : VersionKey} (only : graph.predecessors input = [source]) :
    graph.contribution? input = some source := by
  unfold contribution?
  rw [isInput, if_pos rfl, only]
  rfl

theorem Consistent.contributors_eq_filterMap (consistent : graph.Consistent) (key : VersionKey) :
    graph.contributors key = (graph.predecessors key).filterMap graph.contribution? := by
  rw [consistent.contributors_eq, List.filterMap_filter]
  unfold contribution?
  simp only [beq_iff_eq]

/-- The versions that contribute are those that inputs carry. -/
theorem Consistent.contributes_iff (consistent : graph.Consistent) :
    (∃ source ∈ graph.contributors key, source.version = version) ↔
      ∃ input ∈ graph.predecessors key, graph.inputVersion? input = some version := by
  rw [consistent.contributors_eq_filterMap]
  simp only [List.mem_filterMap, inputVersion?_eq, Option.map_eq_some_iff]
  constructor
  · rintro ⟨source, ⟨input, member, brings⟩, same⟩
    exact ⟨input, member, source, brings, same⟩
  · rintro ⟨input, member, source, brings, same⟩
    exact ⟨source, ⟨input, member, brings⟩, same⟩

/-- The sources that do not contribute yet. -/
def missing (graph : VersionGraph) (key : VersionKey) (sources : VersionSet) : List Version :=
  sources.toList.filter fun source => !(graph.contributors key).any (·.version == source)

theorem mem_missing {sources : VersionSet} :
    version ∈ graph.missing key sources ↔
      version ∈ sources ∧ ¬ ∃ source ∈ graph.contributors key, source.version = version := by
  unfold missing
  simp

private theorem nodup_missing (graph : VersionGraph) (key : VersionKey) (sources : VersionSet) :
    (graph.missing key sources).Nodup :=
  ((VersionSet.toList_ascending sources).imp Nat.ne_of_lt).filter _

/-! ## What is rewired -/

/-- The missing versions, each beside the version of the input that is minted for it. -/
def mintedFor (graph : VersionGraph) (key : VersionKey) (sources : VersionSet) (last : Version) :
    List (Version × Version) :=
  (graph.missing key sources).zipIdx (last + 1)

private theorem map_fst_mintedFor (graph : VersionGraph) (key : VersionKey) (sources : VersionSet)
    (last : Version) :
    (graph.mintedFor key sources last).map Prod.fst = graph.missing key sources :=
  List.zipIdx_map_fst _ _

private theorem lt_of_mem_mintedFor {sources : VersionSet} {last : Version}
    {pair : Version × Version} (member : pair ∈ graph.mintedFor key sources last) : last < pair.2 :=
  List.le_snd_of_mem_zipIdx member

/-- The contributors of a version are kept in step with some sources, and with its phantom if that
contributes already. -/
structure Rewired (key : VersionKey) (sources : VersionSet) (phantom : Option Version)
    (last : Version) (before after : VersionGraph) : Prop where
  /-- All predecessors are inputs, with one predecessor of their own. -/
  inputs : ∀ input ∈ after.predecessors key,
    after.origin? input = some .phiInput ∧ ∃ source, after.predecessors input = [source]
  distinct : (after.contributors key).Nodup
  /-- Contributors of other slots may share a version, but only if they did. -/
  apart : ((before.contributors key).map VersionKey.version).Nodup →
    ((after.contributors key).map VersionKey.version).Nodup
  exact : ∀ version, (∃ source ∈ after.contributors key, source.version = version) ↔
    version ∈ sources ∨
      phantom = some version ∧ ∃ source ∈ before.contributors key, source.version = version
  /-- A contributor that stays keeps its input. -/
  kept : ∀ input ∈ before.predecessors key, before.origin? input = some .phiInput →
    ∀ source ∈ after.contributors key, before.predecessors input = [source] →
      input ∈ after.predecessors key ∧ after.predecessors input = [source]
  /-- A missing contributor gets a new input. -/
  minted : ∀ pair ∈ before.mintedFor key sources last,
    before.origin? ⟨key.slot, pair.2⟩ = none ∧
      ⟨key.slot, pair.2⟩ ∈ after.predecessors key ∧
      after.predecessors ⟨key.slot, pair.2⟩ = [⟨key.slot, pair.1⟩]
  /-- No edges change but those into the version and into its new inputs. -/
  others : ∀ other, other ≠ key →
    (∀ pair ∈ before.mintedFor key sources last, other ≠ ⟨key.slot, pair.2⟩) →
      after.predecessors other = before.predecessors other
  onward : ∀ source other, other ≠ key →
    (∀ pair ∈ before.mintedFor key sources last, other ≠ ⟨key.slot, pair.2⟩) →
      (other ∈ after.successors source ↔ other ∈ before.successors source)

/-! ## Contributors after an edit -/

private theorem contribution?_congr (origin : after.origin? input = graph.origin? input)
    (predecessors : after.predecessors input = graph.predecessors input) :
    after.contribution? input = graph.contribution? input := by
  unfold contribution?
  rw [origin, predecessors]

/-- A node of its own does not change what flows in. -/
theorem KeyEnsured.contribution? {kind : VersionOrigin}
    (ensured : KeyEnsured key kind target graph base) (plain : kind ≠ .phiInput)
    (input : VersionKey) : base.contribution? input = graph.contribution? input := by
  unfold VersionGraph.contribution?
  rw [ensured.origin, ensured.predecessors]
  split
  · next new =>
      rw [new.1, new.2, if_neg fun same => plain (Option.some.inj same), if_neg nofun]
  · rfl

private theorem KeyEnsured.keeps {kind : VersionOrigin}
    (ensured : KeyEnsured key kind target graph base) (plain : kind ≠ .phiInput)
    (wanted : Version → Bool) : base.keeps wanted = graph.keeps wanted := by
  funext input
  unfold VersionGraph.keeps
  rw [inputVersion?_eq, inputVersion?_eq, ensured.contribution? plain]

private theorem filterMap_filter_any {α β γ : Type} {get : α → Option β} {name : β → γ}
    {wanted : γ → Bool} (list : List α) :
    (list.filter fun entry => ((get entry).map name).any wanted).filterMap get =
      (list.filterMap get).filter fun value => wanted (name value) := by
  rw [List.filterMap_filter, List.filter_filterMap]
  congr 1
  funext entry
  cases get entry with
  | none => simp
  | some value => simp [Option.filter]

/-- Which contributors are wanted. -/
def wants (sources : VersionSet) (phantom : Option Version) (version : Version) : Bool :=
  sources.contains version || phantom == some version

theorem wants_iff {sources : VersionSet} {phantom : Option Version} :
    wants sources phantom version = true ↔ version ∈ sources ∨ phantom = some version := by
  unfold wants
  rw [Bool.or_eq_true, beq_iff_eq]
  rfl

section

variable {wired sources : VersionSet} {phantom : Option Version} {last : Version}
  (consistent : graph.Consistent) (plain : graph.origin? key ≠ some .phiInput)
  (numbered : ∀ version, graph.origin? ⟨key.slot, version⟩ ≠ none → version ≤ last)
  (ensured : KeyEnsured key .use target graph base)
  (pared : Pared key (wants sources phantom) base pruned wired)
  (gained : Gained key (graph.mintedFor key sources last) pruned after)

include numbered in
/-- The versions that are minted are new. -/
theorem fresh_mintedFor {pair : Version × Version}
    (member : pair ∈ graph.mintedFor key sources last) :
    graph.origin? ⟨key.slot, pair.2⟩ = none := by
  by_contra known
  exact absurd (numbered pair.2 known) (Nat.not_le.2 (lt_of_mem_mintedFor member))

include ensured pared gained

/-- The inputs that are wanted stay in their order, and the new ones follow. -/
theorem predecessors_gained : after.predecessors key =
    (graph.predecessors key).filter (graph.keeps (wants sources phantom)) ++
      (graph.mintedFor key sources last).map fun pair => ⟨key.slot, pair.2⟩ := by
  rw [gained.into, pared.into, ensured.predecessors, ensured.keeps nofun]

theorem others_gained {other : VersionKey} (notKey : other ≠ key)
    (notMinted : ∀ pair ∈ graph.mintedFor key sources last, other ≠ ⟨key.slot, pair.2⟩) :
    after.predecessors other = graph.predecessors other := by
  rw [gained.others other notKey notMinted, pared.others other notKey, ensured.predecessors]

include plain numbered

/-- The inputs of before are what they were. -/
theorem input_gained (isInput : graph.origin? input = some .phiInput) :
    after.origin? input = some .phiInput ∧ after.predecessors input = graph.predecessors input := by
  have notKey : input ≠ key := by
    rintro rfl
    exact plain isInput
  have baseInput : base.origin? input = some .phiInput := by
    rw [ensured.origin, if_neg fun new => notKey new.1]
    exact isInput
  refine ⟨gained.origin input _ ((pared.origin input).trans baseInput), ?_⟩
  refine others_gained ensured pared gained notKey ?_
  rintro pair member rfl
  exact nomatch isInput.symm.trans (fresh_mintedFor numbered member)

include consistent

/-- The contributors of before that are wanted, and one more for every missing version. -/
theorem contributors_gained : after.contributors key =
    ((graph.contributors key).filter fun source => wants sources phantom source.version) ++
      (graph.missing key sources).map fun version => ⟨key.slot, version⟩ := by
  have old : ((graph.predecessors key).filter (graph.keeps (wants sources phantom))).filterMap
      after.contribution? = (graph.contributors key).filter
        fun source => wants sources phantom source.version := by
    rw [consistent.contributors_eq_filterMap, ← filterMap_filter_any]
    simp only [← inputVersion?_eq]
    refine List.filterMap_congr fun input member => ?_
    have isInput := isInput_of_keeps (List.mem_filter.1 member).2
    have stays := input_gained plain numbered ensured pared gained isInput
    exact contribution?_congr (stays.1.trans isInput.symm) stays.2
  have new : ((graph.mintedFor key sources last).map fun pair =>
      (⟨key.slot, pair.2⟩ : VersionKey)).filterMap after.contribution? =
        (graph.missing key sources).map fun version => ⟨key.slot, version⟩ := by
    rw [← map_fst_mintedFor graph key sources last, List.map_map, List.filterMap_map,
      ← List.filterMap_eq_map]
    refine List.filterMap_congr fun pair member => ?_
    rcases gained.isInput pair member with ⟨isInput, carries⟩
    exact contribution?_of_input isInput carries
  rw [gained.consistent.contributors_eq_filterMap, predecessors_gained ensured pared gained,
    List.filterMap_append, old, new]

/-- The sources contribute, and the phantom does if it did. -/
private theorem contributes_gained (version : Version) :
    (∃ source ∈ after.contributors key, source.version = version) ↔
      version ∈ sources ∨ phantom = some version ∧
        ∃ source ∈ graph.contributors key, source.version = version := by
  rw [contributors_gained consistent plain numbered ensured pared gained]
  simp only [List.mem_append, List.mem_filter, List.mem_map, wants_iff, mem_missing]
  constructor
  · rintro ⟨source, ⟨before, isSource | isPhantom⟩ | ⟨_, new, rfl⟩, rfl⟩
    · exact .inl isSource
    · exact .inr ⟨isPhantom, source, before, rfl⟩
    · exact .inl new.1
  · intro wanted
    by_cases before : ∃ source ∈ graph.contributors key, source.version = version
    · rcases before with ⟨source, before, rfl⟩
      exact ⟨source, .inl ⟨before, wanted.imp_right And.left⟩, rfl⟩
    · have isSource := wanted.resolve_right fun both => before both.2
      exact ⟨⟨key.slot, version⟩, .inr ⟨version, ⟨isSource, before⟩, rfl⟩, rfl⟩

/-- Contributors with distinct names keep having these, whatever name tells their versions. -/
private theorem nodup_gained {α : Type} (name : VersionKey → α)
    (tells : ∀ source version, name source = name ⟨key.slot, version⟩ → source.version = version)
    (distinct : ((graph.contributors key).map name).Nodup) :
    ((after.contributors key).map name).Nodup := by
  rw [contributors_gained consistent plain numbered ensured pared gained, List.map_append,
    List.map_map]
  refine List.Nodup.append (distinct.sublist (List.filter_sublist.map name)) ?_ ?_
  · exact (graph.nodup_missing key sources).map fun _ _ same => tells _ _ same
  · rintro _ before new
    rcases List.mem_map.1 before with ⟨source, member, rfl⟩
    rcases List.mem_map.1 new with ⟨version, isMissing, same⟩
    exact (mem_missing.1 isMissing).2
      ⟨source, (List.mem_filter.1 member).1, tells source version same.symm⟩

/-- The version is rewired when its inputs were pruned and the missing ones added. -/
theorem rewired_of_gained
    (single : ∀ input, graph.origin? input = some .phiInput →
      ∃ source, graph.predecessors input = [source])
    (distinct : (graph.contributors key).Nodup) :
    Rewired key sources phantom last graph after := by
  have into := predecessors_gained ensured pared gained
  have stays {input : VersionKey} (isInput : graph.origin? input = some .phiInput) :=
    input_gained plain numbered ensured pared gained isInput
  have contributes := contributes_gained consistent plain numbered ensured pared gained
  have nodup {α : Type} (name : VersionKey → α) :=
    nodup_gained consistent plain numbered ensured pared gained name
  refine ⟨fun input member => ?_, ?_, nodup VersionKey.version fun _ _ same => same, contributes,
    fun input edge isInput source remains only => ?_, fun pair member => ?_,
    fun _ => others_gained ensured pared gained, fun source other notKey notMinted => ?_⟩
  · rw [into, List.mem_append] at member
    rcases member with old | new
    · have isInput := isInput_of_keeps (List.mem_filter.1 old).2
      rcases single input isInput with ⟨source, only⟩
      exact ⟨(stays isInput).1, source, (stays isInput).2.trans only⟩
    · rcases List.mem_map.1 new with ⟨pair, minted, rfl⟩
      exact ⟨(gained.isInput pair minted).1, _, (gained.isInput pair minted).2⟩
  · have keys := nodup id fun _ _ same => congrArg VersionKey.version same
    rw [List.map_id, List.map_id] at keys
    exact keys distinct
  · refine ⟨?_, (stays isInput).2.trans only⟩
    rw [into]
    refine List.mem_append_left _ (List.mem_filter.2 ⟨edge, ?_⟩)
    unfold keeps
    rw [inputVersion?_eq, contribution?_of_input isInput only, Option.map_some, Option.any_some,
      wants_iff]
    exact ((contributes source.version).1 ⟨source, remains, rfl⟩).imp_right And.left
  · refine ⟨fresh_mintedFor numbered member, ?_, (gained.isInput pair member).2⟩
    rw [into]
    exact List.mem_append_right _ (List.mem_map.2 ⟨pair, member, rfl⟩)
  · rw [gained.consistent.mem_successors_comm, consistent.mem_successors_comm,
      others_gained ensured pared gained notKey notMinted]

end

/-- The sources that pruning left without an input are those that did not contribute before. -/
theorem KeyEnsured.missing_eq {kind : VersionOrigin} {wired sources : VersionSet}
    {phantom : Option Version} (ensured : KeyEnsured key kind target graph base)
    (consistent : graph.Consistent) (plain : kind ≠ .phiInput)
    (pared : Pared key (wants sources phantom) base pruned wired) :
    (sources.toList.filter fun source => !wired.contains source) = graph.missing key sources := by
  unfold missing
  refine List.filter_congr fun version member => congrArg not ?_
  rw [Bool.eq_iff_iff, List.any_eq_true]
  simp only [beq_iff_eq]
  refine (pared.wired version).trans ?_
  rw [consistent.contributes_iff, ensured.predecessors]
  simp only [inputVersion?_eq, ensured.contribution? plain]
  exact and_iff_right (wants_iff.2 (.inl (VersionSet.mem_toList.1 member)))

/-! ## Nothing left to do -/

section

variable {sources : VersionSet} {phantom : Option Version}

/-- Nothing is pruned where every predecessor carries a wanted version. -/
theorem Consistent.pruneInputs_same (consistent : graph.Consistent)
    (known : graph.position? key = some target)
    (each : ∀ input ∈ graph.predecessors key, ∃ version,
      graph.inputVersion? input = some version ∧ wanted version = true) :
    (graph.pruneInputs target wanted).1 = graph := by
  rcases consistent.placed key target known with ⟨origin, found⟩
  refine (spared_pruneInputs fun place edge => ?_).same
  rcases consistent.known_predecessor edge with ⟨⟨input, kind⟩, there⟩
  have listed : input ∈ graph.predecessors key := by
    rw [(consistent.listed_at found).1, mem_keysAt]
    exact ⟨place, edge, by rw [there]; rfl⟩
  rcases each input listed with ⟨version, carried, isWanted⟩
  refine ⟨version, Option.filter_eq_some_iff.2 ⟨?_, isWanted⟩⟩
  exact (consistent.inputSource?_eq there).trans carried

/-- A version that was rewired has inputs that carry what is wanted, one for every source. -/
theorem Rewired.settled {last : Version} (rewired : Rewired key sources phantom last graph after)
    (consistent : after.Consistent) :
    (∀ input ∈ after.predecessors key, ∃ version,
      after.inputVersion? input = some version ∧ wants sources phantom version = true) ∧
    (∀ version ∈ sources, ∃ input ∈ after.predecessors key,
      after.inputVersion? input = some version) := by
  constructor
  · intro input member
    rcases rewired.inputs input member with ⟨isInput, source, only⟩
    have carried : after.inputVersion? input = some source.version := by
      unfold inputVersion?
      rw [isInput, if_pos rfl, only]
      rfl
    refine ⟨source.version, carried, wants_iff.2 ?_⟩
    exact ((rewired.exact source.version).1
      (consistent.contributes_iff.2 ⟨input, member, carried⟩)).imp_right And.left
  · intro version member
    exact consistent.contributes_iff.1 ((rewired.exact version).2 (.inl member))

end

end VersionGraph

end SlotVersioning
