import SlotVersioning.Proofs.Graph.Gathering
import SlotVersioning.Proofs.Graph.Outline

/-!
# Rewiring

The two edits by which versions are merged, by keys and exactly, for any graph whose nodes are
found by their keys. Pruning leaves the inputs that carry wanted versions (`Consistent.pared`). A
new input comes last among the predecessors of the merged version (`Consistent.extended`), and so
do several in a row (`Gained.cons`).
-/

namespace SlotVersioning

open Std

namespace VersionGraph

variable {graph next : VersionGraph} {key source input : VersionKey} {target : Nat}
  {wanted : Version → Bool}

/-! ## Edges and origins -/

/-- The version that an input carries; any other node carries none. -/
def inputVersion? (graph : VersionGraph) (input : VersionKey) : Option Version :=
  if graph.origin? input = some .phiInput then
    (graph.predecessors input).head?.map VersionKey.version
  else none

/-- It is an input, and what it carries is wanted. -/
def keeps (graph : VersionGraph) (wanted : Version → Bool) (input : VersionKey) : Bool :=
  (graph.inputVersion? input).any wanted

private theorem origin?_eq (graph : VersionGraph) (key : VersionKey) :
    graph.origin? key =
      (graph.position? key).bind fun position => (graph.identity? position).map Prod.snd := by
  unfold origin? node? identity?
  cases graph.position? key with
  | none => rfl
  | some position =>
      rw [Option.bind_eq_bind, Option.bind_some, Option.bind_some, Option.map_map]
      rfl

namespace Consistent

variable (consistent : graph.Consistent)

include consistent

theorem exists_identity_of_position (known : graph.position? key = some target) :
    ∃ origin, graph.identity? target = some (key, origin) ∧ graph.origin? key = some origin := by
  rcases consistent.placed key target known with ⟨origin, found⟩
  exact ⟨origin, found, consistent.origin?_of_has ⟨target, found⟩⟩

theorem position?_eq_none (unknown : graph.origin? key = none) : graph.position? key = none := by
  cases known : graph.position? key with
  | none => rfl
  | some position =>
      rcases consistent.exists_identity_of_position known with ⟨origin, -, created⟩
      exact nomatch unknown.symm.trans created

/-- What merges into a version, by the keys of its predecessors. -/
theorem contributors_eq (key : VersionKey) : graph.contributors key =
    ((graph.predecessors key).filter fun input => graph.origin? input == some .phiInput).filterMap
      fun input => (graph.predecessors input).head? := by
  cases known : graph.position? key with
  | none =>
      unfold contributors predecessors node?
      rw [known]
      rfl
  | some position =>
      rcases consistent.placed key position known with ⟨origin, found⟩
      rw [(consistent.listed_at found).1, (consistent.listed_at found).2.2]
      have there : ∀ place ∈ graph.predecessorsAt position,
          ∃ identity, graph.identity? place = some identity :=
        fun _ => consistent.known_predecessor
      generalize graph.predecessorsAt position = positions at there ⊢
      induction positions with
      | nil => rfl
      | cons head tail induction =>
          rw [List.forall_mem_cons] at there
          rcases there.1 with ⟨⟨input, kind⟩, atHead⟩
          have same : graph.isPhiInputAt head = (graph.origin? input == some .phiInput) := by
            rw [Bool.eq_iff_iff, beq_iff_eq, consistent.isPhiInputAt_iff atHead]
          rw [keysAt_cons atHead, List.filter_cons, List.filter_cons, same]
          split
          · rw [List.filterMap_cons, List.filterMap_cons, consistent.carriedAt_eq_head atHead,
              induction there.2]
          · exact induction there.2

end Consistent

/-! ## Pruning -/

/-- What pruning does with one predecessor. -/
def pruneStep (target : Nat) (wanted : Version → Bool) :
    VersionGraph × VersionSet → Nat → VersionGraph × VersionSet
  | (graph, wired), predecessor =>
      match (graph.inputSource? predecessor).filter wanted with
      | some source => (graph, insert source wired)
      | none => (graph.unlink predecessor target, wired)

private theorem pruneInputs_eq (graph : VersionGraph) (target : Nat) (wanted : Version → Bool) :
    graph.pruneInputs target wanted =
      (graph.predecessorsAt target).foldl (pruneStep target wanted) (graph, ∅) := rfl

/-- The position is that of an input, and what it carries is wanted. -/
def keepsAt (graph : VersionGraph) (wanted : Version → Bool) (position : Nat) : Bool :=
  (graph.inputSource? position).any wanted

private theorem inputSource?_unlink (plain : graph.isPhiInputAt target = false)
    (place position : Nat) :
    (graph.unlink place target).inputSource? position = graph.inputSource? position := by
  refine inputSource?_congr (fun _ => identity?_unlink _ _ _ _) (fun other different => ?_) plain _
  rw [predecessorsAt_unlink, if_neg different.symm]

/-- What is left when some of the predecessors of a node were looked through. -/
structure Sifted (target : Nat) (wanted : Version → Bool) (places : List Nat)
    (before after : VersionGraph × VersionSet) : Prop where
  consistent : before.1.Consistent → after.1.Consistent
  identity : ∀ position, after.1.identity? position = before.1.identity? position
  position : ∀ other, after.1.position? other = before.1.position? other
  source : ∀ position, after.1.inputSource? position = before.1.inputSource? position
  into : after.1.predecessorsAt target = (before.1.predecessorsAt target).filter fun place =>
    before.1.keepsAt wanted place || !places.contains place
  others : ∀ position, position ≠ target →
    after.1.predecessorsAt position = before.1.predecessorsAt position
  wired : ∀ version, version ∈ after.2 ↔ version ∈ before.2 ∨
    wanted version = true ∧ ∃ place ∈ places, before.1.inputSource? place = some version

namespace Sifted

variable {before middle after : VersionGraph × VersionSet} {places more : List Nat}

theorem refl (target : Nat) (wanted : Version → Bool) (before : VersionGraph × VersionSet) :
    Sifted target wanted [] before before := by
  refine ⟨fun consistent => consistent, fun _ => rfl, fun _ => rfl, fun _ => rfl, ?_,
    fun _ _ => rfl, fun version => ?_⟩
  · rw [List.filter_eq_self.2 fun place _ => ?_]
    rw [List.contains_nil, Bool.not_false, Bool.or_true]
  · simp

theorem trans (first : Sifted target wanted places before middle)
    (second : Sifted target wanted more middle after) :
    Sifted target wanted (places ++ more) before after where
  consistent := fun consistent => second.consistent (first.consistent consistent)
  identity := fun position => (second.identity position).trans (first.identity position)
  position := fun other => (second.position other).trans (first.position other)
  source := fun position => (second.source position).trans (first.source position)
  into := by
    rw [second.into, first.into, List.filter_filter]
    refine List.filter_congr fun place _ => ?_
    unfold keepsAt
    rw [first.source, List.contains_eq_any_beq, List.contains_eq_any_beq, List.contains_eq_any_beq,
      List.any_append, Bool.not_or]
    cases (before.1.inputSource? place).any wanted <;> simp [Bool.and_comm]
  others := fun position different =>
    (second.others position different).trans (first.others position different)
  wired := fun version => by
    rw [second.wired, first.wired]
    simp only [first.source, List.mem_append, or_and_right, exists_or, and_or_left, or_assoc]

/-- One predecessor is kept and its version is wired, or it is dropped. -/
theorem step (wanted : Version → Bool) (plain : graph.isPhiInputAt target = false)
    (wired : VersionSet) (place : Nat) :
    Sifted target wanted [place] (graph, wired) (pruneStep target wanted (graph, wired) place) := by
  unfold pruneStep
  dsimp only
  cases carries : (graph.inputSource? place).filter wanted with
  | some version =>
      rcases Option.filter_eq_some_iff.1 carries with ⟨carried, isWanted⟩
      refine ⟨fun consistent => consistent, fun _ => rfl, fun _ => rfl, fun _ => rfl, ?_,
        fun _ _ => rfl, fun other => ?_⟩
      · refine (List.filter_eq_self.2 fun other _ => ?_).symm
        by_cases same : other = place
        · rw [same, keepsAt, carried, Option.any_some, isWanted, Bool.true_or]
        · simp [same]
      · simp only [List.mem_singleton, exists_eq_left, carried, Option.some.injEq,
          VersionSet.mem_insert]
        constructor
        · rintro (rfl | old)
          · exact .inr ⟨isWanted, rfl⟩
          · exact .inl old
        · rintro (old | ⟨-, rfl⟩)
          · exact .inr old
          · exact .inl rfl
  | none =>
      have unwanted (version : Version) (carried : graph.inputSource? place = some version) :
          ¬ wanted version = true :=
        Option.filter_eq_none_iff.1 carries version carried
      have dropped : graph.keepsAt wanted place = false :=
        (Option.any_eq_false _ _).2 fun version carried =>
          Bool.eq_false_iff.2 (unwanted version carried)
      refine ⟨fun consistent => consistent.unlink place target, identity?_unlink graph place target,
        position?_unlink graph place target, inputSource?_unlink plain place, ?_,
        fun position different => ?_, fun version => ?_⟩
      · dsimp only
        rw [predecessorsAt_unlink, if_pos rfl]
        refine List.filter_congr fun other _ => ?_
        by_cases same : other = place
        · simp [same, dropped]
        · simp [same]
      · exact (predecessorsAt_unlink ..).trans (if_neg different.symm)
      · simp only [List.mem_singleton, exists_eq_left]
        exact (or_iff_left fun both => unwanted version both.2 both.1).symm

end Sifted

private theorem sifted_foldl (wanted : Version → Bool) (plain : graph.isPhiInputAt target = false)
    (places : List Nat)
    (wired : VersionSet) :
    Sifted target wanted places (graph, wired)
      (places.foldl (pruneStep target wanted) (graph, wired)) := by
  induction places generalizing graph wired with
  | nil => exact .refl _ _ _
  | cons place places induction =>
      have first := Sifted.step wanted plain wired place
      have still :
          (pruneStep target wanted (graph, wired) place).1.isPhiInputAt target = false :=
        (isPhiInputAt_congr (first.identity target)).trans plain
      exact first.trans (induction still _)

/-- What pruning the inputs of a version does, by keys. -/
structure Pared (key : VersionKey) (wanted : Version → Bool) (before after : VersionGraph)
    (wired : VersionSet) : Prop where
  consistent : after.Consistent
  position : ∀ other, after.position? other = before.position? other
  origin : ∀ other, after.origin? other = before.origin? other
  into : after.predecessors key = (before.predecessors key).filter (before.keeps wanted)
  others : ∀ other, other ≠ key → after.predecessors other = before.predecessors other
  wired : ∀ version, version ∈ wired ↔ wanted version = true ∧
    ∃ input ∈ before.predecessors key, before.inputVersion? input = some version

theorem Consistent.pared (consistent : graph.Consistent)
    (known : graph.position? key = some target) (plain : graph.origin? key ≠ some .phiInput)
    (wanted : Version → Bool) :
    Pared key wanted graph (graph.pruneInputs target wanted).1
      (graph.pruneInputs target wanted).2 := by
  rcases consistent.exists_identity_of_position known with ⟨origin, found, created⟩
  have notInput : graph.isPhiInputAt target = false := by
    rw [Bool.eq_false_iff, Ne, consistent.isPhiInputAt_iff found]
    exact plain
  have sifted := sifted_foldl wanted notInput (graph.predecessorsAt target) ∅
  rw [← pruneInputs_eq] at sifted
  generalize graph.pruneInputs target wanted = pruned at sifted ⊢
  have after := sifted.consistent consistent
  have keys := keysAt_of_identity sifted.identity
  have carries (place : Nat) (input : VersionKey) (kind : VersionOrigin)
      (there : graph.identity? place = some (input, kind)) :
      graph.inputSource? place = graph.inputVersion? input := consistent.inputSource?_eq there
  refine ⟨after, sifted.position, fun other => ?_, ?_, fun other different => ?_, fun version => ?_⟩
  · rw [origin?_eq, origin?_eq, sifted.position, funext sifted.identity]
  · rw [(after.listed_at ((sifted.identity target).trans found)).1, keys, sifted.into,
      (consistent.listed_at found).1]
    refine keysAt_filter_of (fun _ => consistent.known_predecessor)
      fun place edge input kind there => ?_
    unfold keepsAt keeps
    rw [carries place input kind there, List.contains_iff_mem.2 edge, Bool.not_true, Bool.or_false]
  · cases there : graph.position? other with
    | none =>
        have absent := (sifted.position other).trans there
        exact (congrArg Outline.predecessors (outline_absent absent)).trans
          (congrArg Outline.predecessors (outline_absent there)).symm
    | some place =>
        rcases consistent.placed other place there with ⟨kind, atPlace⟩
        have apart : place ≠ target := fun same =>
          different ((consistent.key_eq_iff atPlace found).2 same)
        rw [(after.listed_at ((sifted.identity place).trans atPlace)).1, keys,
          sifted.others place apart, (consistent.listed_at atPlace).1]
  · rw [sifted.wired, (consistent.listed_at found).1]
    simp only [mem_keysAt]
    constructor
    · rintro (nothing | ⟨isWanted, place, edge, carried⟩)
      · exact absurd nothing (VersionSet.not_mem_empty version)
      · rcases consistent.known_predecessor edge with ⟨⟨input, kind⟩, there⟩
        exact ⟨isWanted, input, ⟨place, edge, by rw [there]; rfl⟩,
          (carries place input kind there).symm.trans carried⟩
    · rintro ⟨isWanted, input, ⟨place, edge, named⟩, carried⟩
      rcases Option.map_eq_some_iff.1 named with ⟨⟨_, kind⟩, there, rfl⟩
      exact .inr ⟨isWanted, place, edge, (carries place _ kind there).trans carried⟩

/-! ## Nodes and edges -/

/-- The key has a node, and all edges are the same. -/
structure KeyEnsured (key : VersionKey) (origin : VersionOrigin) (place : Nat)
    (before after : VersionGraph) : Prop where
  consistent : after.Consistent
  placed : after.position? key = some place
  position : ∀ other position, before.position? other = some position →
    after.position? other = some position
  origin : ∀ other, after.origin? other =
    if other = key ∧ before.origin? key = none then some origin else before.origin? other
  predecessors : ∀ other, after.predecessors other = before.predecessors other
  successors : ∀ other, after.successors other = before.successors other

theorem Consistent.keyEnsured (consistent : graph.Consistent) (key : VersionKey)
    (origin : VersionOrigin) (debugName : Option DebugName) :
    KeyEnsured key origin (graph.ensure key origin debugName).2 graph
      (graph.ensure key origin debugName).1 := by
  have outlined := consistent.outline_ensure key origin debugName
  have edges (other : VersionKey) :
      (graph.ensure key origin debugName).1.predecessors other = graph.predecessors other ∧
        (graph.ensure key origin debugName).1.successors other = graph.successors other := by
    have here := outlined other
    split at here
    · next new =>
        rcases new with ⟨rfl, unknown⟩
        have absent := outline_absent (consistent.position?_eq_none unknown)
        exact ⟨(congrArg Outline.predecessors here).trans
            (congrArg Outline.predecessors absent).symm,
          (congrArg Outline.successors here).trans (congrArg Outline.successors absent).symm⟩
    · exact ⟨congrArg Outline.predecessors here, congrArg Outline.successors here⟩
  refine ⟨consistent.ensure key origin debugName, graph.position?_ensure key origin debugName,
    fun other place => position?_ensure_of_known origin debugName, fun other => ?_,
    fun other => (edges other).1, fun other => (edges other).2⟩
  have here := congrArg Outline.origin (outlined other)
  rw [apply_ite Outline.origin] at here
  exact here

/-- The key does not become an input. -/
theorem KeyEnsured.exists_origin {origin : VersionOrigin}
    (ensured : KeyEnsured key origin target graph next) (ordinary : origin ≠ .phiInput)
    (plain : graph.origin? key ≠ some .phiInput) :
    ∃ created, next.origin? key = some created ∧ created ≠ .phiInput := by
  rcases ensured.consistent.exists_identity_of_position ensured.placed with ⟨created, -, named⟩
  refine ⟨created, named, ?_⟩
  rintro rfl
  rw [ensured.origin] at named
  split at named
  · exact ordinary (Option.some.inj named)
  · exact plain named

/-- A new edge comes last at both of its ends. -/
structure KeyLinked (source target : VersionKey) (before after : VersionGraph) : Prop where
  consistent : after.Consistent
  position : ∀ other, after.position? other = before.position? other
  origin : ∀ other, after.origin? other = before.origin? other
  predecessors : ∀ other, after.predecessors other =
    if other = target then before.predecessors other ++ [source] else before.predecessors other
  successors : ∀ other, after.successors other =
    if other = source then before.successors other ++ [target] else before.successors other

private theorem Consistent.keyLinked {place way : Nat} {target : VersionKey}
    (consistent : graph.Consistent) (atPlace : graph.position? source = some place)
    (atWay : graph.position? target = some way) (absent : target ∉ graph.successors source) :
    KeyLinked source target graph (graph.link place way) := by
  rcases consistent.placed source place atPlace with ⟨created, foundPlace⟩
  rcases consistent.placed target way atWay with ⟨origin, foundWay⟩
  have outlined (other : VersionKey) := consistent.outline_link foundPlace foundWay other
  simp only [if_neg absent] at outlined
  exact ⟨consistent.link foundPlace foundWay, position?_link graph place way,
    fun other => congrArg Outline.origin (outlined other),
    fun other => congrArg Outline.predecessors (outlined other),
    fun other => congrArg Outline.successors (outlined other)⟩

/-- A key without a node has no edges, and nothing leads to it. -/
private theorem Consistent.edges_fresh (consistent : graph.Consistent)
    (fresh : graph.origin? key = none) :
    graph.predecessors key = [] ∧ graph.successors key = [] ∧
      ∀ other, key ∉ graph.successors other := by
  have absent := consistent.position?_eq_none fresh
  have outlined := outline_absent absent
  refine ⟨congrArg Outline.predecessors outlined, congrArg Outline.successors outlined,
    fun other edge => ?_⟩
  unfold successors at edge
  rcases mem_keysAt.1 edge with ⟨place, -, named⟩
  rcases Option.map_eq_some_iff.1 named with ⟨⟨_, origin⟩, found, rfl⟩
  exact nomatch absent.symm.trans (consistent.indexed place _ origin found)

/-! ## New inputs -/

/-- What a new input does, by keys. -/
structure Extended (key source input : VersionKey) (before after : VersionGraph) : Prop where
  consistent : after.Consistent
  position : ∀ other place, before.position? other = some place →
    after.position? other = some place
  known : ∀ other, after.origin? other ≠ none →
    before.origin? other ≠ none ∨ other = source ∨ other = input
  origin : ∀ other kind, before.origin? other = some kind → after.origin? other = some kind
  isInput : after.origin? input = some .phiInput
  carries : after.predecessors input = [source]
  into : after.predecessors key = before.predecessors key ++ [input]
  others : ∀ other, other ≠ key → other ≠ input →
    after.predecessors other = before.predecessors other

theorem Consistent.extended (consistent : graph.Consistent)
    (known : graph.position? key = some target) (fresh : graph.origin? input = none)
    (apart : source ≠ input) :
    Extended key source input graph (graph.addInput source input target) := by
  have notKey : input ≠ key := by
    rintro rfl
    exact nomatch (consistent.position?_eq_none fresh).symm.trans known
  rcases consistent.edges_fresh fresh with ⟨alone, dead, unreached⟩
  unfold addInput
  have begun := consistent.keyEnsured source .definition none
  generalize graph.ensure source .definition = ensured at begun ⊢
  rcases ensured with ⟨base, place⟩
  have stillFresh : base.origin? input = none := by
    rw [begun.origin, if_neg fun same => apart same.1.symm]
    exact fresh
  have grown := begun.consistent.keyEnsured input .phiInput none
  dsimp only at begun grown ⊢
  generalize base.ensure input .phiInput = added at grown ⊢
  rcases added with ⟨wider, way⟩
  dsimp only at grown ⊢
  have first := grown.consistent.keyLinked (grown.position source place begun.placed) grown.placed
    (by rw [grown.successors, begun.successors]; exact unreached source)
  have atTarget := grown.position key target (begun.position key target known)
  have second := first.consistent.keyLinked ((first.position input).trans grown.placed)
    ((first.position key).trans atTarget) (by
      rw [first.successors, if_neg apart.symm, grown.successors, begun.successors, dead]
      exact List.not_mem_nil)
  have origins (other : VersionKey) : ((wider.link place way).link way target).origin? other =
      if other = input then some .phiInput
      else if other = source ∧ graph.origin? source = none then some .definition
      else graph.origin? other := by
    rw [second.origin, first.origin, grown.origin, stillFresh, begun.origin]
    simp only [and_true]
  have edges (other : VersionKey) :
      ((wider.link place way).link way target).predecessors other =
        if other = key then graph.predecessors key ++ [input]
        else if other = input then [source] else graph.predecessors other := by
    rw [second.predecessors, first.predecessors, grown.predecessors, begun.predecessors]
    split
    · next same => rw [same, if_neg notKey.symm]
    · split
      · next same => rw [same, alone, List.nil_append]
      · rfl
  refine ⟨second.consistent, fun other position there => ?_, fun other isKnown => ?_,
    fun other kind created => ?_, ?_, ?_, ?_, fun other notTarget notInput => ?_⟩
  · rw [second.position, first.position]
    exact grown.position other position (begun.position other position there)
  · rw [origins] at isKnown
    split at isKnown
    · next same => exact .inr (.inr same)
    · split at isKnown
      · next same => exact .inr (.inl same.1)
      · exact .inl isKnown
  · rw [origins, if_neg, if_neg]
    · exact created
    · rintro ⟨rfl, unknown⟩
      exact nomatch unknown.symm.trans created
    · rintro rfl
      exact nomatch fresh.symm.trans created
  · rw [origins, if_pos rfl]
  · rw [edges, if_neg notKey, if_pos rfl]
  · rw [edges, if_pos rfl]
  · rw [edges, if_neg notTarget, if_neg notInput]

/-- What several new inputs in a row do. Each pair is what an input carries, and its version. -/
structure Gained (key : VersionKey) (pairs : List (Version × Version))
    (before after : VersionGraph) : Prop where
  consistent : after.Consistent
  origin : ∀ other kind, before.origin? other = some kind → after.origin? other = some kind
  isInput : ∀ pair ∈ pairs, after.origin? ⟨key.slot, pair.2⟩ = some .phiInput ∧
    after.predecessors ⟨key.slot, pair.2⟩ = [⟨key.slot, pair.1⟩]
  into : after.predecessors key =
    before.predecessors key ++ pairs.map fun pair => ⟨key.slot, pair.2⟩
  others : ∀ other, other ≠ key → (∀ pair ∈ pairs, other ≠ ⟨key.slot, pair.2⟩) →
    after.predecessors other = before.predecessors other

namespace Gained

variable {before middle after : VersionGraph} {pairs : List (Version × Version)}
  {carried version : Version}

theorem nil (consistent : graph.Consistent) (key : VersionKey) : Gained key [] graph graph :=
  ⟨consistent, fun _ _ created => created, fun _ member => (nomatch member),
    (List.append_nil _).symm, fun _ _ _ => rfl⟩

/-- A new input, and then others with other versions. -/
theorem cons (first : Extended key ⟨key.slot, carried⟩ ⟨key.slot, version⟩ before middle)
    (rest : Gained key pairs middle after) (notKey : version ≠ key.version)
    (different : ∀ pair ∈ pairs, version ≠ pair.2) :
    Gained key ((carried, version) :: pairs) before after where
  consistent := rest.consistent
  origin := fun other kind created => rest.origin other kind (first.origin other kind created)
  isInput := by
    refine List.forall_mem_cons.2 ⟨⟨rest.origin _ _ first.isInput, ?_⟩, rest.isInput⟩
    rw [rest.others, first.carries]
    · exact fun same => notKey (congrArg VersionKey.version same)
    · exact fun pair member same => different pair member (congrArg VersionKey.version same)
  into := by
    rw [rest.into, first.into, List.append_assoc]
    rfl
  others := by
    intro other notTarget apart
    rw [List.forall_mem_cons] at apart
    rw [rest.others other notTarget apart.2, first.others other notTarget apart.1]

end Gained

end VersionGraph

end SlotVersioning
