import Mathlib.Data.List.Forall2
import SlotVersioning.Proofs.Graph.Outline

/-!
# Graphs that agree on a slot

Two version graphs agree on a slot when they have the same nodes and edges between its versions,
wherever these nodes are placed. The same edit of versions of the slot keeps graphs in agreement, and
an edit of other versions changes nothing that could be compared.
-/

namespace SlotVersioning

namespace VersionGraph

/-- Sound graphs with the same outlines for the versions of a slot. -/
structure AgreesAt (slot : Slot) (left right : VersionGraph) : Prop where
  leftSound : left.Sound
  rightSound : right.Sound
  outline : ∀ key : VersionKey, key.slot = slot → left.outline key = right.outline key

namespace AgreesAt

variable {slot : Slot} {left middle right : VersionGraph} {key source target : VersionKey}
  {place otherPlace way otherWay : Nat}

theorem refl (slot : Slot) (sound : left.Sound) : left.AgreesAt slot left :=
  ⟨sound, sound, fun _ _ => rfl⟩

theorem symm (agrees : left.AgreesAt slot right) : right.AgreesAt slot left :=
  ⟨agrees.rightSound, agrees.leftSound, fun key same => (agrees.outline key same).symm⟩

theorem trans (first : left.AgreesAt slot middle) (second : middle.AgreesAt slot right) :
    left.AgreesAt slot right :=
  ⟨first.leftSound, second.rightSound, fun key same =>
    (first.outline key same).trans (second.outline key same)⟩

theorem of_similar (sound : left.Sound) (similar : Similar left right) :
    left.AgreesAt slot right :=
  ⟨sound, similar.sound sound, fun key _ => (similar.outline sound.consistent key).symm⟩

section

variable (agrees : left.AgreesAt slot right) (here : key.slot = slot)

include agrees here

theorem origin : left.origin? key = right.origin? key :=
  congrArg Outline.origin (agrees.outline key here)

theorem predecessors : left.predecessors key = right.predecessors key :=
  congrArg Outline.predecessors (agrees.outline key here)

theorem successors : left.successors key = right.successors key :=
  congrArg Outline.successors (agrees.outline key here)

end

/-! ## Nodes and edges -/

theorem ensure (agrees : left.AgreesAt slot right) (key : VersionKey) (origin : VersionOrigin)
    (here : key.slot = slot) (debugName otherName : Option DebugName) :
    (left.ensure key origin debugName).1.AgreesAt slot (right.ensure key origin otherName).1 := by
  refine ⟨agrees.leftSound.ensure .., agrees.rightSound.ensure .., fun other same => ?_⟩
  rw [agrees.leftSound.consistent.outline_ensure, agrees.rightSound.consistent.outline_ensure,
    agrees.origin here, agrees.outline other same]

theorem ensure_elsewhere (sound : left.Sound) (key : VersionKey) (origin : VersionOrigin)
    (debugName : Option DebugName) (elsewhere : key.slot ≠ slot) :
    left.AgreesAt slot (left.ensure key origin debugName).1 := by
  refine ⟨sound, sound.ensure .., fun other same => ?_⟩
  rw [sound.consistent.outline_ensure, if_neg]
  rintro ⟨rfl, -⟩
  exact elsewhere same

theorem link (agrees : left.AgreesAt slot right) (source target : VersionKey)
    (here : source.slot = slot) (level : source.slot = target.slot)
    (atPlace : left.position? source = some place) (atWay : left.position? target = some way)
    (atOtherPlace : right.position? source = some otherPlace)
    (atOtherWay : right.position? target = some otherWay) :
    (left.link place way).AgreesAt slot (right.link otherPlace otherWay) := by
  rcases agrees.leftSound.placed _ _ atPlace with ⟨_, foundPlace⟩
  rcases agrees.leftSound.placed _ _ atWay with ⟨_, foundWay⟩
  rcases agrees.rightSound.placed _ _ atOtherPlace with ⟨_, foundOtherPlace⟩
  rcases agrees.rightSound.placed _ _ atOtherWay with ⟨_, foundOtherWay⟩
  refine ⟨agrees.leftSound.link foundPlace foundWay level,
    agrees.rightSound.link foundOtherPlace foundOtherWay level, fun other same => ?_⟩
  rw [agrees.leftSound.consistent.outline_link foundPlace foundWay,
    agrees.rightSound.consistent.outline_link foundOtherPlace foundOtherWay, agrees.successors here,
    agrees.origin same, agrees.predecessors same, agrees.successors same,
    agrees.outline other same]

theorem link_elsewhere (sound : left.Sound) (source target : VersionKey)
    (elsewhere : source.slot ≠ slot) (level : source.slot = target.slot)
    (atPlace : left.position? source = some place) (atWay : left.position? target = some way) :
    left.AgreesAt slot (left.link place way) := by
  rcases sound.placed _ _ atPlace with ⟨_, foundPlace⟩
  rcases sound.placed _ _ atWay with ⟨_, foundWay⟩
  refine ⟨sound, sound.link foundPlace foundWay level, fun other same => ?_⟩
  have notSource : other ≠ source := by
    rintro rfl
    exact elsewhere same
  have notTarget : other ≠ target := by
    rintro rfl
    exact elsewhere (level.trans same)
  rw [sound.consistent.outline_link foundPlace foundWay, if_neg notSource, if_neg notTarget]
  exact (ite_self _).symm

private theorem unlink (agrees : left.AgreesAt slot right)
    (atPlace : left.position? source = some place) (atWay : left.position? target = some way)
    (atOtherPlace : right.position? source = some otherPlace)
    (atOtherWay : right.position? target = some otherWay) :
    (left.unlink place way).AgreesAt slot (right.unlink otherPlace otherWay) := by
  rcases agrees.leftSound.placed _ _ atPlace with ⟨_, foundPlace⟩
  rcases agrees.leftSound.placed _ _ atWay with ⟨_, foundWay⟩
  rcases agrees.rightSound.placed _ _ atOtherPlace with ⟨_, foundOtherPlace⟩
  rcases agrees.rightSound.placed _ _ atOtherWay with ⟨_, foundOtherWay⟩
  refine ⟨agrees.leftSound.unlink .., agrees.rightSound.unlink .., fun other same => ?_⟩
  rw [agrees.leftSound.consistent.outline_unlink foundPlace foundWay,
    agrees.rightSound.consistent.outline_unlink foundOtherPlace foundOtherWay, agrees.origin same,
    agrees.predecessors same, agrees.successors same]

private theorem unlink_elsewhere (sound : left.Sound) (elsewhere : source.slot ≠ slot)
    (level : source.slot = target.slot) (atPlace : left.position? source = some place)
    (atWay : left.position? target = some way) : left.AgreesAt slot (left.unlink place way) := by
  rcases sound.placed _ _ atPlace with ⟨_, foundPlace⟩
  rcases sound.placed _ _ atWay with ⟨_, foundWay⟩
  refine ⟨sound, sound.unlink .., fun other same => ?_⟩
  rw [sound.consistent.outline_unlink foundPlace foundWay, if_neg, if_neg]
  · rfl
  · rintro rfl
    exact elsewhere same
  · rintro rfl
    exact elsewhere (level.trans same)

/-! ## Inputs -/

/-- The nodes of one key in two graphs. -/
def Both (left right : VersionGraph) (key : VersionKey) (place otherPlace : Nat) : Prop :=
  left.position? key = some place ∧ right.position? key = some otherPlace

private theorem both_of_keysAt (leftSound : left.Sound) (rightSound : right.Sound)
    {positions others : List Nat}
    (known : ∀ position ∈ positions, ∃ identity, left.identity? position = some identity)
    (otherKnown : ∀ position ∈ others, ∃ identity, right.identity? position = some identity)
    (same : left.keysAt positions = right.keysAt others)
    (level : ∀ source ∈ left.keysAt positions, source.slot = slot) :
    List.Forall₂ (fun place otherPlace => ∃ source : VersionKey, source.slot = slot ∧
      Both left right source place otherPlace) positions others := by
  induction positions generalizing others with
  | nil =>
      cases others with
      | nil => exact .nil
      | cons other rest =>
          rcases otherKnown other List.mem_cons_self with ⟨⟨source, _⟩, found⟩
          rw [keysAt_cons found] at same
          exact nomatch same
  | cons place positions induction =>
      rcases known place List.mem_cons_self with ⟨⟨source, _⟩, found⟩
      rw [keysAt_cons found] at same level
      cases others with
      | nil => exact nomatch same
      | cons other rest =>
          rcases otherKnown other List.mem_cons_self with ⟨⟨otherSource, _⟩, otherFound⟩
          rw [keysAt_cons otherFound] at same
          injection same with sameSource sameRest
          subst sameSource
          rw [List.forall_mem_cons] at known otherKnown level
          exact .cons ⟨source, level.1, leftSound.indexed _ _ _ found,
            rightSound.indexed _ _ _ otherFound⟩
            (induction known.2 otherKnown.2 sameRest level.2)

/-- The predecessors of a version have the same keys. -/
private theorem both_predecessors (agrees : left.AgreesAt slot right) (here : key.slot = slot)
    (both : Both left right key way otherWay) :
    List.Forall₂ (fun place otherPlace => ∃ source : VersionKey, source.slot = slot ∧
      Both left right source place otherPlace)
      (left.predecessorsAt way) (right.predecessorsAt otherWay) := by
  rcases agrees.leftSound.placed _ _ both.1 with ⟨_, found⟩
  rcases agrees.rightSound.placed _ _ both.2 with ⟨_, otherFound⟩
  have same := agrees.predecessors here
  have listed := (agrees.leftSound.listed_at found).1
  rw [listed, (agrees.rightSound.listed_at otherFound).1] at same
  refine both_of_keysAt agrees.leftSound agrees.rightSound
    (fun _ => agrees.leftSound.consistent.known_predecessor)
    (fun _ => agrees.rightSound.consistent.known_predecessor) same fun source member => ?_
  rw [← listed] at member
  exact (agrees.leftSound.slot_of_listed (.inl member)).trans here

section

variable (agrees : left.AgreesAt slot right) (here : key.slot = slot)
  (both : Both left right key way otherWay)

include agrees here both

private theorem inputSource : left.inputSource? way = right.inputSource? otherWay := by
  rcases agrees.leftSound.placed _ _ both.1 with ⟨_, found⟩
  rcases agrees.rightSound.placed _ _ both.2 with ⟨_, otherFound⟩
  rw [agrees.leftSound.consistent.inputSource?_eq found,
    agrees.rightSound.consistent.inputSource?_eq otherFound, agrees.origin here, agrees.predecessors here]

/-- The same inputs are pruned. -/
theorem prune (wanted : Version → Bool) :
    (left.pruneInputs way wanted).1.AgreesAt slot (right.pruneInputs otherWay wanted).1 ∧
      (left.pruneInputs way wanted).2 = (right.pruneInputs otherWay wanted).2 ∧
      Both (left.pruneInputs way wanted).1 (right.pruneInputs otherWay wanted).1 key way
        otherWay := by
  have predecessors := agrees.both_predecessors here both
  unfold pruneInputs
  generalize left.predecessorsAt way = positions at predecessors ⊢
  generalize right.predecessorsAt otherWay = others at predecessors ⊢
  generalize (∅ : VersionSet) = wired
  induction positions generalizing others left right wired with
  | nil =>
      cases predecessors
      exact ⟨agrees, rfl, both⟩
  | cons place positions induction =>
      cases predecessors with
      | @cons _ otherPlace _ others first rest =>
          rcases first with ⟨source, level, atSource⟩
          rw [List.foldl_cons, List.foldl_cons]
          dsimp only
          rw [agrees.inputSource level atSource]
          cases (right.inputSource? otherPlace).filter wanted with
          | some version => exact induction agrees both others rest _
          | none =>
              have unlinked := agrees.unlink atSource.1 both.1 atSource.2 both.2
              exact induction unlinked both others rest _

/-- The same versions flow in. -/
theorem sourcesAt : left.sourcesAt way = right.sourcesAt otherWay := by
  rcases agrees.leftSound.placed _ _ both.1 with ⟨_, found⟩
  rcases agrees.rightSound.placed _ _ both.2 with ⟨_, otherFound⟩
  have flows (source : VersionKey) :
      left.FlowsTo source way ↔ right.FlowsTo source otherWay := by
    rw [agrees.leftSound.consistent.flowsTo_iff_outline found,
      agrees.rightSound.consistent.flowsTo_iff_outline otherFound, agrees.predecessors here]
    refine exists_congr fun other => and_congr_right fun member => ?_
    have level : other.slot = slot :=
      (agrees.rightSound.slot_of_listed (.inl member)).trans here
    rw [agrees.origin level, agrees.predecessors level]
  refine VersionSet.ext fun version => ?_
  simp only [mem_sourcesAt, flows]

end

theorem prune_elsewhere (sound : left.Sound) (elsewhere : key.slot ≠ slot)
    (atWay : left.position? key = some way) (wanted : Version → Bool) :
    left.AgreesAt slot (left.pruneInputs way wanted).1 ∧
      (left.pruneInputs way wanted).1.position? key = some way := by
  have predecessors (place : Nat) (edge : place ∈ left.predecessorsAt way) :
      ∃ source : VersionKey, source.slot = key.slot ∧ left.position? source = some place := by
    rcases sound.placed _ _ atWay with ⟨_, found⟩
    rcases sound.level place way edge with ⟨identity, _, there, here, level⟩
    rw [found] at here
    cases here
    exact ⟨identity.1, level, sound.indexed _ _ _ there⟩
  unfold pruneInputs
  generalize left.predecessorsAt way = positions at predecessors ⊢
  generalize (∅ : VersionSet) = wired
  induction positions generalizing left wired with
  | nil => exact ⟨.refl slot sound, atWay⟩
  | cons place positions induction =>
      rw [List.forall_mem_cons] at predecessors
      rcases predecessors with ⟨⟨source, level, atPlace⟩, rest⟩
      rw [List.foldl_cons]
      dsimp only
      cases (left.inputSource? place).filter wanted with
      | some version => exact induction sound atWay rest _
      | none =>
          have unlinked : left.AgreesAt slot (left.unlink place way) :=
            unlink_elsewhere sound (level ▸ elsewhere) level atPlace atWay
          have pruned := induction unlinked.rightSound atWay rest wired
          exact ⟨unlinked.trans pruned.1, pruned.2⟩

end AgreesAt

/-- The graph with nodes for both keys and an edge between them. -/
def chained (graph : VersionGraph) (source target : VersionKey) (origin : VersionOrigin) :
    VersionGraph :=
  let (graph, place) := graph.ensure source .definition
  let (graph, way) := graph.ensure target origin
  graph.link place way

theorem position?_chained {graph : VersionGraph} {key : VersionKey} {position : Nat}
    (source target : VersionKey) (origin : VersionOrigin)
    (known : graph.position? key = some position) :
    (graph.chained source target origin).position? key = some position :=
  (position?_link ..).trans
    (position?_ensure_of_known _ _ (position?_ensure_of_known _ _ known))

theorem position?_chained_target (graph : VersionGraph) (source target : VersionKey)
    (origin : VersionOrigin) : (graph.chained source target origin).position? target =
      some ((graph.ensure source .definition).1.ensure target origin).2 :=
  (position?_link ..).trans (position?_ensure ..)

namespace AgreesAt

variable {slot : Slot} {left right : VersionGraph} {key : VersionKey} {way otherWay : Nat}

theorem chained (agrees : left.AgreesAt slot right) (source target : VersionKey)
    (here : source.slot = slot) (level : source.slot = target.slot) (origin : VersionOrigin) :
    (left.chained source target origin).AgreesAt slot (right.chained source target origin) := by
  have begun := agrees.ensure source .definition here none none
  have ended := begun.ensure target origin (level.symm.trans here) none none
  have placed (graph : VersionGraph) : ((graph.ensure source .definition).1.ensure target
      origin).1.position? source = some (graph.ensure source .definition).2 :=
    position?_ensure_of_known _ _ (position?_ensure ..)
  exact ended.link source target here level (placed left) (position?_ensure ..) (placed right)
    (position?_ensure ..)

theorem chained_elsewhere (sound : left.Sound) (source target : VersionKey)
    (elsewhere : source.slot ≠ slot) (level : source.slot = target.slot) (origin : VersionOrigin) :
    left.AgreesAt slot (left.chained source target origin) := by
  have begun := ensure_elsewhere sound source .definition none elsewhere
  have ended := ensure_elsewhere begun.rightSound target origin none (level ▸ elsewhere)
  exact (begun.trans ended).trans (link_elsewhere ended.rightSound source target elsewhere level
    (position?_ensure_of_known _ _ (position?_ensure ..)) (position?_ensure ..))

/-- The same input is added. -/
theorem addInput (agrees : left.AgreesAt slot right) (here : key.slot = slot)
    (both : Both left right key way otherWay) (source input : Version) :
    (left.addInput ⟨key.slot, source⟩ ⟨key.slot, input⟩ way).AgreesAt slot
        (right.addInput ⟨key.slot, source⟩ ⟨key.slot, input⟩ otherWay) ∧
      Both (left.addInput ⟨key.slot, source⟩ ⟨key.slot, input⟩ way)
        (right.addInput ⟨key.slot, source⟩ ⟨key.slot, input⟩ otherWay) key way otherWay := by
  have chains := agrees.chained ⟨key.slot, source⟩ ⟨key.slot, input⟩ here rfl .phiInput
  have placed (graph : VersionGraph) {position : Nat} (known : graph.position? key = some position) :=
    position?_chained ⟨key.slot, source⟩ ⟨key.slot, input⟩ .phiInput known
  have added (graph : VersionGraph) :=
    graph.position?_chained_target ⟨key.slot, source⟩ ⟨key.slot, input⟩ .phiInput
  exact ⟨chains.link ⟨key.slot, input⟩ key here rfl (added left) (placed left both.1) (added right)
      (placed right both.2),
    (position?_link ..).trans (placed left both.1), (position?_link ..).trans (placed right both.2)⟩

theorem addInput_elsewhere (sound : left.Sound) (elsewhere : key.slot ≠ slot)
    (atWay : left.position? key = some way) (source input : Version) :
    left.AgreesAt slot (left.addInput ⟨key.slot, source⟩ ⟨key.slot, input⟩ way) ∧
      (left.addInput ⟨key.slot, source⟩ ⟨key.slot, input⟩ way).position? key = some way := by
  have chains := chained_elsewhere sound ⟨key.slot, source⟩ ⟨key.slot, input⟩ elsewhere rfl .phiInput
  have placed := position?_chained ⟨key.slot, source⟩ ⟨key.slot, input⟩ .phiInput atWay
  have added := left.position?_chained_target ⟨key.slot, source⟩ ⟨key.slot, input⟩ .phiInput
  exact ⟨chains.trans (link_elsewhere chains.rightSound ⟨key.slot, input⟩ key elsewhere rfl added
    placed), (position?_link ..).trans placed⟩

end AgreesAt

end VersionGraph

end SlotVersioning
