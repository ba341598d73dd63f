import SlotVersioning.VersionGraph.Merge
import SlotVersioning.VersionGraph.Dominance

/-!
# Edges of the version graph

A version graph is consistent when its index finds every node at its position and every edge is
stored at both of its ends, and sound when edges stay within a slot besides. The edits of the graph
keep it so; each is described by what it does to the predecessors of the nodes.
-/

namespace SlotVersioning

open Std

namespace VersionGraph

/-- What the node at a position is: its key, and how it came into being. -/
def identity? (graph : VersionGraph) (position : Nat) : Option (VersionKey × VersionOrigin) :=
  (graph.nodes[position]?).map fun node => (node.key, node.origin)

/-- Nodes are found by their keys, and edges from both of their ends. -/
structure Consistent (graph : VersionGraph) : Prop where
  placed : ∀ key position, graph.position? key = some position →
    ∃ origin, graph.identity? position = some (key, origin)
  indexed : ∀ position key origin, graph.identity? position = some (key, origin) →
    graph.position? key = some position
  linked : ∀ source target,
    target ∈ graph.successorsAt source ↔ source ∈ graph.predecessorsAt target

structure Sound (graph : VersionGraph) : Prop where
  placed : ∀ key position, graph.position? key = some position →
    ∃ origin, graph.identity? position = some (key, origin)
  indexed : ∀ position key origin, graph.identity? position = some (key, origin) →
    graph.position? key = some position
  linked : ∀ source target,
    target ∈ graph.successorsAt source ↔ source ∈ graph.predecessorsAt target
  level : ∀ source target, source ∈ graph.predecessorsAt target →
    ∃ left right, graph.identity? source = some left ∧ graph.identity? target = some right ∧
      left.1.slot = right.1.slot

theorem consistent_empty : ({} : VersionGraph).Consistent where
  placed := fun _ _ found => nomatch ExtTreeMap.getElem?_empty.symm.trans found
  indexed := fun _ _ _ found => nomatch found
  linked := fun _ _ => ⟨fun member => (nomatch member), fun member => (nomatch member)⟩

theorem Sound.consistent {graph : VersionGraph} (sound : graph.Sound) : graph.Consistent :=
  ⟨sound.placed, sound.indexed, sound.linked⟩

theorem Consistent.sound {graph : VersionGraph} (consistent : graph.Consistent)
    (level : ∀ source target, source ∈ graph.predecessorsAt target →
      ∃ left right, graph.identity? source = some left ∧ graph.identity? target = some right ∧
        left.1.slot = right.1.slot) : graph.Sound :=
  ⟨consistent.placed, consistent.indexed, consistent.linked, level⟩

theorem sound_empty : ({} : VersionGraph).Sound :=
  consistent_empty.sound fun _ _ member => (nomatch member)

/-- Nodes are where they were, and have the edges that they had. -/
structure Similar (before after : VersionGraph) : Prop where
  identity : ∀ position, after.identity? position = before.identity? position
  position : ∀ key, after.position? key = before.position? key
  predecessors : ∀ position, after.predecessorsAt position = before.predecessorsAt position
  successors : ∀ position, after.successorsAt position = before.successorsAt position

theorem Similar.refl (graph : VersionGraph) : Similar graph graph :=
  ⟨fun _ => rfl, fun _ => rfl, fun _ => rfl, fun _ => rfl⟩

theorem Similar.symm {left right : VersionGraph} (similar : Similar left right) :
    Similar right left where
  identity := fun position => (similar.identity position).symm
  position := fun key => (similar.position key).symm
  predecessors := fun position => (similar.predecessors position).symm
  successors := fun position => (similar.successors position).symm

theorem Similar.trans {left middle right : VersionGraph} (first : Similar left middle)
    (second : Similar middle right) : Similar left right where
  identity := fun position => (second.identity position).trans (first.identity position)
  position := fun key => (second.position key).trans (first.position key)
  predecessors := fun position =>
    (second.predecessors position).trans (first.predecessors position)
  successors := fun position => (second.successors position).trans (first.successors position)

theorem Similar.consistent {before after : VersionGraph} (similar : Similar before after)
    (consistent : before.Consistent) : after.Consistent where
  placed := by
    intro key position found
    rw [similar.position] at found
    rw [similar.identity]
    exact consistent.placed key position found
  indexed := by
    intro position key origin found
    rw [similar.identity] at found
    rw [similar.position]
    exact consistent.indexed position key origin found
  linked := by
    intro source target
    rw [similar.successors, similar.predecessors]
    exact consistent.linked source target

theorem Similar.sound {before after : VersionGraph} (similar : Similar before after)
    (sound : before.Sound) : after.Sound := by
  refine (similar.consistent sound.consistent).sound fun source target member => ?_
  rw [similar.predecessors] at member
  rw [similar.identity, similar.identity]
  exact sound.level source target member

/-! ## Editing a node -/

variable {graph : VersionGraph}

theorem getElem?_editAt (graph : VersionGraph) (edited position : Nat)
    (edit : VersionNode → VersionNode) :
    (graph.editAt edited edit).nodes[position]? =
      if edited = position then (graph.nodes[position]?).map edit else graph.nodes[position]? :=
  Array.getElem?_modify

/-- An edit that changes neither key nor origin keeps every identity. -/
theorem identity?_editAt (edited position : Nat) {edit : VersionNode → VersionNode}
    (kept : ∀ node, ((edit node).key, (edit node).origin) = (node.key, node.origin)) :
    (graph.editAt edited edit).identity? position = graph.identity? position := by
  unfold identity?
  rw [getElem?_editAt]
  split
  · cases graph.nodes[position]? with
    | none => rfl
    | some node => exact congrArg some (kept node)
  · rfl

theorem predecessorsAt_editAt (edited position : Nat) {edit : VersionNode → VersionNode}
    (kept : ∀ node, (edit node).predecessors = node.predecessors) :
    (graph.editAt edited edit).predecessorsAt position = graph.predecessorsAt position := by
  unfold predecessorsAt
  rw [getElem?_editAt]
  split
  · cases graph.nodes[position]? with
    | none => rfl
    | some node => exact kept node
  · rfl

theorem successorsAt_editAt (edited position : Nat) {edit : VersionNode → VersionNode}
    (kept : ∀ node, (edit node).successors = node.successors) :
    (graph.editAt edited edit).successorsAt position = graph.successorsAt position := by
  unfold successorsAt
  rw [getElem?_editAt]
  split
  · cases graph.nodes[position]? with
    | none => rfl
    | some node => exact kept node
  · rfl

theorem similar_withLive (graph : VersionGraph) (key : VersionKey) (facts : Facts) :
    Similar graph (graph.withLive key facts) := by
  unfold withLive
  split
  · exact ⟨fun _ => identity?_editAt _ _ fun _ => rfl, fun _ => rfl,
      fun _ => predecessorsAt_editAt _ _ fun _ => rfl,
      fun _ => successorsAt_editAt _ _ fun _ => rfl⟩
  · exact .refl graph

theorem similar_computeDominators (graph : VersionGraph) :
    Similar graph graph.computeDominators :=
  ⟨fun _ => rfl, fun _ => rfl, fun _ => rfl, fun _ => rfl⟩

/-! ## Ensuring a node -/

theorem ensure_known {key : VersionKey} {position : Nat} (origin : VersionOrigin)
    (debugName : Option DebugName) (known : graph.position? key = some position) :
    (graph.ensure key origin debugName).2 = position ∧
      Similar graph (graph.ensure key origin debugName).1 := by
  unfold ensure
  rw [known]
  exact ⟨rfl, fun _ => identity?_editAt _ _ fun _ => rfl, fun _ => rfl,
    fun _ => predecessorsAt_editAt _ _ fun _ => rfl,
    fun _ => successorsAt_editAt _ _ fun _ => rfl⟩

private theorem size_ensure_known {key : VersionKey} {position : Nat} (origin : VersionOrigin)
    (debugName : Option DebugName) (known : graph.position? key = some position) :
    (graph.ensure key origin debugName).1.size = graph.size := by
  unfold ensure
  rw [known]
  exact Array.size_modify

theorem identity?_size (graph : VersionGraph) : graph.identity? graph.size = none := by
  unfold identity? size
  rw [Array.getElem?_size]
  rfl

theorem predecessorsAt_size (graph : VersionGraph) : graph.predecessorsAt graph.size = [] := by
  unfold predecessorsAt size
  rw [Array.getElem?_size]
  rfl

theorem successorsAt_size (graph : VersionGraph) : graph.successorsAt graph.size = [] := by
  unfold successorsAt size
  rw [Array.getElem?_size]
  rfl

/-- What a node that was added is, and that the edges are the same. -/
structure Added (before after : VersionGraph) (key : VersionKey) (origin : VersionOrigin) :
    Prop where
  identity : ∀ position, after.identity? position =
    if position = before.size then some (key, origin) else before.identity? position
  position : ∀ other, after.position? other =
    if key = other then some before.size else before.position? other
  predecessors : ∀ position, after.predecessorsAt position = before.predecessorsAt position
  successors : ∀ position, after.successorsAt position = before.successorsAt position

theorem nodes_ensure {key : VersionKey} (origin : VersionOrigin) (debugName : Option DebugName)
    (unknown : graph.position? key = none) (position : Nat) :
    (graph.ensure key origin debugName).1.nodes[position]? =
      if position = graph.size then some { key, origin, debugName }
      else graph.nodes[position]? := by
  unfold ensure
  rw [unknown]
  exact Array.getElem?_push

theorem ensure_unknown {key : VersionKey} (origin : VersionOrigin) (debugName : Option DebugName)
    (unknown : graph.position? key = none) :
    (graph.ensure key origin debugName).2 = graph.size ∧
      Added graph (graph.ensure key origin debugName).1 key origin := by
  have pushed := nodes_ensure origin debugName unknown
  have none : graph.nodes[graph.size]? = none := Array.getElem?_size
  refine ⟨?_, fun position => ?_, fun other => ?_, fun position => ?_, fun position => ?_⟩
  · unfold ensure
    rw [unknown]
  · unfold identity?
    rw [pushed]
    split <;> rfl
  · unfold ensure
    rw [unknown]
    refine ExtTreeMap.getElem?_insert.trans ?_
    simp only [Std.compare_eq_iff_eq]
    rfl
  · unfold predecessorsAt
    rw [pushed]
    split
    · next last =>
        rw [last, none]
        rfl
    · rfl
  · unfold successorsAt
    rw [pushed]
    split
    · next last =>
        rw [last, none]
        rfl
    · rfl

theorem Added.of_similar {before middle after : VersionGraph} {key : VersionKey}
    {origin : VersionOrigin} (added : Added before middle key origin)
    (similar : Similar middle after) : Added before after key origin where
  identity := fun position => (similar.identity position).trans (added.identity position)
  position := fun other => (similar.position other).trans (added.position other)
  predecessors := fun position =>
    (similar.predecessors position).trans (added.predecessors position)
  successors := fun position => (similar.successors position).trans (added.successors position)

theorem Consistent.ne_size (consistent : graph.Consistent) {key : VersionKey} {position : Nat}
    (known : graph.position? key = some position) : position ≠ graph.size := by
  rintro rfl
  rcases consistent.placed key _ known with ⟨origin, found⟩
  exact nomatch (identity?_size graph).symm.trans found

private theorem Added.after_similar {before middle after : VersionGraph} {key : VersionKey}
    {origin : VersionOrigin} (similar : Similar before middle) (sized : middle.size = before.size)
    (added : Added middle after key origin) : Added before after key origin where
  identity := by
    intro position
    rw [added.identity, sized, similar.identity]
  position := by
    intro other
    rw [added.position, sized, similar.position]
  predecessors := fun position =>
    (added.predecessors position).trans (similar.predecessors position)
  successors := fun position => (added.successors position).trans (similar.successors position)

/-- A known key's node, and then a new one. -/
theorem added_ensure {begun grown : VersionGraph} {source key : VersionKey} {origin : VersionOrigin}
    {atSource place way : Nat} (ensured : graph.ensure source .definition = (begun, place))
    (extended : begun.ensure key origin = (grown, way))
    (known : graph.position? source = some atSource) (unknown : graph.position? key = none) :
    place = atSource ∧ way = graph.size ∧ Added graph grown key origin := by
  rcases ensure_known .definition none known with ⟨first, similar⟩
  have sized := size_ensure_known .definition none known
  rw [ensured] at first similar sized
  have stillUnknown := (similar.position key).trans unknown
  rcases ensure_unknown origin none stillUnknown with ⟨second, added⟩
  rw [extended] at second added
  exact ⟨first, second.trans sized, added.after_similar similar sized⟩

/-- A node that was there is what it was. -/
theorem Added.stays {before after : VersionGraph} {key : VersionKey} {origin : VersionOrigin}
    (added : Added before after key origin) {position : Nat}
    {identity : VersionKey × VersionOrigin} (found : before.identity? position = some identity) :
    after.identity? position = some identity := by
  rw [added.identity, if_neg]
  · exact found
  · rintro rfl
    exact nomatch (identity?_size before).symm.trans found

theorem Added.consistent {before after : VersionGraph} {key : VersionKey} {origin : VersionOrigin}
    (added : Added before after key origin) (unknown : before.position? key = none)
    (consistent : before.Consistent) : after.Consistent where
  placed := by
    intro other position found
    rw [added.position] at found
    rw [added.identity]
    split at found
    · next same =>
        cases found
        exact ⟨origin, by rw [if_pos rfl, same]⟩
    · rw [if_neg (consistent.ne_size found)]
      exact consistent.placed other position found
  indexed := by
    intro position other created found
    rw [added.identity] at found
    rw [added.position]
    split at found
    · next last =>
        cases found
        rw [if_pos rfl, last]
    · have known := consistent.indexed position other created found
      rw [if_neg, known]
      rintro rfl
      exact nomatch unknown.symm.trans known
  linked := by
    intro source target
    rw [added.successors, added.predecessors]
    exact consistent.linked source target

theorem Added.sound {before after : VersionGraph} {key : VersionKey} {origin : VersionOrigin}
    (added : Added before after key origin) (unknown : before.position? key = none)
    (sound : before.Sound) : after.Sound := by
  refine (added.consistent unknown sound.consistent).sound fun source target member => ?_
  rw [added.predecessors] at member
  rcases sound.level source target member with ⟨left, right, atSource, atTarget, same⟩
  exact ⟨left, right, added.stays atSource, added.stays atTarget, same⟩

/-! ## Linking nodes -/

theorem exists_node {position : Nat} {identity : VersionKey × VersionOrigin}
    (found : graph.identity? position = some identity) :
    ∃ node, graph.nodes[position]? = some node := by
  rcases Option.map_eq_some_iff.1 found with ⟨node, stored, -⟩
  exact ⟨node, stored⟩

@[simp] theorem identity?_link (graph : VersionGraph) (source target position : Nat) :
    (graph.link source target).identity? position = graph.identity? position := by
  unfold link
  split
  · rfl
  · refine Eq.trans (identity?_editAt _ _ ?_) (identity?_editAt _ _ ?_) <;> exact fun _ => rfl

@[simp] theorem position?_link (graph : VersionGraph) (source target : Nat) (key : VersionKey) :
    (graph.link source target).position? key = graph.position? key := by
  unfold link
  split <;> rfl

/-- The edges after a new one was added between nodes that are there. -/
theorem edges_link {source target : Nat} {left right : VersionKey × VersionOrigin}
    (absent : target ∉ graph.successorsAt source) (atSource : graph.identity? source = some left)
    (atTarget : graph.identity? target = some right) :
    (∀ position, (graph.link source target).predecessorsAt position =
      if target = position then graph.predecessorsAt position ++ [source]
      else graph.predecessorsAt position) ∧
    (∀ position, (graph.link source target).successorsAt position =
      if source = position then graph.successorsAt position ++ [target]
      else graph.successorsAt position) := by
  rcases exists_node atSource with ⟨sourceNode, sourceStored⟩
  rcases exists_node atTarget with ⟨targetNode, targetStored⟩
  unfold link
  rw [if_neg fun present => absent (List.contains_iff_mem.1 present)]
  constructor
  · intro position
    unfold predecessorsAt
    rw [getElem?_editAt, getElem?_editAt]
    by_cases same : target = position
    · subst same
      rw [targetStored, if_pos rfl, if_pos rfl]
      split <;> rfl
    · rw [if_neg same, if_neg same]
      split <;> cases graph.nodes[position]? <;> rfl
  · intro position
    unfold successorsAt
    rw [getElem?_editAt, getElem?_editAt]
    by_cases same : source = position
    · subst same
      rw [sourceStored, if_pos rfl, if_pos rfl]
      split <;> rfl
    · rw [if_neg same, if_neg same]
      split <;> cases graph.nodes[position]? <;> rfl

/-- An edge that is there already is not added again. -/
theorem link_present {source target : Nat} (present : target ∈ graph.successorsAt source) :
    graph.link source target = graph := by
  unfold link
  rw [if_pos (List.contains_iff_mem.2 present)]

theorem Consistent.link {source target : Nat} {left right : VersionKey × VersionOrigin}
    (consistent : graph.Consistent) (atSource : graph.identity? source = some left)
    (atTarget : graph.identity? target = some right) : (graph.link source target).Consistent := by
  by_cases present : target ∈ graph.successorsAt source
  · rw [link_present present]
    exact consistent
  rcases edges_link present atSource atTarget with ⟨predecessors, successors⟩
  refine ⟨fun key position => ?_, fun position key origin => ?_, fun other node => ?_⟩
  · rw [position?_link, identity?_link]
    exact consistent.placed key position
  · rw [position?_link, identity?_link]
    exact consistent.indexed position key origin
  · rw [predecessors, successors]
    have before := consistent.linked other node
    by_cases fromSource : source = other <;> by_cases toTarget : target = node <;>
      simp only [fromSource, toTarget, if_true, if_false, List.mem_append, List.mem_singleton,
        before] <;> simp [eq_comm, fromSource, toTarget]

theorem Sound.link {source target : Nat} {left right : VersionKey × VersionOrigin}
    (sound : graph.Sound) (atSource : graph.identity? source = some left)
    (atTarget : graph.identity? target = some right) (same : left.1.slot = right.1.slot) :
    (graph.link source target).Sound := by
  refine (sound.consistent.link atSource atTarget).sound fun other node member => ?_
  rw [identity?_link, identity?_link]
  by_cases present : target ∈ graph.successorsAt source
  · rw [link_present present] at member
    exact sound.level other node member
  rw [(edges_link present atSource atTarget).1] at member
  split at member
  · next toTarget =>
      rcases List.mem_append.1 member with old | new
      · exact sound.level other node old
      · rcases List.mem_singleton.1 new with rfl
        exact ⟨left, right, atSource, toTarget ▸ atTarget, same⟩
  · exact sound.level other node member

/-! ## Removing edges -/

@[simp] theorem identity?_unlink (graph : VersionGraph) (source target position : Nat) :
    (graph.unlink source target).identity? position = graph.identity? position := by
  unfold unlink
  refine Eq.trans (identity?_editAt _ _ ?_) (identity?_editAt _ _ ?_) <;> exact fun _ => rfl

@[simp] theorem position?_unlink (graph : VersionGraph) (source target : Nat) (key : VersionKey) :
    (graph.unlink source target).position? key = graph.position? key := rfl

@[simp] theorem predecessorsAt_unlink (graph : VersionGraph) (source target position : Nat) :
    (graph.unlink source target).predecessorsAt position =
      if target = position then (graph.predecessorsAt position).filter (· != source)
      else graph.predecessorsAt position := by
  unfold unlink predecessorsAt
  rw [getElem?_editAt, getElem?_editAt]
  split <;> split <;> cases graph.nodes[position]? <;> rfl

@[simp] theorem successorsAt_unlink (graph : VersionGraph) (source target position : Nat) :
    (graph.unlink source target).successorsAt position =
      if source = position then (graph.successorsAt position).filter (· != target)
      else graph.successorsAt position := by
  unfold unlink successorsAt
  rw [getElem?_editAt, getElem?_editAt]
  split <;> split <;> cases graph.nodes[position]? <;> rfl

theorem Consistent.unlink (consistent : graph.Consistent) (source target : Nat) :
    (graph.unlink source target).Consistent := by
  refine ⟨fun key position => ?_, fun position key origin => ?_, fun other node => ?_⟩
  · rw [position?_unlink, identity?_unlink]
    exact consistent.placed key position
  · rw [position?_unlink, identity?_unlink]
    exact consistent.indexed position key origin
  · rw [predecessorsAt_unlink, successorsAt_unlink]
    have before := consistent.linked other node
    by_cases fromSource : source = other <;> by_cases toTarget : target = node <;>
      simp only [fromSource, toTarget, if_true, if_false, List.mem_filter, bne_iff_ne, ne_eq,
        before] <;> simp [eq_comm, fromSource, toTarget]

theorem Sound.unlink (sound : graph.Sound) (source target : Nat) :
    (graph.unlink source target).Sound := by
  refine (sound.consistent.unlink source target).sound fun other node member => ?_
  rw [identity?_unlink, identity?_unlink]
  rw [predecessorsAt_unlink] at member
  apply sound.level other node
  split at member
  · exact (List.mem_filter.1 member).1
  · exact member

end VersionGraph

end SlotVersioning
