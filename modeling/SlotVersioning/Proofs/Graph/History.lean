import SlotVersioning.Proofs.Graph.Built
import SlotVersioning.Proofs.Graph.Rewiring

/-!
# Histories of version graphs

The edits that led to a version graph determine what it tells, taken as they come and without a look
at how the graph stores them: the keys in the order of their creation, the origin that each was
created with, the first debug name that was given for it, and the edges that were added and not
removed since. The graph follows its history (`Follows`), and every further edit keeps it so
(`Follows.edit`). Hence what it answers is what the history says (`recounts_of_edited`).
-/

namespace SlotVersioning

namespace VersionGraph

/-! ## Edits -/

/-- An edit of a version graph. Edges are edited between positions. -/
inductive Edit
  | ensure (key : VersionKey) (origin : VersionOrigin) (debugName : Option DebugName)
  | link (source target : Nat)
  | unlink (source target : Nat)
  | withLive (key : VersionKey) (facts : Facts)
  | computeDominators

namespace Edit

/-- The edited graph, if an edited edge is one between nodes that are there. -/
def perform? (graph : VersionGraph) : Edit → Option VersionGraph
  | ensure key origin debugName => some (graph.ensure key origin debugName).1
  | link source target =>
      if source < graph.size ∧ target < graph.size then some (graph.link source target) else none
  | unlink source target =>
      if source < graph.size ∧ target < graph.size then some (graph.unlink source target) else none
  | withLive key facts => some (graph.withLive key facts)
  | computeDominators => some graph.computeDominators

/-- The key that has a node from here on. -/
def key? : Edit → Option VersionKey
  | ensure key _ _ => some key
  | _ => none

/-- The origin that this edit would create a key with. -/
def origin? (key : VersionKey) : Edit → Option VersionOrigin
  | ensure ensured origin _ => if ensured = key then some origin else none
  | _ => none

/-- The debug name that this edit gives for a key. -/
def debugName? (key : VersionKey) : Edit → Option DebugName
  | ensure ensured _ debugName => if ensured = key then debugName else none
  | _ => none

/-- The edges after this edit. -/
def rewire (edges : List (Nat × Nat)) : Edit → List (Nat × Nat)
  | link source target =>
      if (source, target) ∈ edges then edges else edges ++ [(source, target)]
  | unlink source target => edges.filter fun edge => edge ≠ (source, target)
  | _ => edges

end Edit

/-- The graph that edits lead to from the empty one. -/
def edited? (edits : List Edit) : Option VersionGraph := edits.foldlM Edit.perform? {}

/-! ## What a history says -/

/-- The keys in the order in which they were first created. -/
def created (edits : List Edit) : List VersionKey := (edits.filterMap Edit.key?).eraseDups

/-- The edges between positions in the order in which they were added. -/
def edges (edits : List Edit) : List (Nat × Nat) := edits.foldl Edit.rewire []

/-- The edges between keys. -/
def flows (edits : List Edit) : List (VersionKey × VersionKey) :=
  (edges edits).filterMap fun edge => do
    return (← (created edits)[edge.1]?, ← (created edits)[edge.2]?)

/-- Where the edges into a key come from. -/
def sources (edits : List Edit) (key : VersionKey) : List VersionKey :=
  ((flows edits).filter fun flow => flow.2 = key).map Prod.fst

/-- Where the edges out of a key lead. -/
def targets (edits : List Edit) (key : VersionKey) : List VersionKey :=
  ((flows edits).filter fun flow => flow.1 = key).map Prod.snd

/-- The debug name of the node of a key. -/
def debugName? (graph : VersionGraph) (key : VersionKey) : Option DebugName :=
  (graph.node? key).bind VersionNode.debugName

/-- What the graph tells is what the history says. -/
structure Recounts (graph : VersionGraph) (edits : List Edit) : Prop where
  indexed : ∀ key position, graph.position? key = some position ↔
    (graph.nodes[position]?).map VersionNode.key = some key
  keys : graph.keys = created edits
  origin : ∀ key, graph.origin? key = edits.findSome? (Edit.origin? key)
  debugName : ∀ key, graph.debugName? key = edits.findSome? (Edit.debugName? key)
  linked : ∀ source target,
    target ∈ graph.successorsAt source ↔ source ∈ graph.predecessorsAt target
  distinct : ∀ position,
    (graph.predecessorsAt position).Nodup ∧ (graph.successorsAt position).Nodup
  edge : ∀ source target, target ∈ graph.successorsAt source ↔ (source, target) ∈ edges edits
  predecessors : ∀ key, graph.predecessors key = sources edits key
  successors : ∀ key, graph.successors key = targets edits key
  roots : graph.roots = (created edits).filter fun key => sources edits key = []
  contributors : ∀ key, graph.contributors key =
    ((sources edits key).filter fun input =>
      edits.findSome? (Edit.origin? input) == some .phiInput).filterMap
        fun input => (sources edits input).head?

variable {graph next : VersionGraph} {edits : List Edit} {key : VersionKey}

/-! ## One more edit in a history -/

private theorem created_ensure (edits : List Edit) (key : VersionKey) (origin : VersionOrigin)
    (debugName : Option DebugName) : created (edits ++ [.ensure key origin debugName]) =
      if key ∈ created edits then created edits else created edits ++ [key] := by
  have earlier : (edits.filterMap Edit.key?).elem key = decide (key ∈ created edits) := by
    rw [Bool.eq_iff_iff, List.elem_iff, decide_eq_true_iff, created, List.mem_eraseDups]
  rw [created, List.filterMap_append, List.eraseDups_append]
  change created edits ++
    ([key].filter fun name => !(edits.filterMap Edit.key?).elem name).eraseDups = _
  rw [List.filter_singleton, earlier]
  by_cases known : key ∈ created edits
  · rw [if_pos known, decide_eq_true known]
    exact List.append_nil _
  · rw [if_neg known, decide_eq_false known]
    rfl

private theorem created_plain (edits : List Edit) {edit : Edit} (plain : edit.key? = none) :
    created (edits ++ [edit]) = created edits := by
  rw [created, List.filterMap_append, List.filterMap_cons_none plain, List.filterMap_nil,
    List.append_nil]
  rfl

theorem edges_snoc (edits : List Edit) (edit : Edit) :
    edges (edits ++ [edit]) = edit.rewire (edges edits) := by
  rw [edges, List.foldl_append]
  rfl

theorem findSome?_snoc {β : Type} (told : Edit → Option β) (edits : List Edit) (edit : Edit) :
    (edits ++ [edit]).findSome? told = (edits.findSome? told).or (told edit) := by
  rw [List.findSome?_append, List.findSome?_singleton]

/-! ## The same nodes -/

/-- The nodes have the keys, origins and debug names that they had. -/
structure SameNodes (before after : VersionGraph) : Prop where
  keys : after.keys = before.keys
  origin : ∀ key, after.origin? key = before.origin? key
  debugName : ∀ key, after.debugName? key = before.debugName? key

theorem SameNodes.trans {before middle after : VersionGraph} (first : SameNodes before middle)
    (second : SameNodes middle after) : SameNodes before after where
  keys := second.keys.trans first.keys
  origin := fun key => (second.origin key).trans (first.origin key)
  debugName := fun key => (second.debugName key).trans (first.debugName key)

theorem SameNodes.refl (graph : VersionGraph) : SameNodes graph graph :=
  ⟨rfl, fun _ => rfl, fun _ => rfl⟩

theorem keys_editAt (edited : Nat) {edit : VersionNode → VersionNode}
    (kept : ∀ node, (edit node).key = node.key) : (graph.editAt edited edit).keys = graph.keys := by
  refine List.ext_getElem? fun position => ?_
  simp only [keys, List.getElem?_map, Array.getElem?_toList, getElem?_editAt]
  split
  · rw [Option.map_map]
    exact congrArg (Option.map · _) (funext kept)
  · rfl

theorem node?_editAt (edited : Nat) (edit : VersionNode → VersionNode) (key : VersionKey) :
    (graph.editAt edited edit).node? key =
      if graph.position? key = some edited then (graph.node? key).map edit
      else graph.node? key := by
  have position : (graph.editAt edited edit).position? key = graph.position? key := rfl
  unfold node?
  rw [position]
  cases graph.position? key with
  | none => rfl
  | some position =>
      simp only [Option.bind_eq_bind, Option.bind_some, getElem?_editAt, Option.some.injEq, eq_comm]

theorem sameNodes_editAt (edited : Nat) {edit : VersionNode → VersionNode}
    (key : ∀ node, (edit node).key = node.key) (origin : ∀ node, (edit node).origin = node.origin)
    (debugName : ∀ node, (edit node).debugName = node.debugName) :
    SameNodes graph (graph.editAt edited edit) where
  keys := keys_editAt edited key
  origin := by
    intro other
    unfold origin?
    rw [node?_editAt]
    split
    · rw [Option.map_map]
      exact congrArg (Option.map · _) (funext origin)
    · rfl
  debugName := by
    intro other
    unfold debugName?
    rw [node?_editAt]
    split
    · rw [Option.bind_map]
      exact congrArg (Option.bind _) (funext debugName)
    · rfl

private theorem sameNodes_link (graph : VersionGraph) (source target : Nat) :
    SameNodes graph (graph.link source target) := by
  unfold link
  split
  · exact .refl graph
  · refine SameNodes.trans (sameNodes_editAt source ?_ ?_ ?_) (sameNodes_editAt target ?_ ?_ ?_) <;>
      exact fun _ => rfl

private theorem sameNodes_unlink (graph : VersionGraph) (source target : Nat) :
    SameNodes graph (graph.unlink source target) := by
  unfold unlink
  refine SameNodes.trans (sameNodes_editAt source ?_ ?_ ?_) (sameNodes_editAt target ?_ ?_ ?_) <;>
    exact fun _ => rfl

private theorem sameNodes_withLive (graph : VersionGraph) (key : VersionKey) (facts : Facts) :
    SameNodes graph (graph.withLive key facts) := by
  unfold withLive
  split
  · exact sameNodes_editAt _ (fun _ => rfl) (fun _ => rfl) fun _ => rfl
  · exact .refl graph

private theorem sameNodes_computeDominators (graph : VersionGraph) :
    SameNodes graph graph.computeDominators :=
  ⟨rfl, fun _ => rfl, fun _ => rfl⟩

/-! ## One more node -/

private theorem Consistent.isSome_position?_iff (consistent : graph.Consistent) :
    (graph.position? key).isSome = true ↔ key ∈ graph.keys := by
  rw [mem_keys, Option.isSome_iff_exists]
  constructor
  · rintro ⟨position, known⟩
    rcases consistent.placed key position known with ⟨origin, found⟩
    exact ⟨origin, position, found⟩
  · rintro ⟨origin, position, found⟩
    exact ⟨position, consistent.indexed position key origin found⟩

/-- A node that is there keeps its origin, and the debug name that it has. -/
theorem Consistent.node?_ensure (consistent : graph.Consistent) (key : VersionKey)
    (origin : VersionOrigin) (debugName : Option DebugName) (other : VersionKey) :
    (graph.ensure key origin debugName).1.node? other =
      if key = other then
        some (((graph.node? key).map fun node =>
          { node with debugName := node.debugName.or debugName }).getD { key, origin, debugName })
      else graph.node? other := by
  cases known : graph.position? key with
  | some place =>
      unfold VersionGraph.ensure
      rw [known]
      rcases consistent.placed key place known with ⟨created, found⟩
      rcases exists_node found with ⟨node, stored⟩
      have here : graph.node? key = some node := by
        rw [node?, known]
        exact stored
      have same : graph.position? other = some place ↔ key = other := by
        constructor
        · intro also
          rcases consistent.placed other place also with ⟨_, again⟩
          cases found.symm.trans again
          rfl
        · rintro rfl
          exact known
      dsimp only
      rw [node?_editAt]
      simp only [same]
      split
      · next equal =>
          subst equal
          rw [here]
          rfl
      · rfl
  | none =>
      have absent : graph.node? key = none := by
        rw [node?, known]
        rfl
      have stored := nodes_ensure origin debugName known
      rw [absent]
      unfold node?
      rw [(ensure_unknown origin debugName known).2.position]
      split
      · exact (stored _).trans (if_pos rfl)
      · cases found : graph.position? other with
        | none => rfl
        | some position => exact (stored position).trans (if_neg (consistent.ne_size found))

private theorem Consistent.origin?_ensure (consistent : graph.Consistent) (key : VersionKey)
    (origin : VersionOrigin) (debugName : Option DebugName) (other : VersionKey) :
    (graph.ensure key origin debugName).1.origin? other =
      (graph.origin? other).or (if key = other then some origin else none) := by
  unfold origin?
  rw [consistent.node?_ensure]
  split
  · next same =>
      subst same
      cases graph.node? key <;> rfl
  · rw [Option.or_none]

private theorem Consistent.debugName?_ensure (consistent : graph.Consistent) (key : VersionKey)
    (origin : VersionOrigin) (debugName : Option DebugName) (other : VersionKey) :
    (graph.ensure key origin debugName).1.debugName? other =
      (graph.debugName? other).or (if key = other then debugName else none) := by
  unfold VersionGraph.debugName?
  rw [consistent.node?_ensure]
  split
  · next same =>
      subst same
      cases graph.node? key <;> rfl
  · rw [Option.or_none]

private theorem keys_ensure (graph : VersionGraph) (key : VersionKey) (origin : VersionOrigin)
    (debugName : Option DebugName) : (graph.ensure key origin debugName).1.keys =
      if (graph.position? key).isSome then graph.keys else graph.keys ++ [key] := by
  unfold ensure
  cases graph.position? key with
  | some place => exact keys_editAt place fun _ => rfl
  | none =>
      unfold keys
      rw [Array.toList_push, List.map_append]
      rfl

/-! ## Edges by position -/

section

variable {near far : Nat × Nat → Nat}

/-- The other ends of the edges with one end at a position, in the order of the edges. -/
def ends (near far : Nat × Nat → Nat) (edges : List (Nat × Nat)) (position : Nat) : List Nat :=
  (edges.filter fun edge => near edge = position).map far

private theorem ends_append (edges : List (Nat × Nat)) (edge : Nat × Nat) (position : Nat) :
    ends near far (edges ++ [edge]) position =
      if near edge = position then ends near far edges position ++ [far edge]
      else ends near far edges position := by
  unfold ends
  rw [List.filter_append, List.filter_singleton, List.map_append]
  by_cases here : near edge = position
  · rw [if_pos here, decide_eq_true here]
    rfl
  · rw [if_neg here, decide_eq_false here]
    exact List.append_nil _

variable (joint : ∀ left right, near left = near right → far left = far right → left = right)

include joint

/-- Where an edge is taken off, so is its other end, as there is no other edge between the two. -/
private theorem ends_remove (edges : List (Nat × Nat)) (removed : Nat × Nat) (position : Nat) :
    ends near far (edges.filter fun edge => edge ≠ removed) position =
      if near removed = position then (ends near far edges position).filter (· != far removed)
      else ends near far edges position := by
  unfold ends
  rw [List.filter_map, List.filter_filter, List.filter_filter]
  split
  · next here =>
      refine congrArg (List.map far) (List.filter_congr fun edge _ => ?_)
      rw [Bool.eq_iff_iff, Bool.and_eq_true, Bool.and_eq_true, decide_eq_true_iff,
        decide_eq_true_iff, Function.comp_apply, bne_iff_ne, and_comm]
      refine and_congr_left fun there => not_congr ⟨congrArg far, fun same => ?_⟩
      exact joint edge removed (there.trans here.symm) same
  · next elsewhere =>
      refine congrArg (List.map far) (List.filter_congr fun edge _ => ?_)
      rw [Bool.eq_iff_iff, Bool.and_eq_true, decide_eq_true_iff, decide_eq_true_iff,
        and_iff_left_iff_imp]
      rintro there rfl
      exact elsewhere there

private theorem nodup_ends {edges : List (Nat × Nat)} (distinct : edges.Nodup) (position : Nat) :
    (ends near far edges position).Nodup := by
  refine (distinct.filter _).map_on fun left inLeft right inRight same => ?_
  have atLeft := of_decide_eq_true (List.mem_filter.1 inLeft).2
  have atRight := of_decide_eq_true (List.mem_filter.1 inRight).2
  exact joint left right (atLeft.trans atRight.symm) same

end

/-- The nodes list the ends of these edges, and no edge is listed twice. -/
structure HasEdges (graph : VersionGraph) (edges : List (Nat × Nat)) : Prop where
  predecessors : ∀ position, graph.predecessorsAt position = ends Prod.snd Prod.fst edges position
  successors : ∀ position, graph.successorsAt position = ends Prod.fst Prod.snd edges position
  distinct : edges.Nodup

namespace HasEdges

variable {listed : List (Nat × Nat)} (hasEdges : graph.HasEdges listed)

include hasEdges

theorem of_same (predecessors : ∀ position, next.predecessorsAt position =
      graph.predecessorsAt position)
    (successors : ∀ position, next.successorsAt position = graph.successorsAt position) :
    next.HasEdges listed where
  predecessors := fun position => (predecessors position).trans (hasEdges.predecessors position)
  successors := fun position => (successors position).trans (hasEdges.successors position)
  distinct := hasEdges.distinct

theorem mem_successorsAt {source target : Nat} :
    target ∈ graph.successorsAt source ↔ (source, target) ∈ listed := by
  rw [hasEdges.successors, ends]
  simp

theorem link {source target : Nat} {left right : VersionKey × VersionOrigin}
    (atSource : graph.identity? source = some left)
    (atTarget : graph.identity? target = some right) :
    (graph.link source target).HasEdges ((Edit.link source target).rewire listed) := by
  by_cases present : (source, target) ∈ listed
  · rw [Edit.rewire, if_pos present, link_present (hasEdges.mem_successorsAt.2 present)]
    exact hasEdges
  · rw [Edit.rewire, if_neg present]
    rcases edges_link (mt hasEdges.mem_successorsAt.1 present) atSource atTarget with
      ⟨predecessors, successors⟩
    refine ⟨fun position => ?_, fun position => ?_, ?_⟩
    · rw [predecessors, hasEdges.predecessors, ends_append]
    · rw [successors, hasEdges.successors, ends_append]
    · exact hasEdges.distinct.append (List.nodup_singleton _) (List.disjoint_singleton.2 present)

private theorem unlink (source target : Nat) :
    (graph.unlink source target).HasEdges ((Edit.unlink source target).rewire listed) := by
  refine ⟨fun position => ?_, fun position => ?_, hasEdges.distinct.filter _⟩
  · rw [predecessorsAt_unlink, hasEdges.predecessors]
    exact (ends_remove (fun _ _ targets sources => Prod.ext sources targets) listed
      (source, target) position).symm
  · rw [successorsAt_unlink, hasEdges.successors]
    exact (ends_remove (fun _ _ => Prod.ext) listed (source, target) position).symm

end HasEdges

/-! ## Following edits -/

/-- The graph holds what its history says, edges by position. -/
structure Follows (graph : VersionGraph) (edits : List Edit) : Prop where
  consistent : graph.Consistent
  keys : graph.keys = created edits
  origin : ∀ key, graph.origin? key = edits.findSome? (Edit.origin? key)
  debugName : ∀ key, graph.debugName? key = edits.findSome? (Edit.debugName? key)
  hasEdges : graph.HasEdges (edges edits)

private theorem follows_empty : ({} : VersionGraph).Follows [] where
  consistent := consistent_empty
  keys := rfl
  origin := fun _ => rfl
  debugName := fun _ => rfl
  hasEdges := ⟨fun _ => rfl, fun _ => rfl, List.nodup_nil⟩

namespace Follows

variable (follows : graph.Follows edits)

include follows

/-- An edit that leaves the nodes as they are is to be followed in the edges alone. -/
private theorem of_sameNodes {edit : Edit} (same : SameNodes graph next)
    (consistent : next.Consistent) (key : edit.key? = none)
    (origin : ∀ key, edit.origin? key = none) (debugName : ∀ key, edit.debugName? key = none)
    (hasEdges : next.HasEdges (edit.rewire (edges edits))) : next.Follows (edits ++ [edit]) where
  consistent := consistent
  keys := by rw [created_plain edits key, same.keys, follows.keys]
  origin := fun other => by
    rw [findSome?_snoc, origin, Option.or_none, same.origin, follows.origin]
  debugName := fun other => by
    rw [findSome?_snoc, debugName, Option.or_none, same.debugName, follows.debugName]
  hasEdges := by rwa [edges_snoc]

private theorem ensure (key : VersionKey) (origin : VersionOrigin) (debugName : Option DebugName) :
    (graph.ensure key origin debugName).1.Follows (edits ++ [.ensure key origin debugName]) where
  consistent := follows.consistent.ensure key origin debugName
  keys := by
    rw [created_ensure, keys_ensure, ← follows.keys]
    simp only [follows.consistent.isSome_position?_iff]
  origin := fun other => by
    rw [findSome?_snoc, follows.consistent.origin?_ensure, follows.origin]
    rfl
  debugName := fun other => by
    rw [findSome?_snoc, follows.consistent.debugName?_ensure, follows.debugName]
    rfl
  hasEdges := by
    have wider := graph.widens_ensure key origin debugName
    rw [edges_snoc]
    exact follows.hasEdges.of_same wider.predecessors wider.successors

theorem edit {edit : Edit} (applied : edit.perform? graph = some next) :
    next.Follows (edits ++ [edit]) := by
  cases edit with
  | ensure key origin debugName =>
      cases applied
      exact follows.ensure key origin debugName
  | link source target =>
      rcases Option.ite_none_right_eq_some.1 applied with ⟨⟨sourceKnown, targetKnown⟩, linked⟩
      cases linked
      rcases exists_identity sourceKnown with ⟨left, atSource⟩
      rcases exists_identity targetKnown with ⟨right, atTarget⟩
      exact follows.of_sameNodes (graph.sameNodes_link source target)
        (follows.consistent.link atSource atTarget) rfl (fun _ => rfl) (fun _ => rfl)
        (follows.hasEdges.link atSource atTarget)
  | unlink source target =>
      rcases Option.ite_none_right_eq_some.1 applied with ⟨-, unlinked⟩
      cases unlinked
      exact follows.of_sameNodes (graph.sameNodes_unlink source target)
        (follows.consistent.unlink source target) rfl (fun _ => rfl) (fun _ => rfl)
        (follows.hasEdges.unlink source target)
  | withLive key facts =>
      cases applied
      have similar := graph.similar_withLive key facts
      exact follows.of_sameNodes (graph.sameNodes_withLive key facts)
        (similar.consistent follows.consistent) rfl (fun _ => rfl) (fun _ => rfl)
        (follows.hasEdges.of_same similar.predecessors similar.successors)
  | computeDominators =>
      cases applied
      have similar := graph.similar_computeDominators
      exact follows.of_sameNodes graph.sameNodes_computeDominators
        (similar.consistent follows.consistent) rfl (fun _ => rfl) (fun _ => rfl)
        (follows.hasEdges.of_same similar.predecessors similar.successors)

end Follows

private theorem follows_of_edited (reached : edited? edits = some graph) : graph.Follows edits := by
  induction edits using List.reverseRecOn generalizing graph with
  | nil =>
      cases reached
      exact follows_empty
  | append_singleton earlier edit induction =>
      rw [edited?, List.foldlM_append] at reached
      rcases Option.bind_eq_some_iff.1 reached with ⟨before, earlierReached, last⟩
      rw [List.foldlM_cons] at last
      rcases Option.bind_eq_some_iff.1 last with ⟨after, applied, done⟩
      cases done
      exact (induction earlierReached).edit applied

/-! ## Edges between keys -/

/-- The sources of a key are the keys at the positions from which edges lead to its position. -/
private theorem sources_eq (edits : List Edit) (key : VersionKey) : sources edits key =
    (((edges edits).filter fun edge => (created edits)[edge.2]? = some key).map
      Prod.fst).filterMap fun position => (created edits)[position]? := by
  rw [sources, flows, List.filter_filterMap, List.map_filterMap, List.filterMap_map,
    List.filterMap_filter]
  congr 1
  funext edge
  dsimp only [Function.comp_apply]
  cases (created edits)[edge.1]? with
  | none => split <;> rfl
  | some source =>
      cases (created edits)[edge.2]? with
      | none => rfl
      | some target =>
          by_cases same : target = key <;> simp [same]

private theorem targets_eq (edits : List Edit) (key : VersionKey) : targets edits key =
    (((edges edits).filter fun edge => (created edits)[edge.1]? = some key).map
      Prod.snd).filterMap fun position => (created edits)[position]? := by
  rw [targets, flows, List.filter_filterMap, List.map_filterMap, List.filterMap_map,
    List.filterMap_filter]
  congr 1
  funext edge
  dsimp only [Function.comp_apply]
  cases (created edits)[edge.1]? with
  | none => rfl
  | some source =>
      cases (created edits)[edge.2]? with
      | none => split <;> rfl
      | some target =>
          by_cases same : source = key <;> simp [same]

theorem keysAt_eq (graph : VersionGraph) (positions : List Nat) :
    graph.keysAt positions = positions.filterMap fun position => graph.keys[position]? := by
  unfold keysAt keys
  simp only [List.getElem?_map, Array.getElem?_toList]

namespace Follows

variable (follows : graph.Follows edits)

include follows

/-- A position tells the key that is found there. -/
theorem indexed {position : Nat} :
    graph.position? key = some position ↔ (created edits)[position]? = some key := by
  rw [← follows.keys, getElem?_keys]
  constructor
  · intro known
    rcases follows.consistent.placed key position known with ⟨origin, found⟩
    exact congrArg (Option.map _) found
  · intro named
    rcases Option.map_eq_some_iff.1 named with ⟨⟨_, origin⟩, found, rfl⟩
    exact follows.consistent.indexed position _ origin found

theorem predecessors_eq (key : VersionKey) : graph.predecessors key = sources edits key := by
  rw [sources_eq]
  simp only [← follows.indexed]
  rw [← follows.keys, ← keysAt_eq]
  cases known : graph.position? key with
  | none =>
      have alone : graph.predecessors key = [] :=
        congrArg Outline.predecessors (outline_absent known)
      simp [alone, keysAt]
  | some position =>
      rcases follows.consistent.placed key position known with ⟨origin, found⟩
      rw [(follows.consistent.listed_at found).1, follows.hasEdges.predecessors, ends]
      simp only [Option.some.injEq, eq_comm]

private theorem successors_eq (key : VersionKey) : graph.successors key = targets edits key := by
  rw [targets_eq]
  simp only [← follows.indexed]
  rw [← follows.keys, ← keysAt_eq]
  cases known : graph.position? key with
  | none =>
      have alone : graph.successors key = [] := congrArg Outline.successors (outline_absent known)
      simp [alone, keysAt]
  | some position =>
      rcases follows.consistent.placed key position known with ⟨origin, found⟩
      rw [(follows.consistent.listed_at found).2.1, follows.hasEdges.successors, ends]
      simp only [Option.some.injEq, eq_comm]

private theorem roots_eq :
    graph.roots = (created edits).filter fun key => sources edits key = [] := by
  rw [← follows.keys, roots, VersionGraph.keys, List.filter_map]
  refine congrArg (List.map _) (List.filter_congr fun node member => ?_)
  rcases List.getElem?_of_mem member with ⟨position, stored⟩
  rw [Array.getElem?_toList] at stored
  have found : graph.identity? position = some (node.key, node.origin) :=
    congrArg (Option.map _) stored
  have listed : graph.predecessorsAt position = node.predecessors :=
    congrArg (fun node => (Option.map VersionNode.predecessors node).getD []) stored
  rw [Function.comp_apply, ← follows.predecessors_eq, (follows.consistent.listed_at found).1,
    listed, Bool.eq_iff_iff, List.isEmpty_iff, decide_eq_true_iff]
  cases preceding : node.predecessors with
  | nil => exact iff_of_true rfl rfl
  | cons head tail =>
      have edge : head ∈ graph.predecessorsAt position := by
        rw [listed, preceding]
        exact List.mem_cons_self
      rcases follows.consistent.known_predecessor edge with ⟨⟨_, _⟩, atHead⟩
      rw [keysAt_cons atHead]
      exact iff_of_false (List.cons_ne_nil _ _) (List.cons_ne_nil _ _)

private theorem recounts : graph.Recounts edits where
  indexed := fun key position => by
    rw [follows.indexed, ← follows.keys, VersionGraph.keys, List.getElem?_map,
      Array.getElem?_toList]
  keys := follows.keys
  origin := follows.origin
  debugName := follows.debugName
  linked := follows.consistent.linked
  distinct := by
    intro position
    rw [follows.hasEdges.predecessors, follows.hasEdges.successors]
    exact ⟨nodup_ends (fun _ _ targets sources => Prod.ext sources targets)
        follows.hasEdges.distinct position,
      nodup_ends (fun _ _ => Prod.ext) follows.hasEdges.distinct position⟩
  edge := fun _ _ => follows.hasEdges.mem_successorsAt
  predecessors := follows.predecessors_eq
  successors := follows.successors_eq
  roots := follows.roots_eq
  contributors := fun key => by
    rw [follows.consistent.contributors_eq]
    simp only [follows.predecessors_eq, follows.origin]

end Follows

/-- After any edits, the graph answers what the history of them says. -/
theorem recounts_of_edited (edits : List Edit) (graph : VersionGraph)
    (reached : edited? edits = some graph) : graph.Recounts edits :=
  (follows_of_edited reached).recounts

/-- A version merged from two that come in over inputs; one of the inputs is taken off again, and
another edge leads from a node to itself. -/
def merging : List Edit :=
  [.ensure ⟨0, 1⟩ .definition none, .ensure ⟨0, 2⟩ .definition none, .ensure ⟨0, 3⟩ .use none,
    .ensure ⟨0, 4⟩ .phiInput none, .link 0 3, .link 3 2, .ensure ⟨0, 5⟩ .phiInput none, .link 1 4,
    .link 4 2, .link 2 2, .link 4 2, .unlink 3 2, .unlink 2 2, .withLive ⟨0, 3⟩ ∅,
    .ensure ⟨0, 1⟩ .phantom (some ⟨"x", "I"⟩), .ensure ⟨0, 1⟩ .use (some ⟨"y", "J"⟩),
    .computeDominators]

theorem recounts_merging : ∃ graph, edited? merging = some graph ∧ graph.Recounts merging ∧
    graph.contributors ⟨0, 3⟩ = [⟨0, 2⟩] ∧ graph.origin? ⟨0, 1⟩ = some .definition :=
  ⟨_, rfl, recounts_of_edited merging _ rfl, by decide, by decide⟩

end VersionGraph

end SlotVersioning
