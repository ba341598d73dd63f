import SlotVersioning.Proofs.Graph.Keyed

/-!
# Edits by key

What an outsider sees of a node is how it came into being and the keys at the other ends of its
edges (`Outline`). The edits of the graph are described by what they do to outlines, so that where
nodes are placed does not matter.
-/

namespace SlotVersioning

namespace VersionGraph

/-- How the node of a key came into being, and its edges by key. -/
structure Outline where
  origin : Option VersionOrigin
  predecessors : List VersionKey
  successors : List VersionKey

def outline (graph : VersionGraph) (key : VersionKey) : Outline :=
  ⟨graph.origin? key, graph.predecessors key, graph.successors key⟩

variable {graph next : VersionGraph} {key source target other : VersionKey}
  {origin : VersionOrigin} {position place way : Nat}

/-- A key without a node has an empty outline. -/
theorem outline_absent (absent : graph.position? key = none) :
    graph.outline key = ⟨none, [], []⟩ := by
  unfold outline origin? predecessors successors node?
  rw [absent]
  rfl

private theorem keysAt_congr {positions : List Nat}
    (same : ∀ position ∈ positions, ∀ identity, graph.identity? position = some identity →
      next.identity? position = some identity)
    (known : ∀ position ∈ positions, ∃ identity, graph.identity? position = some identity) :
    next.keysAt positions = graph.keysAt positions := by
  induction positions with
  | nil => rfl
  | cons head tail induction =>
      rcases known head List.mem_cons_self with ⟨⟨key, origin⟩, found⟩
      rw [keysAt_cons found, keysAt_cons (same head List.mem_cons_self _ found),
        induction (fun position member => same position (List.mem_cons_of_mem _ member))
          fun position member => known position (List.mem_cons_of_mem _ member)]

theorem keysAt_of_identity (same : ∀ position, next.identity? position = graph.identity? position)
    (positions : List Nat) : next.keysAt positions = graph.keysAt positions := by
  unfold keysAt
  congr 1
  funext position
  have named := congrArg (Option.map Prod.fst) (same position)
  unfold identity? at named
  rw [Option.map_map, Option.map_map] at named
  exact named

private theorem keysAt_append (graph : VersionGraph) (left right : List Nat) :
    graph.keysAt (left ++ right) = graph.keysAt left ++ graph.keysAt right :=
  List.filterMap_append

namespace Consistent

variable (consistent : graph.Consistent)

include consistent

theorem outline_at (found : graph.identity? position = some (key, origin)) :
    graph.outline key = ⟨some origin, graph.keysAt (graph.predecessorsAt position),
      graph.keysAt (graph.successorsAt position)⟩ := by
  unfold outline
  rw [consistent.origin?_of_has ⟨position, found⟩, (consistent.listed_at found).1,
    (consistent.listed_at found).2.1]

theorem known_predecessor (edge : place ∈ graph.predecessorsAt position) :
    ∃ identity, graph.identity? place = some identity := by
  have edge := (consistent.linked place position).2 edge
  unfold successorsAt at edge
  cases stored : graph.nodes[place]? with
  | none =>
      rw [stored] at edge
      exact nomatch edge
  | some node => exact ⟨_, congrArg (Option.map _) stored⟩

theorem known_successor (edge : way ∈ graph.successorsAt position) :
    ∃ identity, graph.identity? way = some identity := by
  have edge := (consistent.linked position way).1 edge
  unfold predecessorsAt at edge
  cases stored : graph.nodes[way]? with
  | none =>
      rw [stored] at edge
      exact nomatch edge
  | some node => exact ⟨_, congrArg (Option.map _) stored⟩

/-- Two nodes with one key are one. -/
theorem key_eq_iff {left right : VersionOrigin}
    (atPlace : graph.identity? place = some (source, left))
    (atWay : graph.identity? way = some (target, right)) : source = target ↔ place = way := by
  constructor
  · rintro rfl
    exact Option.some.inj
      ((consistent.indexed _ _ _ atPlace).symm.trans (consistent.indexed _ _ _ atWay))
  · rintro rfl
    rw [atPlace] at atWay
    cases atWay
    rfl

/-- Edges are listed at both of their ends. -/
theorem mem_successors_comm : target ∈ graph.successors source ↔
    source ∈ graph.predecessors target := by
  constructor
  · intro edge
    rcases consistent.identity_of_listed (.inr (List.ne_nil_of_mem edge)) with ⟨place, _, atPlace⟩
    rw [(consistent.listed_at atPlace).2.1, mem_keysAt] at edge
    rcases edge with ⟨way, edge, named⟩
    rcases Option.map_eq_some_iff.1 named with ⟨⟨_, _⟩, atWay, rfl⟩
    rw [(consistent.listed_at atWay).1, mem_keysAt]
    exact ⟨place, (consistent.linked place way).1 edge, by rw [atPlace]; rfl⟩
  · intro edge
    rcases consistent.identity_of_listed (.inl (List.ne_nil_of_mem edge)) with ⟨way, _, atWay⟩
    rw [(consistent.listed_at atWay).1, mem_keysAt] at edge
    rcases edge with ⟨place, edge, named⟩
    rcases Option.map_eq_some_iff.1 named with ⟨⟨_, _⟩, atPlace, rfl⟩
    rw [(consistent.listed_at atPlace).2.1, mem_keysAt]
    exact ⟨way, (consistent.linked place way).2 edge, by rw [atWay]; rfl⟩

/-- The outline of a node with the same edges at its position is the same. -/
theorem outline_of_same (nextConsistent : next.Consistent)
    (stays : ∀ position identity, graph.identity? position = some identity →
      next.identity? position = some identity)
    (found : graph.identity? position = some (key, origin))
    (predecessors : next.predecessorsAt position = graph.predecessorsAt position)
    (successors : next.successorsAt position = graph.successorsAt position) :
    next.outline key = graph.outline key := by
  rw [consistent.outline_at found, nextConsistent.outline_at (stays position _ found), predecessors,
    successors, keysAt_congr (fun place _ => stays place) fun _ => consistent.known_predecessor,
    keysAt_congr (fun way _ => stays way) fun _ => consistent.known_successor]

end Consistent

/-! ## Nodes -/

theorem Similar.outline (similar : Similar graph next) (consistent : graph.Consistent)
    (key : VersionKey) : next.outline key = graph.outline key := by
  cases known : graph.position? key with
  | none => rw [outline_absent known, outline_absent ((similar.position key).trans known)]
  | some position =>
      rcases consistent.placed key position known with ⟨origin, found⟩
      exact consistent.outline_of_same (similar.consistent consistent)
        (fun place _ => (similar.identity place).trans) found (similar.predecessors position)
        (similar.successors position)

/-- A node that was added has no edges. -/
private theorem Added.outline (added : Added graph next key origin)
    (unknown : graph.position? key = none) (consistent : graph.Consistent) (other : VersionKey) :
    next.outline other = if other = key then ⟨some origin, [], []⟩ else graph.outline other := by
  have nextConsistent := added.consistent unknown consistent
  have stays := (added.rewires key).identity
  split
  · next same =>
      subst same
      have found : next.identity? graph.size = some (other, origin) :=
        (added.identity graph.size).trans (if_pos rfl)
      have alone : graph.successorsAt graph.size = [] := by
        unfold successorsAt size
        rw [Array.getElem?_size]
        rfl
      rw [nextConsistent.outline_at found, added.predecessors, added.successors,
        predecessorsAt_size, alone]
      rfl
  · next different =>
      cases known : graph.position? other with
      | none =>
          rw [outline_absent known, outline_absent]
          rw [added.position, if_neg fun same => different same.symm, known]
      | some position =>
          rcases consistent.placed other position known with ⟨created, found⟩
          exact consistent.outline_of_same nextConsistent stays found (added.predecessors position)
            (added.successors position)

theorem position?_ensure (graph : VersionGraph) (key : VersionKey) (origin : VersionOrigin)
    (debugName : Option DebugName) :
    (graph.ensure key origin debugName).1.position? key =
      some (graph.ensure key origin debugName).2 := by
  unfold ensure
  cases known : graph.position? key with
  | some position => exact known
  | none => exact Std.ExtTreeMap.getElem?_insert_self

theorem position?_ensure_of_known (origin : VersionOrigin) (debugName : Option DebugName)
    (known : graph.position? other = some position) :
    (graph.ensure key origin debugName).1.position? other = some position := by
  cases found : graph.position? key with
  | some place =>
      rw [(ensure_known origin debugName found).2.position]
      exact known
  | none =>
      rw [(ensure_unknown origin debugName found).2.position, if_neg]
      · exact known
      · rintro rfl
        exact nomatch found.symm.trans known

theorem Consistent.ensure (consistent : graph.Consistent) (key : VersionKey)
    (origin : VersionOrigin) (debugName : Option DebugName) :
    (graph.ensure key origin debugName).1.Consistent := by
  cases found : graph.position? key with
  | some place => exact (ensure_known origin debugName found).2.consistent consistent
  | none => exact (ensure_unknown origin debugName found).2.consistent found consistent

theorem Sound.ensure (sound : graph.Sound) (key : VersionKey) (origin : VersionOrigin)
    (debugName : Option DebugName) : (graph.ensure key origin debugName).1.Sound := by
  cases found : graph.position? key with
  | some place => exact (ensure_known origin debugName found).2.sound sound
  | none => exact (ensure_unknown origin debugName found).2.sound found sound

/-- A key that gets a node has no edges yet. -/
theorem Consistent.outline_ensure (consistent : graph.Consistent) (key : VersionKey)
    (origin : VersionOrigin) (debugName : Option DebugName) (other : VersionKey) :
    (graph.ensure key origin debugName).1.outline other =
      if other = key ∧ graph.origin? key = none then ⟨some origin, [], []⟩
      else graph.outline other := by
  cases found : graph.position? key with
  | some place =>
      rcases consistent.placed key place found with ⟨created, identity⟩
      rw [(ensure_known origin debugName found).2.outline consistent, if_neg]
      rw [consistent.origin?_of_has ⟨place, identity⟩]
      exact fun both => nomatch both.2
  | none =>
      have absent : graph.origin? key = none := congrArg Outline.origin (outline_absent found)
      rw [(ensure_unknown origin debugName found).2.outline found consistent, absent]
      simp only [and_true]

/-! ## Edges -/

section

variable {created : VersionOrigin} (consistent : graph.Consistent)
  (atPlace : graph.identity? place = some (source, created))
  (atWay : graph.identity? way = some (target, origin))

include consistent atPlace atWay

theorem Consistent.mem_successors_iff : target ∈ graph.successors source ↔
    way ∈ graph.successorsAt place := by
  rw [(consistent.listed_at atPlace).2.1, mem_keysAt]
  constructor
  · rintro ⟨other, edge, named⟩
    rcases Option.map_eq_some_iff.1 named with ⟨⟨_, kind⟩, found, rfl⟩
    exact (consistent.key_eq_iff found atWay).1 rfl ▸ edge
  · exact fun edge => ⟨way, edge, by rw [atWay]; rfl⟩

/-- A new edge comes last at both of its ends. -/
theorem Consistent.outline_link (other : VersionKey) :
    (graph.link place way).outline other =
      if target ∈ graph.successors source then graph.outline other
      else
        ⟨graph.origin? other,
          if other = target then graph.predecessors other ++ [source]
            else graph.predecessors other,
          if other = source then graph.successors other ++ [target]
            else graph.successors other⟩ := by
  have joined := consistent.link atPlace atWay
  split
  · next present =>
      have edge := (consistent.mem_successors_iff atPlace atWay).1 present
      rw [link_present edge]
  · next absent =>
      rw [consistent.mem_successors_iff atPlace atWay] at absent
      rcases edges_link absent atPlace atWay with ⟨into, onward⟩
      have apart (known : graph.position? other = none) : other ≠ source ∧ other ≠ target := by
        constructor
        · rintro rfl
          exact nomatch known.symm.trans (consistent.indexed _ _ _ atPlace)
        · rintro rfl
          exact nomatch known.symm.trans (consistent.indexed _ _ _ atWay)
      cases known : graph.position? other with
      | none =>
          have outline := outline_absent known
          rw [outline_absent ((position?_link graph place way other).trans known),
            if_neg (apart known).2, if_neg (apart known).1]
          exact outline.symm
      | some position =>
          rcases consistent.placed other position known with ⟨kind, found⟩
          have linked := (identity?_link graph place way position).trans found
          have keys := keysAt_of_identity (identity?_link graph place way)
          rw [joined.outline_at linked, into, onward, consistent.origin?_of_has ⟨position, found⟩,
            (consistent.listed_at found).1, (consistent.listed_at found).2.1]
          have toWay : other = target ↔ way = position := by
            rw [consistent.key_eq_iff found atWay, eq_comm]
          have fromPlace : other = source ↔ place = position := by
            rw [consistent.key_eq_iff found atPlace, eq_comm]
          simp only [toWay, fromPlace]
          congr 1
          · split
            · rw [keys, keysAt_append, keysAt_cons atPlace]
              rfl
            · exact keys _
          · split
            · rw [keys, keysAt_append, keysAt_cons atWay]
              rfl
            · exact keys _

end

/-- Leaving out nodes leaves out their keys. -/
theorem keysAt_filter_of {keptAt : Nat → Bool} {kept : VersionKey → Bool} {positions : List Nat}
    (known : ∀ position ∈ positions, ∃ identity, graph.identity? position = some identity)
    (same : ∀ position ∈ positions, ∀ key origin,
      graph.identity? position = some (key, origin) → keptAt position = kept key) :
    graph.keysAt (positions.filter keptAt) = (graph.keysAt positions).filter kept := by
  induction positions with
  | nil => rfl
  | cons head tail induction =>
      rw [List.forall_mem_cons] at known same
      rcases known.1 with ⟨⟨key, origin⟩, found⟩
      rw [keysAt_cons found, List.filter_cons, List.filter_cons, same.1 key origin found]
      split
      · rw [keysAt_cons found, induction known.2 same.2]
      · exact induction known.2 same.2

private theorem Consistent.keysAt_filter (consistent : graph.Consistent)
    (atPlace : graph.identity? place = some (source, origin)) {positions : List Nat}
    (known : ∀ position ∈ positions, ∃ identity, graph.identity? position = some identity) :
    graph.keysAt (positions.filter (· != place)) =
      (graph.keysAt positions).filter (· != source) := by
  refine keysAt_filter_of known fun position _ other kind found => ?_
  rw [Bool.eq_iff_iff, bne_iff_ne, bne_iff_ne, Ne, Ne, consistent.key_eq_iff found atPlace]

/-- An edge that is removed is missing at both of its ends. -/
theorem Consistent.outline_unlink (consistent : graph.Consistent) {created : VersionOrigin}
    (atPlace : graph.identity? place = some (source, created))
    (atWay : graph.identity? way = some (target, origin)) (other : VersionKey) :
    (graph.unlink place way).outline other =
      ⟨graph.origin? other,
        if other = target then (graph.predecessors other).filter (· != source)
          else graph.predecessors other,
        if other = source then (graph.successors other).filter (· != target)
          else graph.successors other⟩ := by
  cases known : graph.position? other with
  | none =>
      have empty := outline_absent known
      unfold outline at empty
      injection empty with absent noPredecessors noSuccessors
      rw [outline_absent ((position?_unlink graph place way other).trans known), absent,
        noPredecessors, noSuccessors]
      simp
  | some position =>
      rcases consistent.placed other position known with ⟨kind, found⟩
      have unlinked := (identity?_unlink graph place way position).trans found
      have keys := keysAt_of_identity (identity?_unlink graph place way)
      rw [(consistent.unlink place way).outline_at unlinked, predecessorsAt_unlink, successorsAt_unlink,
        consistent.origin?_of_has ⟨position, found⟩, (consistent.listed_at found).1,
        (consistent.listed_at found).2.1]
      have toWay : other = target ↔ way = position := by
        rw [consistent.key_eq_iff found atWay, eq_comm]
      have fromPlace : other = source ↔ place = position := by
        rw [consistent.key_eq_iff found atPlace, eq_comm]
      simp only [toWay, fromPlace]
      congr 1
      · split
        · rw [keys]
          exact consistent.keysAt_filter atPlace fun _ => consistent.known_predecessor
        · exact keys _
      · split
        · rw [keys]
          exact consistent.keysAt_filter atWay fun _ => consistent.known_successor
        · exact keys _

/-! ## Inputs -/

section

variable (consistent : graph.Consistent) (found : graph.identity? position = some (key, origin))

include consistent found

theorem Consistent.isPhiInputAt_iff :
    graph.isPhiInputAt position = true ↔ graph.origin? key = some .phiInput := by
  rw [VersionGraph.isPhiInputAt_iff found, consistent.origin?_of_has ⟨position, found⟩,
    Option.some.injEq]

theorem Consistent.carriedAt_eq_head :
    graph.carriedAt position = (graph.predecessors key).head? := by
  rw [carriedAt_eq, (consistent.listed_at found).1]
  cases listed : graph.predecessorsAt position with
  | nil => rfl
  | cons first rest =>
      rcases consistent.known_predecessor (listed ▸ List.mem_cons_self) with ⟨⟨source, kind⟩, there⟩
      rw [keysAt_cons there, List.head?_cons, Option.bind_some, there]
      rfl

/-- What an input carries, by keys. -/
theorem Consistent.inputSource?_eq :
    graph.inputSource? position =
      if graph.origin? key = some .phiInput then
        (graph.predecessors key).head?.map VersionKey.version
      else none := by
  unfold inputSource?
  rw [consistent.carriedAt_eq_head found]
  simp only [consistent.isPhiInputAt_iff found]

/-- What a node brings, by keys. -/
private theorem Consistent.broughtBy?_eq :
    graph.broughtBy? position =
      if graph.origin? key = some .phiInput then (graph.predecessors key).head? else some key := by
  unfold broughtBy?
  rw [consistent.carriedAt_eq_head found, found]
  simp only [consistent.isPhiInputAt_iff found, Option.map_some]

end

/-- What flows into a node, by keys. -/
theorem Consistent.flowsTo_iff_outline (consistent : graph.Consistent)
    (found : graph.identity? position = some (key, origin)) (source : VersionKey) :
    graph.FlowsTo source position ↔ ∃ other ∈ graph.predecessors key,
      (if graph.origin? other = some .phiInput then (graph.predecessors other).head?
        else some other) = some source := by
  rw [(consistent.listed_at found).1]
  simp only [mem_keysAt]
  constructor
  · rintro ⟨predecessor, edge, brings⟩
    rcases consistent.known_predecessor edge with ⟨⟨other, kind⟩, there⟩
    exact ⟨other, ⟨predecessor, edge, by rw [there]; rfl⟩,
      (consistent.broughtBy?_eq there).symm.trans brings⟩
  · rintro ⟨other, ⟨predecessor, edge, named⟩, brings⟩
    rcases Option.map_eq_some_iff.1 named with ⟨⟨_, kind⟩, there, rfl⟩
    exact ⟨predecessor, edge, (consistent.broughtBy?_eq there).trans brings⟩

end VersionGraph

end SlotVersioning
