import SlotVersioning.Proofs.Graph.Shape

/-!
# Shapes by key

From outside, nodes are named by keys. Where the nodes of a graph have the shape of usage versions,
so do their keys (`Shaped.wellShaped`).
-/

namespace SlotVersioning

namespace VersionGraph

variable {graph : VersionGraph} {known : Slot → Nat} {reads : VersionKey → Prop}

/-! ## Keys and positions -/

theorem getElem?_keys (graph : VersionGraph) (position : Nat) :
    graph.keys[position]? = (graph.identity? position).map Prod.fst := by
  unfold keys identity?
  rw [List.getElem?_map, Array.getElem?_toList, Option.map_map]
  rfl

theorem mem_keys {key : VersionKey} : key ∈ graph.keys ↔ ∃ origin, graph.Has key origin := by
  rw [List.mem_iff_getElem?]
  simp only [getElem?_keys]
  constructor
  · rintro ⟨position, named⟩
    rcases Option.map_eq_some_iff.1 named with ⟨⟨_, origin⟩, found, rfl⟩
    exact ⟨origin, position, found⟩
  · rintro ⟨origin, position, found⟩
    exact ⟨position, congrArg _ found⟩

theorem keysAt_cons {key : VersionKey} {origin : VersionOrigin} {position : Nat}
    (found : graph.identity? position = some (key, origin)) (rest : List Nat) :
    graph.keysAt (position :: rest) = key :: graph.keysAt rest := by
  rcases Option.map_eq_some_iff.1 found with ⟨node, stored, same⟩
  refine List.filterMap_cons_some ?_
  rw [stored]
  exact congrArg some (congrArg Prod.fst same)

private theorem map_some_filterMap {α β : Type} {get : α → Option β} {list : List α}
    (each : ∀ entry ∈ list, ∃ value, get entry = some value) :
    (list.filterMap get).map some = list.map get := by
  induction list with
  | nil => rfl
  | cons head tail induction =>
      rcases each head List.mem_cons_self with ⟨value, found⟩
      rw [List.filterMap_cons_some found, List.map_cons, List.map_cons, found,
        induction fun entry member => each entry (List.mem_cons_of_mem _ member)]

namespace Consistent

variable {key : VersionKey} {origin : VersionOrigin} {position : Nat}
  (consistent : graph.Consistent)

include consistent

theorem has_of_origin (known : graph.origin? key = some origin) : graph.Has key origin := by
  rcases Option.map_eq_some_iff.1 known with ⟨node, found, rfl⟩
  rcases Option.bind_eq_some_iff.1 found with ⟨position, indexed, stored⟩
  rcases consistent.placed key position indexed with ⟨created, identity⟩
  have same : some (node.key, node.origin) = some (key, created) :=
    (congrArg (Option.map _) stored).symm.trans identity
  cases same
  exact ⟨position, identity⟩

/-- The edges of a key are those at its position. -/
theorem listed_at (found : graph.identity? position = some (key, origin)) :
    graph.predecessors key = graph.keysAt (graph.predecessorsAt position) ∧
      graph.successors key = graph.keysAt (graph.successorsAt position) ∧
      graph.contributors key =
        ((graph.predecessorsAt position).filter graph.isPhiInputAt).filterMap graph.carriedAt := by
  unfold predecessors successors contributors node?
  rw [consistent.indexed position key origin found]
  exact ⟨rfl, rfl, rfl⟩

/-- What has edges has a node. -/
theorem identity_of_listed
    (listed : graph.predecessors key ≠ [] ∨ graph.successors key ≠ []) :
    ∃ position origin, graph.identity? position = some (key, origin) := by
  unfold predecessors successors node? at listed
  cases indexed : graph.position? key with
  | none =>
      rw [indexed] at listed
      rcases listed with nothing | nothing <;> exact absurd rfl nothing
  | some position =>
      rcases consistent.placed key position indexed with ⟨origin, found⟩
      exact ⟨position, origin, found⟩

end Consistent

namespace Sound

variable {key other : VersionKey} {origin : VersionOrigin} {position : Nat} (sound : graph.Sound)

include sound

private theorem nodup_keys : graph.keys.Nodup := by
  refine List.pairwise_iff_getElem.2 fun first second inFirst inSecond less same => ?_
  have left := graph.getElem?_keys first
  have right := graph.getElem?_keys second
  rw [List.getElem?_eq_getElem inFirst] at left
  rw [List.getElem?_eq_getElem inSecond] at right
  rcases Option.map_eq_some_iff.1 left.symm with ⟨⟨key, _⟩, atFirst, named⟩
  rcases Option.map_eq_some_iff.1 right.symm with ⟨⟨other, _⟩, atSecond, otherNamed⟩
  obtain rfl : key = other := named.trans (same.trans otherNamed.symm)
  have equal := (sound.indexed first _ _ atFirst).symm.trans (sound.indexed second _ _ atSecond)
  exact absurd (Option.some.inj equal) (Nat.ne_of_lt less)

theorem has_of_origin (known : graph.origin? key = some origin) : graph.Has key origin :=
  sound.consistent.has_of_origin known

theorem listed_at (found : graph.identity? position = some (key, origin)) :
    graph.predecessors key = graph.keysAt (graph.predecessorsAt position) ∧
      graph.successors key = graph.keysAt (graph.successorsAt position) ∧
      graph.contributors key =
        ((graph.predecessorsAt position).filter graph.isPhiInputAt).filterMap graph.carriedAt :=
  sound.consistent.listed_at found

/-- Edges join versions of one slot. -/
theorem slot_of_listed (listed : other ∈ graph.predecessors key ∨ other ∈ graph.successors key) :
    other.slot = key.slot := by
  rcases sound.consistent.identity_of_listed (listed.imp List.ne_nil_of_mem List.ne_nil_of_mem) with
    ⟨position, origin, found⟩
  have at' := sound.listed_at found
  rw [at'.1, at'.2.1, mem_keysAt, mem_keysAt] at listed
  rcases listed with ⟨place, edge, named⟩ | ⟨place, edge, named⟩
  · rcases sound.level place position edge with ⟨left, right, atLeft, atRight, level⟩
    rw [atLeft] at named
    rw [found] at atRight
    cases named
    cases atRight
    exact level
  · rcases sound.level position place ((sound.linked position place).1 edge) with
      ⟨left, right, atLeft, atRight, level⟩
    rw [found] at atLeft
    rw [atRight] at named
    cases named
    cases atLeft
    exact level.symm

end Sound

/-! ## The shape -/

/-- The shape of a graph of usage versions. A phi input leads from one version that is none, and to
one other at most. Any other version has one predecessor of its own at most, or else one phi input
for each of its contributors. -/
structure WellShaped (graph : VersionGraph) : Prop where
  distinct : graph.keys.Nodup
  level : ∀ key other, other ∈ graph.predecessors key ∨ other ∈ graph.successors key →
    other.slot = key.slot
  input : ∀ key, graph.origin? key = some .phiInput →
    (∃ source, graph.predecessors key = [source] ∧ graph.origin? source ≠ some .phiInput) ∧
      (graph.successors key).length ≤ 1
  plain : ∀ key origin, graph.origin? key = some origin → origin ≠ .phiInput →
    ((graph.predecessors key).length ≤ 1 ∧
      ∀ source ∈ graph.predecessors key, graph.origin? source ≠ some .phiInput) ∨
    ((∀ source ∈ graph.predecessors key, graph.origin? source = some .phiInput) ∧
      (graph.contributors key).Nodup ∧
      (graph.contributors key).length = (graph.predecessors key).length)

/-- The origins of predecessors are read off their positions. -/
private theorem Sound.origin_of_mem (sound : graph.Sound) {key source : VersionKey}
    {origin : VersionOrigin} {position : Nat}
    (found : graph.identity? position = some (key, origin))
    (member : source ∈ graph.predecessors key) :
    ∃ place ∈ graph.predecessorsAt position,
      (graph.isPhiInputAt place = true ↔ graph.origin? source = some .phiInput) := by
  rw [(sound.listed_at found).1, mem_keysAt] at member
  rcases member with ⟨place, edge, named⟩
  rcases Option.map_eq_some_iff.1 named with ⟨⟨_, created⟩, there, rfl⟩
  refine ⟨place, edge, ?_⟩
  rw [isPhiInputAt_iff there, sound.origin?_of_has ⟨place, there⟩, Option.some_inj]

theorem Shaped.wellShaped (shaped : graph.Shaped known reads) : graph.WellShaped where
  distinct := shaped.sound.nodup_keys
  level := fun key other listed => shaped.sound.slot_of_listed listed
  input := by
    intro key isInput
    rcases shaped.sound.has_of_origin isInput with ⟨way, found⟩
    have passing := shaped.input way key found
    have listed := shaped.sound.listed_at found
    rcases passing.source with ⟨place, only, plain⟩
    have edge : place ∈ graph.predecessorsAt way := by
      rw [only]
      exact List.mem_cons_self
    rcases shaped.sound.level place way edge with ⟨⟨source, created⟩, -, there, -⟩
    refine ⟨⟨source, ?_, fun wrong => ?_⟩, ?_⟩
    · rw [listed.1, only, keysAt_cons there]
      rfl
    · rw [shaped.sound.origin?_of_has ⟨place, there⟩] at wrong
      cases wrong
      exact Bool.eq_false_iff.1 plain ((isPhiInputAt_iff there).2 rfl)
    · rw [listed.2.1]
      exact Nat.le_trans (List.length_filterMap_le _ _) passing.outlet
  plain := by
    intro key origin known plain
    rcases shaped.sound.has_of_origin known with ⟨node, found⟩
    have listed := shaped.sound.listed_at found
    rcases shaped.node node key origin found plain with single | merging
    · refine .inl ⟨?_, fun source member => ?_⟩
      · rw [listed.1]
        exact Nat.le_trans (List.length_filterMap_le _ _) single.few
      · rcases shaped.sound.origin_of_mem found member with ⟨place, edge, isInput⟩
        exact fun wrong =>
          Bool.false_ne_true ((single.plain place edge).symm.trans (isInput.2 wrong))
    · refine .inr ⟨fun source member => ?_, ?_⟩
      · rcases shaped.sound.origin_of_mem found member with ⟨place, edge, isInput⟩
        exact isInput.1 (merging.inputs place edge)
      · -- Every input carries a version, and every predecessor has a key.
        have carries : ∀ place ∈ graph.predecessorsAt node,
            ∃ source, graph.carriedAt place = some source := by
          intro place edge
          rcases shaped.sound.level place node edge with ⟨⟨input, created⟩, -, there, -⟩
          have isInput := merging.inputs place edge
          obtain rfl := (isPhiInputAt_iff there).1 isInput
          rcases (shaped.input place input there).source with ⟨source, only, -⟩
          have into : source ∈ graph.predecessorsAt place := by
            rw [only]
            exact List.mem_cons_self
          rcases shaped.sound.level source place into with ⟨left, -, atSource, -⟩
          exact ⟨left.1, by rw [carriedAt_eq, only, List.head?_cons, Option.bind_some, atSource]; rfl⟩
        have named : ∀ place ∈ graph.predecessorsAt node,
            ∃ key, (graph.nodes[place]?).map VersionNode.key = some key := by
          intro place edge
          rcases shaped.sound.level place node edge with ⟨left, -, there, -⟩
          rcases Option.map_eq_some_iff.1 there with ⟨stored, inside, -⟩
          exact ⟨stored.key, congrArg _ inside⟩
        have contributors : graph.contributors key =
            (graph.predecessorsAt node).filterMap graph.carriedAt := by
          rw [listed.2.2, List.filter_eq_self.2 merging.inputs]
        have carried := map_some_filterMap carries
        constructor
        · rw [contributors]
          have apart := merging.apart
          rw [← carried] at apart
          exact (List.pairwise_map.1 apart).imp fun apart same => apart (congrArg some same)
        · have left := congrArg List.length carried
          have right := congrArg List.length (map_some_filterMap named)
          rw [List.length_map, List.length_map] at left right
          rw [contributors, listed.1, left]
          exact right.symm

end VersionGraph

end SlotVersioning
