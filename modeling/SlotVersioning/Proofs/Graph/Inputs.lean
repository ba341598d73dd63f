import SlotVersioning.Proofs.Graph.Edges

/-!
# What flows into a version

A version flows into another one over an edge of its own or through a phi input that carries it
(`FlowsTo`). Wiring a version anew changes what flows into that version and into no other
(`Rewires`).
-/

namespace SlotVersioning

namespace VersionGraph

variable {graph : VersionGraph}

theorem isPhiInputAt_eq (graph : VersionGraph) (position : Nat) :
    graph.isPhiInputAt position =
      (graph.identity? position).any fun identity => identity.2 == .phiInput := by
  unfold isPhiInputAt identity?
  cases graph.nodes[position]? <;> rfl

theorem isPhiInputAt_congr {left right : VersionGraph} {position : Nat}
    (same : left.identity? position = right.identity? position) :
    left.isPhiInputAt position = right.isPhiInputAt position := by
  rw [isPhiInputAt_eq, isPhiInputAt_eq, same]

section

variable {position : Nat} {key : VersionKey} {origin : VersionOrigin}

theorem isPhiInputAt_iff (found : graph.identity? position = some (key, origin)) :
    graph.isPhiInputAt position = true ↔ origin = .phiInput := by
  rw [isPhiInputAt_eq, found]
  exact beq_iff_eq

theorem isPhiInputAt_eq_false (found : graph.identity? position = some (key, origin))
    (plain : origin ≠ .phiInput) : graph.isPhiInputAt position = false :=
  Bool.eq_false_iff.2 fun isInput => plain ((isPhiInputAt_iff found).1 isInput)

theorem ne_of_isPhiInputAt {other : Nat} (isInput : graph.isPhiInputAt position = true)
    (notInput : graph.isPhiInputAt other = false) : position ≠ other := by
  rintro rfl
  exact Bool.false_ne_true (notInput.symm.trans isInput)

end

theorem carriedAt_eq (graph : VersionGraph) (position : Nat) :
    graph.carriedAt position =
      (graph.predecessorsAt position).head?.bind fun first =>
        (graph.identity? first).map Prod.fst := by
  unfold carriedAt identity?
  cases (graph.predecessorsAt position).head? with
  | none => rfl
  | some first =>
      simp only [Option.bind_eq_bind, Option.bind_some, Option.map_map]
      cases graph.nodes[first]? <;> rfl

theorem inputSource?_eq_some {position : Nat} {version : Version} :
    graph.inputSource? position = some version ↔ graph.isPhiInputAt position = true ∧
      ∃ source, graph.carriedAt position = some source ∧ source.version = version := by
  rw [inputSource?, Option.ite_none_right_eq_some, Option.map_eq_some_iff]

/-- Other edges into a node that is no phi input change nothing of what phi inputs carry. -/
theorem inputSource?_congr {left right : VersionGraph} {target : Nat}
    (identity : ∀ position, left.identity? position = right.identity? position)
    (others : ∀ position, position ≠ target →
      left.predecessorsAt position = right.predecessorsAt position)
    (plain : right.isPhiInputAt target = false) (position : Nat) :
    left.inputSource? position = right.inputSource? position := by
  unfold inputSource?
  rw [isPhiInputAt_congr (identity position)]
  by_cases here : position = target
  · rw [here, plain]
    rfl
  · rw [carriedAt_eq, carriedAt_eq, others position here]
    simp only [identity]

private theorem keysAt_singleton (graph : VersionGraph) (position : Nat) :
    (graph.keysAt [position]).head? = (graph.identity? position).map Prod.fst := by
  unfold keysAt identity?
  rw [List.filterMap_cons]
  cases graph.nodes[position]? <;> rfl

/-- There is a node for the key that came into being in this way. -/
def Has (graph : VersionGraph) (key : VersionKey) (origin : VersionOrigin) : Prop :=
  ∃ position, graph.identity? position = some (key, origin)

theorem Sound.unique (sound : graph.Sound) {key : VersionKey} {left right : VersionOrigin}
    (first : graph.Has key left) (second : graph.Has key right) : left = right := by
  rcases first with ⟨leftAt, leftFound⟩
  rcases second with ⟨rightAt, rightFound⟩
  have same := (sound.indexed _ _ _ leftFound).symm.trans (sound.indexed _ _ _ rightFound)
  cases same
  rw [leftFound] at rightFound
  cases rightFound
  rfl

theorem Sound.position?_of_has (sound : graph.Sound) {key : VersionKey} {origin : VersionOrigin}
    (has : graph.Has key origin) : ∃ position, graph.position? key = some position := by
  rcases has with ⟨position, found⟩
  exact ⟨position, sound.indexed position key origin found⟩

/-! ## Flow -/

/-- The version that flows on from a node: the one that a phi input carries, or its own. -/
def broughtBy? (graph : VersionGraph) (position : Nat) : Option VersionKey :=
  if graph.isPhiInputAt position then graph.carriedAt position
  else (graph.identity? position).map Prod.fst

theorem broughtBy?_input {position : Nat} (isInput : graph.isPhiInputAt position = true) :
    graph.broughtBy? position = graph.carriedAt position :=
  if_pos isInput

theorem broughtBy?_plain {position : Nat} {key : VersionKey} {origin : VersionOrigin}
    (found : graph.identity? position = some (key, origin)) (plain : origin ≠ .phiInput) :
    graph.broughtBy? position = some key := by
  rw [broughtBy?, if_neg fun isInput => plain ((isPhiInputAt_iff found).1 isInput), found]
  rfl

/-- The version flows into the node. -/
def FlowsTo (graph : VersionGraph) (source : VersionKey) (position : Nat) : Prop :=
  ∃ predecessor ∈ graph.predecessorsAt position, graph.broughtBy? predecessor = some source

private theorem Sound.slot_of_carried (sound : graph.Sound) {position : Nat}
    {identity : VersionKey × VersionOrigin} (found : graph.identity? position = some identity)
    {source : VersionKey} (carried : graph.carriedAt position = some source) :
    (∃ origin, graph.Has source origin) ∧ source.slot = identity.1.slot := by
  rw [carriedAt_eq] at carried
  rcases Option.bind_eq_some_iff.1 carried with ⟨first, head, named⟩
  rcases sound.level first position (List.mem_of_head? head) with
    ⟨left, right, atFirst, atPosition, same⟩
  rw [atFirst] at named
  rw [found] at atPosition
  cases named
  cases atPosition
  exact ⟨⟨left.2, first, atFirst⟩, same⟩

/-- What flows into a node is a version of the same slot that has a node. -/
theorem Sound.of_flowsTo (sound : graph.Sound) {position : Nat}
    {identity : VersionKey × VersionOrigin} (found : graph.identity? position = some identity)
    {source : VersionKey} (flows : graph.FlowsTo source position) :
    (∃ origin, graph.Has source origin) ∧ source.slot = identity.1.slot := by
  rcases flows with ⟨predecessor, member, brings⟩
  rcases sound.level predecessor position member with
    ⟨left, right, atPredecessor, atPosition, same⟩
  rw [found] at atPosition
  cases atPosition
  unfold broughtBy? at brings
  split at brings
  · rcases sound.slot_of_carried atPredecessor brings with ⟨has, slot⟩
    exact ⟨has, slot.trans same⟩
  · rw [atPredecessor] at brings
    cases brings
    exact ⟨⟨left.2, predecessor, atPredecessor⟩, same⟩

theorem mem_foldl_insert {insert? : VersionSet → Nat → VersionSet}
    (brought : Nat → Option VersionKey)
    (inserts : ∀ sources position, insert? sources position =
      (brought position).elim sources fun key => insert key.version sources)
    (positions : List Nat) (sources : VersionSet) {version : Version} :
    version ∈ positions.foldl insert? sources ↔ version ∈ sources ∨
      ∃ source, source.version = version ∧
        ∃ position ∈ positions, brought position = some source := by
  induction positions generalizing sources with
  | nil => simp
  | cons head tail induction =>
      rw [List.foldl_cons, induction, inserts]
      cases brings : brought head with
      | none => simp [brings]
      | some key =>
          simp only [Option.elim_some, VersionSet.mem_insert, List.mem_cons, exists_eq_or_imp,
            brings, Option.some.injEq]
          constructor
          · rintro ((rfl | old) | ⟨source, same, later⟩)
            · exact .inr ⟨key, rfl, .inl rfl⟩
            · exact .inl old
            · exact .inr ⟨source, same, .inr later⟩
          · rintro (old | ⟨source, same, rfl | later⟩)
            · exact .inl (.inr old)
            · exact .inl (.inl same.symm)
            · exact .inr ⟨source, same, later⟩

theorem mem_sourcesAt {position : Nat} {version : Version} :
    version ∈ graph.sourcesAt position ↔
      ∃ source, source.version = version ∧ graph.FlowsTo source position := by
  refine Iff.trans (mem_foldl_insert graph.broughtBy? (fun sources predecessor => ?_)
    (graph.predecessorsAt position) ∅) ?_
  · rw [keysAt_singleton]
    unfold broughtBy?
    dsimp only
    cases (if graph.isPhiInputAt predecessor then graph.carriedAt predecessor
      else (graph.identity? predecessor).map Prod.fst) <;> rfl
  · exact ⟨fun member => member.resolve_left (VersionSet.not_mem_empty version), .inr⟩

theorem Sound.flowsTo_of_mem_sourcesAt (sound : graph.Sound) {position : Nat} {key : VersionKey}
    {origin : VersionOrigin} (found : graph.identity? position = some (key, origin))
    {version : Version} (member : version ∈ graph.sourcesAt position) :
    graph.FlowsTo ⟨key.slot, version⟩ position := by
  rcases mem_sourcesAt.1 member with ⟨source, rfl, flows⟩
  rw [← (sound.of_flowsTo found flows).2]
  exact flows

/-! ## Flow by keys -/

/-- How the node of the key came into being. -/
def origin? (graph : VersionGraph) (key : VersionKey) : Option VersionOrigin :=
  (graph.node? key).map VersionNode.origin

theorem Consistent.origin?_of_has (consistent : graph.Consistent) {key : VersionKey}
    {origin : VersionOrigin} (has : graph.Has key origin) : graph.origin? key = some origin := by
  rcases has with ⟨position, found⟩
  unfold origin? node?
  rw [consistent.indexed position key origin found]
  rcases Option.map_eq_some_iff.1 found with ⟨node, stored, same⟩
  rw [Option.bind_eq_bind, Option.bind_some, stored]
  exact congrArg some (congrArg Prod.snd same)

theorem Sound.origin?_of_has (sound : graph.Sound) {key : VersionKey} {origin : VersionOrigin}
    (has : graph.Has key origin) : graph.origin? key = some origin :=
  sound.consistent.origin?_of_has has

theorem mem_keysAt {positions : List Nat} {key : VersionKey} :
    key ∈ graph.keysAt positions ↔
      ∃ position ∈ positions, (graph.identity? position).map Prod.fst = some key := by
  unfold keysAt identity?
  simp only [List.mem_filterMap, Option.map_map, Function.comp_def]

/-- What flows into the node of a key is a predecessor of the key or a contributor. -/
theorem Sound.flowsTo_iff_listed (sound : graph.Sound) {position : Nat} {key : VersionKey}
    {origin : VersionOrigin} (found : graph.identity? position = some (key, origin))
    {source : VersionKey} (plain : ¬ graph.Has source .phiInput) :
    graph.FlowsTo source position ↔
      source ∈ graph.predecessors key ∨ source ∈ graph.contributors key := by
  have listed : ((graph.node? key).map VersionNode.predecessors).getD [] =
      graph.predecessorsAt position := by
    unfold node?
    rw [sound.indexed position key origin found]
    rfl
  unfold predecessors contributors
  rw [listed, mem_keysAt]
  constructor
  · rintro ⟨predecessor, member, brings⟩
    unfold broughtBy? at brings
    split at brings
    · next isInput =>
        refine .inr (List.mem_filterMap.2 ⟨predecessor, List.mem_filter.2 ⟨member, isInput⟩, ?_⟩)
        exact brings
    · exact .inl ⟨predecessor, member, brings⟩
  · rintro (⟨predecessor, member, named⟩ | contributes)
    · refine ⟨predecessor, member, ?_⟩
      rcases Option.map_eq_some_iff.1 named with ⟨identity, placed, rfl⟩
      refine broughtBy?_plain placed fun isInput => ?_
      exact plain ⟨predecessor, placed.trans (congrArg some (Prod.ext rfl isInput))⟩
    · rcases List.mem_filterMap.1 contributes with ⟨predecessor, member, carries⟩
      rcases List.mem_filter.1 member with ⟨member, isInput⟩
      exact ⟨predecessor, member, (broughtBy?_input isInput).trans carries⟩

/-! ## Wiring one version -/

/-- Nodes stay, and only the edges into the node of the key may change. -/
structure Rewires (key : VersionKey) (before after : VersionGraph) : Prop where
  identity : ∀ position identity, before.identity? position = some identity →
    after.identity? position = some identity
  predecessors : ∀ position other origin, before.identity? position = some (other, origin) →
    other ≠ key → after.predecessorsAt position = before.predecessorsAt position

namespace Rewires

variable {key : VersionKey} {before middle after : VersionGraph}

theorem refl (key : VersionKey) (graph : VersionGraph) : Rewires key graph graph :=
  ⟨fun _ _ found => found, fun _ _ _ _ _ => rfl⟩

theorem trans (left : Rewires key before middle) (right : Rewires key middle after) :
    Rewires key before after where
  identity := fun position identity found =>
    right.identity position identity (left.identity position identity found)
  predecessors := fun position other origin found different =>
    (right.predecessors position other origin (left.identity _ _ found) different).trans
      (left.predecessors position other origin found different)

theorem has (rewires : Rewires key before after) {other : VersionKey} {origin : VersionOrigin}
    (has : before.Has other origin) : after.Has other origin := by
  rcases has with ⟨position, found⟩
  exact ⟨position, rewires.identity position _ found⟩

/-- What a node brings stays the same, unless it is a phi input of the key's own. -/
theorem broughtBy (rewires : Rewires key before after) (sound : before.Sound)
    (plain : ¬ before.Has key .phiInput) {position : Nat}
    {identity : VersionKey × VersionOrigin} (found : before.identity? position = some identity) :
    after.broughtBy? position = before.broughtBy? position := by
  have same := found.trans (rewires.identity position identity found).symm
  unfold broughtBy?
  rw [isPhiInputAt_congr same.symm, ← same]
  split
  · next isInput =>
      have different : identity.1 ≠ key := by
        rintro rfl
        refine plain ⟨position, found.trans (congrArg some (Prod.ext rfl ?_))⟩
        exact (isPhiInputAt_iff found).1 isInput
      rw [carriedAt_eq, carriedAt_eq,
        rewires.predecessors position identity.1 identity.2 found different]
      cases head : (before.predecessorsAt position).head? with
      | none => rfl
      | some first =>
          rcases sound.level first position (List.mem_of_head? head) with ⟨left, _, atFirst, -⟩
          rw [Option.bind_some, Option.bind_some, atFirst, rewires.identity first left atFirst]
  · rfl

/-- What flows into a node with the same predecessors is the same. -/
theorem flowsTo_of_predecessors (rewires : Rewires key before after) (sound : before.Sound)
    (plain : ¬ before.Has key .phiInput) {position : Nat}
    (same : after.predecessorsAt position = before.predecessorsAt position) (source : VersionKey) :
    after.FlowsTo source position ↔ before.FlowsTo source position := by
  have brings : ∀ predecessor ∈ before.predecessorsAt position,
      after.broughtBy? predecessor = before.broughtBy? predecessor := by
    intro predecessor member
    rcases sound.level predecessor position member with ⟨left, _, atPredecessor, -⟩
    exact rewires.broughtBy sound plain atPredecessor
  unfold FlowsTo
  rw [same]
  constructor
  · rintro ⟨predecessor, member, brought⟩
    exact ⟨predecessor, member, (brings predecessor member).symm.trans brought⟩
  · rintro ⟨predecessor, member, brought⟩
    exact ⟨predecessor, member, (brings predecessor member).trans brought⟩

/-- What flows into the other versions stays the same. -/
theorem flowsTo_iff (rewires : Rewires key before after) (sound : before.Sound)
    (plain : ¬ before.Has key .phiInput) {position : Nat} {other : VersionKey}
    {origin : VersionOrigin} (found : before.identity? position = some (other, origin))
    (different : other ≠ key) (source : VersionKey) :
    after.FlowsTo source position ↔ before.FlowsTo source position :=
  rewires.flowsTo_of_predecessors sound plain
    (rewires.predecessors position other origin found different) source

end Rewires

theorem Similar.rewires {before after : VersionGraph} (similar : Similar before after)
    (key : VersionKey) : Rewires key before after where
  identity := fun position _ found => (similar.identity position).trans found
  predecessors := fun position _ _ _ _ => similar.predecessors position

theorem Similar.flowsTo_iff {before after : VersionGraph} (similar : Similar before after)
    (source : VersionKey) (position : Nat) :
    after.FlowsTo source position ↔ before.FlowsTo source position := by
  unfold FlowsTo broughtBy?
  simp only [isPhiInputAt_eq, carriedAt_eq, similar.predecessors, similar.identity]

theorem Added.rewires {before after : VersionGraph} {key : VersionKey} {origin : VersionOrigin}
    (added : Added before after key origin) (other : VersionKey) : Rewires other before after where
  identity := fun _ _ => added.stays
  predecessors := fun position _ _ _ _ => added.predecessors position

theorem Added.flowsTo_iff {before after : VersionGraph} {key : VersionKey}
    {origin : VersionOrigin} (added : Added before after key origin)
    (unknown : before.position? key = none) (sound : before.Sound) (source : VersionKey)
    (position : Nat) : after.FlowsTo source position ↔ before.FlowsTo source position := by
  refine (added.rewires key).flowsTo_of_predecessors sound ?_ (added.predecessors position) source
  intro known
  rcases sound.position?_of_has known with ⟨place, placed⟩
  exact nomatch unknown.symm.trans placed

/-- Nothing flows into a node that was just added. -/
theorem Added.not_flowsTo {before after : VersionGraph} {key : VersionKey}
    {origin : VersionOrigin} (added : Added before after key origin) (source : VersionKey) :
    ¬ after.FlowsTo source before.size := by
  rintro ⟨predecessor, member, -⟩
  rw [added.predecessors, predecessorsAt_size] at member
  exact nomatch member

end VersionGraph

end SlotVersioning
