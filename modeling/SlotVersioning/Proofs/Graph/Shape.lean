import SlotVersioning.Proofs.Graph.Merging

/-!
# The shape of version graphs

In a graph of usage versions a phi input has one predecessor and at most one successor. Any other
node has at most one predecessor of its own, or else phi inputs that carry different versions
(`Shaped`). Each edit that a run makes keeps this shape; the graph is followed from one state of the
run to the next in which every numbered version has a node.
-/

namespace SlotVersioning

namespace VersionGraph

variable {graph next : VersionGraph} {known more : Slot → Nat} {reads : VersionKey → Prop}

/-- The node has at most one predecessor, which is no phi input. -/
structure Single (graph : VersionGraph) (node : Nat) : Prop where
  few : (graph.predecessorsAt node).length ≤ 1
  plain : ∀ predecessor ∈ graph.predecessorsAt node, graph.isPhiInputAt predecessor = false

/-- Into the node flow phi inputs that carry different versions. -/
structure Merging (graph : VersionGraph) (node : Nat) : Prop where
  inputs : ∀ predecessor ∈ graph.predecessorsAt node, graph.isPhiInputAt predecessor = true
  apart : ((graph.predecessorsAt node).map graph.carriedAt).Nodup

/-- One predecessor that is no phi input, and at most one successor. -/
structure Passing (graph : VersionGraph) (way : Nat) : Prop where
  source : ∃ source, graph.predecessorsAt way = [source] ∧ graph.isPhiInputAt source = false
  outlet : (graph.successorsAt way).length ≤ 1

/-- The versions up to the known ones have nodes, and among them only the ones of reads and the phi
inputs have predecessors, in the shape of single or merged versions. -/
structure Shaped (graph : VersionGraph) (known : Slot → Nat) (reads : VersionKey → Prop) :
    Prop where
  sound : graph.Sound
  complete : ∀ slot version, 0 ≤ slot →
    ((∃ origin, graph.Has ⟨slot, version⟩ origin) ↔ 1 ≤ version ∧ version ≤ known slot)
  input : ∀ way key, graph.identity? way = some (key, .phiInput) → graph.Passing way
  node : ∀ node key origin, graph.identity? node = some (key, origin) → origin ≠ .phiInput →
    graph.Single node ∨ graph.Merging node
  wired : ∀ node key origin, graph.identity? node = some (key, origin) →
    graph.predecessorsAt node ≠ [] → 0 ≤ key.slot ∧ (origin = .phiInput ∨ reads key)
  fields : ∀ key, graph.Has key .field → key.slot < 0

/-! ## Nodes that look the same -/

/-- Nodes stay, and phi inputs keep their predecessors. -/
structure Retains (before after : VersionGraph) : Prop where
  identity : ∀ position identity, before.identity? position = some identity →
    after.identity? position = some identity
  predecessors : ∀ position, before.isPhiInputAt position = true →
    after.predecessorsAt position = before.predecessorsAt position

namespace Retains

variable {before after : VersionGraph}

theorem isPhiInputAt (retains : Retains before after) {position : Nat}
    {identity : VersionKey × VersionOrigin} (found : before.identity? position = some identity) :
    after.isPhiInputAt position = before.isPhiInputAt position :=
  isPhiInputAt_congr ((retains.identity position identity found).trans found.symm)

theorem carriedAt (retains : Retains before after) (sound : before.Sound) {way : Nat}
    (isInput : before.isPhiInputAt way = true) : after.carriedAt way = before.carriedAt way := by
  rw [carriedAt_eq, carriedAt_eq, retains.predecessors way isInput]
  cases head : (before.predecessorsAt way).head? with
  | none => rfl
  | some first =>
      rcases sound.level first way (List.mem_of_head? head) with ⟨left, -, atFirst, -⟩
      rw [Option.bind_some, Option.bind_some, atFirst, retains.identity first left atFirst]

variable (retains : Retains before after) (sound : before.Sound) {node : Nat}
  (same : after.predecessorsAt node = before.predecessorsAt node)

include retains sound same

private theorem single (single : before.Single node) : after.Single node := by
  refine ⟨same ▸ single.few, fun predecessor member => ?_⟩
  rw [same] at member
  rcases sound.level predecessor node member with ⟨left, -, found, -⟩
  rw [retains.isPhiInputAt found]
  exact single.plain predecessor member

private theorem merging (merging : before.Merging node) : after.Merging node := by
  have inputs : ∀ predecessor ∈ before.predecessorsAt node,
      after.isPhiInputAt predecessor = true := by
    intro predecessor member
    rcases sound.level predecessor node member with ⟨left, -, found, -⟩
    rw [retains.isPhiInputAt found]
    exact merging.inputs predecessor member
  refine ⟨by rw [same]; exact inputs, ?_⟩
  have carried : (before.predecessorsAt node).map after.carriedAt =
      (before.predecessorsAt node).map before.carriedAt :=
    List.map_congr_left fun predecessor member =>
      retains.carriedAt sound (merging.inputs predecessor member)
  rw [same, carried]
  exact merging.apart

theorem passing (passing : before.Passing node)
    (fewer : (after.successorsAt node).length ≤ 1) : after.Passing node := by
  rcases passing.source with ⟨source, only, plain⟩
  refine ⟨⟨source, same.trans only, ?_⟩, fewer⟩
  have member : source ∈ before.predecessorsAt node := by
    rw [only]
    exact List.mem_cons_self
  rcases sound.level source node member with ⟨left, -, found, -⟩
  rw [retains.isPhiInputAt found]
  exact plain

end Retains

/-- A node with the shape that it had. -/
theorem Shaped.node_of_retains (shaped : graph.Shaped known reads) (retains : Retains graph next)
    {position : Nat} {key : VersionKey} {origin : VersionOrigin}
    (found : graph.identity? position = some (key, origin)) (plain : origin ≠ .phiInput)
    (same : next.predecessorsAt position = graph.predecessorsAt position) :
    next.Single position ∨ next.Merging position :=
  (shaped.node position key origin found plain).imp (retains.single shaped.sound same)
    (retains.merging shaped.sound same)

theorem Shaped.mono {others : VersionKey → Prop} (shaped : graph.Shaped known reads)
    (wider : ∀ key, reads key → others key) : graph.Shaped known others :=
  { shaped with
    wired := fun node key origin found linked =>
      (shaped.wired node key origin found linked).imp_right fun kind => kind.imp_right (wider key) }

theorem Shaped.of_similar (shaped : graph.Shaped known reads) (similar : Similar graph next) :
    next.Shaped known reads := by
  have retains : Retains graph next :=
    ⟨fun position _ found => (similar.identity position).trans found,
      fun position _ => similar.predecessors position⟩
  constructor
  case sound => exact similar.sound shaped.sound
  case complete =>
    intro slot version ordinary
    rw [← shaped.complete slot version ordinary]
    unfold Has
    simp only [similar.identity]
  case input =>
    intro way key found
    rw [similar.identity] at found
    have passing := shaped.input way key found
    refine retains.passing shaped.sound (similar.predecessors way) passing ?_
    rw [similar.successors]
    exact passing.outlet
  case node =>
    intro node key origin found plain
    rw [similar.identity] at found
    exact shaped.node_of_retains retains found plain (similar.predecessors node)
  case wired =>
    intro node key origin found linked
    rw [similar.identity] at found
    rw [similar.predecessors] at linked
    exact shaped.wired node key origin found linked
  case fields =>
    rintro key ⟨position, found⟩
    rw [similar.identity] at found
    exact shaped.fields key ⟨position, found⟩

/-! ## Plain versions -/

/-- The version has a node that is no phi input. -/
def Plain (graph : VersionGraph) (key : VersionKey) : Prop :=
  ∃ origin, graph.Has key origin ∧ origin ≠ .phiInput

theorem Plain.of_identity {key : VersionKey} (plain : graph.Plain key)
    (identity : ∀ position identity, graph.identity? position = some identity →
      next.identity? position = some identity) : next.Plain key := by
  rcases plain with ⟨origin, ⟨position, found⟩, noInput⟩
  exact ⟨origin, ⟨position, identity position _ found⟩, noInput⟩

/-- What flows into a version is plain. -/
theorem Shaped.plain_source (shaped : graph.Shaped known reads) {target : Nat} {key : VersionKey}
    {origin : VersionOrigin} (found : graph.identity? target = some (key, origin))
    {version : Version} (member : version ∈ graph.sourcesAt target) :
    graph.Plain ⟨key.slot, version⟩ := by
  rcases shaped.sound.flowsTo_of_mem_sourcesAt found member with ⟨predecessor, edge, brings⟩
  rcases shaped.sound.level predecessor target edge with ⟨⟨other, kind⟩, -, there, -⟩
  unfold broughtBy? at brings
  split at brings
  · next isInput =>
      obtain rfl := (isPhiInputAt_iff there).1 isInput
      rcases (shaped.input predecessor other there).source with ⟨source, only, plain⟩
      rw [carriedAt_eq, only, List.head?_cons, Option.bind_some] at brings
      rcases Option.map_eq_some_iff.1 brings with ⟨⟨_, created⟩, atSource, rfl⟩
      refine ⟨created, ⟨source, atSource⟩, ?_⟩
      rintro rfl
      exact Bool.eq_false_iff.1 plain ((isPhiInputAt_iff atSource).2 rfl)
  · next notInput =>
      rw [there] at brings
      cases brings
      refine ⟨kind, ⟨predecessor, there⟩, ?_⟩
      exact fun isInput => notInput ((isPhiInputAt_iff there).2 isInput)

/-! ## A new node -/

/-- One more version is known. -/
def Learns (key : VersionKey) (known more : Slot → Nat) : Prop :=
  ∀ slot version, 0 ≤ slot → ((1 ≤ version ∧ version ≤ more slot) ↔
    key = ⟨slot, version⟩ ∨ (1 ≤ version ∧ version ≤ known slot))

section

variable {key : VersionKey} {origin : VersionOrigin} {place : Nat}

/-- A known version that gets a node is the next one of its slot. -/
theorem complete_of_identity
    (complete : ∀ slot version, 0 ≤ slot →
      ((∃ origin, graph.Has ⟨slot, version⟩ origin) ↔ 1 ≤ version ∧ version ≤ known slot))
    (identity : ∀ position, next.identity? position =
      if position = place then some (key, origin) else graph.identity? position)
    (nothing : graph.identity? place = none) (learns : Learns key known more) (slot : Slot)
    (version : Version) (ordinary : 0 ≤ slot) :
    (∃ origin, next.Has ⟨slot, version⟩ origin) ↔ 1 ≤ version ∧ version ≤ more slot := by
  rw [learns slot version ordinary, ← complete slot version ordinary]
  constructor
  · rintro ⟨created, position, found⟩
    rw [identity] at found
    split at found
    · cases found
      exact .inl rfl
    · exact .inr ⟨created, position, found⟩
  · rintro (rfl | ⟨created, position, found⟩)
    · exact ⟨origin, place, (identity place).trans (if_pos rfl)⟩
    · refine ⟨created, position, ?_⟩
      rw [identity, if_neg]
      · exact found
      · rintro rfl
        exact nomatch nothing.symm.trans found

theorem Shaped.added (shaped : graph.Shaped known reads) (added : Added graph next key origin)
    (unknown : graph.position? key = none) (plain : origin ≠ .phiInput)
    (field : origin = .field → key.slot < 0) (learns : Learns key known more) :
    next.Shaped more reads := by
  have retains : Retains graph next :=
    ⟨(added.rewires key).identity, fun position _ => added.predecessors position⟩
  have stays {position : Nat} {other : VersionKey} {created : VersionOrigin}
      (found : next.identity? position = some (other, created)) :
      position = graph.size ∧ created = origin ∨
        graph.identity? position = some (other, created) := by
    rw [added.identity] at found
    split at found
    · next here =>
        cases found
        exact .inl ⟨here, rfl⟩
    · exact .inr found
  refine ⟨added.sound unknown shaped.sound,
    complete_of_identity shaped.complete added.identity (identity?_size graph) learns, ?_, ?_, ?_,
    ?_⟩
  · intro way other found
    rcases stays found with ⟨-, rfl⟩ | before
    · exact absurd rfl plain
    · have passing := shaped.input way other before
      refine retains.passing shaped.sound (added.predecessors way) passing ?_
      rw [added.successors]
      exact passing.outlet
  · intro node other created found ordinary
    rcases stays found with ⟨rfl, -⟩ | before
    · left
      constructor <;> rw [added.predecessors, predecessorsAt_size]
      · exact Nat.zero_le 1
      · exact fun _ member => nomatch member
    · exact shaped.node_of_retains retains before ordinary (added.predecessors node)
  · intro node other created found linked
    rw [added.predecessors] at linked
    rcases stays found with ⟨rfl, -⟩ | before
    · exact absurd (predecessorsAt_size graph) linked
    · exact shaped.wired node other created before linked
  · rintro other ⟨position, found⟩
    rw [added.identity] at found
    split at found
    · cases found
      exact field rfl
    · exact shaped.fields other ⟨position, found⟩

/-- A version that has a node already may become known. -/
private theorem Shaped.learn (shaped : graph.Shaped known reads)
    (found : ∃ origin, graph.Has key origin) (learns : Learns key known more) :
    graph.Shaped more reads :=
  { shaped with
    complete := by
      intro slot version ordinary
      rw [learns slot version ordinary, ← shaped.complete slot version ordinary]
      constructor
      · exact .inr
      · rintro (rfl | has)
        · exact found
        · exact has }

theorem Shaped.ensure (shaped : graph.Shaped known reads) (debugName : Option DebugName)
    (plain : origin ≠ .phiInput) (field : origin = .field → key.slot < 0)
    (learns : Learns key known more) :
    (graph.ensure key origin debugName).1.Shaped more reads := by
  cases position : graph.position? key with
  | none =>
      exact shaped.added (ensure_unknown origin debugName position).2 position plain field learns
  | some place =>
      rcases shaped.sound.placed key place position with ⟨created, found⟩
      exact (shaped.of_similar (ensure_known origin debugName position).2).learn
        ⟨created, place, ((ensure_known origin debugName position).2.identity place).trans found⟩
        learns

/-- The version of a read follows the one version that reaches it. -/
theorem Shaped.link (shaped : graph.Shaped known reads) {source : VersionKey}
    {created : VersionOrigin} {way : Nat}
    (atPlace : graph.identity? place = some (source, created)) (sourcePlain : created ≠ .phiInput)
    (atWay : graph.identity? way = some (key, origin)) (plain : origin ≠ .phiInput)
    (level : source.slot = key.slot) (alone : graph.predecessorsAt way = [])
    (ordinary : 0 ≤ key.slot) (isRead : reads key) :
    (graph.link place way).Shaped known reads := by
  have absent : way ∉ graph.successorsAt place := by
    rw [shaped.sound.linked, alone]
    exact List.not_mem_nil
  have edges := edges_link absent atPlace atWay
  have predecessors (position : Nat) (different : position ≠ way) :
      (graph.link place way).predecessorsAt position = graph.predecessorsAt position := by
    rw [edges.1, if_neg different.symm]
  have apart (position : Nat) (isInput : graph.isPhiInputAt position = true) : position ≠ way :=
    ne_of_isPhiInputAt isInput (isPhiInputAt_eq_false atWay plain)
  have sourceNoInput := isPhiInputAt_eq_false atPlace sourcePlain
  have retains : Retains graph (graph.link place way) :=
    ⟨fun position _ found => (identity?_link graph place way position).trans found,
      fun position isInput => predecessors position (apart position isInput)⟩
  constructor
  case sound => exact shaped.sound.link atPlace atWay level
  case complete =>
    intro slot version nonnegative
    rw [← shaped.complete slot version nonnegative]
    unfold Has
    simp only [identity?_link]
  case input =>
    intro position other found
    rw [identity?_link] at found
    have isInput := (isPhiInputAt_iff found).2 rfl
    have passing := shaped.input position other found
    refine retains.passing shaped.sound (predecessors position (apart position isInput)) passing ?_
    rw [edges.2, if_neg (ne_of_isPhiInputAt isInput sourceNoInput).symm]
    exact passing.outlet
  case node =>
    intro position other kind found different
    rw [identity?_link] at found
    by_cases here : position = way
    · left
      subst here
      have only : (graph.link place position).predecessorsAt position = [place] := by
        rw [edges.1, if_pos rfl, alone]
        rfl
      refine ⟨Nat.le_of_eq (congrArg List.length only), fun predecessor member => ?_⟩
      rw [only, List.mem_singleton] at member
      subst member
      rw [retains.isPhiInputAt atPlace]
      exact sourceNoInput
    · exact shaped.node_of_retains retains found different (predecessors position here)
  case wired =>
    intro position other kind found linked
    rw [identity?_link] at found
    by_cases here : position = way
    · subst here
      rw [atWay] at found
      cases found
      exact ⟨ordinary, .inr isRead⟩
    · rw [predecessors position here] at linked
      exact shaped.wired position other kind found linked
  case fields =>
    rintro other ⟨position, found⟩
    rw [identity?_link] at found
    exact shaped.fields other ⟨position, found⟩

end

end VersionGraph

end SlotVersioning
