import SlotVersioning.Proofs.Graph.Feeding
import SlotVersioning.Proofs.Graph.Keyed

/-!
# Tethered phantoms

A phantom is tethered to the version that was incremented: its one successor is a phi input, and that
one leads into the incremented version only (`Tether`). A phantom that was just added is loose. Edits
of the graph keep the tether as long as they link nothing else to the phantom, and spare its input
when they prune those of its owner.
-/

namespace SlotVersioning

namespace VersionGraph

/-- The phantom at `place` leads to the phi input at `way`, and this one to the owner at `target`. -/
structure Tether (graph : VersionGraph) (phantom owner : VersionKey) (place way target : Nat) :
    Prop where
  source : graph.identity? place = some (phantom, .phantom)
  outlet : graph.successorsAt place = [way]
  input : ∃ input, graph.identity? way = some (input, .phiInput)
  leads : graph.successorsAt way = [target]
  sink : ∃ origin, graph.identity? target = some (owner, origin) ∧ origin ≠ .phiInput

/-- The phantom flows through an input of its own into its owner, and nowhere else. -/
def Tethers (graph : VersionGraph) (phantom owner : VersionKey) : Prop :=
  ∃ place way target, graph.Tether phantom owner place way target

/-- The phantom leads nowhere yet. -/
def Loose (graph : VersionGraph) (phantom : VersionKey) : Prop :=
  ∃ place, graph.identity? place = some (phantom, .phantom) ∧ graph.successorsAt place = []

/-- Nodes stay, and lead to where they led. -/
structure Steady (before after : VersionGraph) : Prop where
  identity : ∀ position identity, before.identity? position = some identity →
    after.identity? position = some identity
  successors : ∀ position, after.successorsAt position = before.successorsAt position

variable {graph next : VersionGraph} {known : Slot → Nat} {reads : VersionKey → Prop}
  {phantom owner key source input : VersionKey} {origin created : VersionOrigin}
  {place way target position node : Nat}

namespace Steady

theorem of_similar (similar : Similar graph next) : Steady graph next :=
  ⟨fun position _ found => (similar.identity position).trans found, similar.successors⟩

theorem of_added (added : Added graph next key origin) : Steady graph next :=
  ⟨(added.rewires key).identity, added.successors⟩

theorem trans {last : VersionGraph} (first : Steady graph next) (second : Steady next last) :
    Steady graph last :=
  ⟨fun position identity found => second.identity position identity
      (first.identity position identity found),
    fun position => (second.successors position).trans (first.successors position)⟩

theorem ensure (graph : VersionGraph) (key : VersionKey) (origin : VersionOrigin)
    (debugName : Option DebugName) : Steady graph (graph.ensure key origin debugName).1 := by
  cases known : graph.position? key with
  | some place => exact of_similar (ensure_known origin debugName known).2
  | none => exact of_added (ensure_unknown origin debugName known).2

end Steady

/-! ## What a version leads to -/

/-- A phi input that carries a version is led to by its node. -/
theorem Sound.mem_successorsAt_of_carried (sound : graph.Sound)
    (found : graph.identity? place = some (source, origin))
    (carries : graph.carriedAt position = some source) : position ∈ graph.successorsAt place := by
  rw [carriedAt_eq] at carries
  rcases Option.bind_eq_some_iff.1 carries with ⟨first, head, named⟩
  rcases Option.map_eq_some_iff.1 named with ⟨⟨_, other⟩, atFirst, rfl⟩
  obtain rfl : first = place :=
    Option.some.inj ((sound.indexed _ _ _ atFirst).symm.trans (sound.indexed _ _ _ found))
  exact (sound.linked first position).2 (List.mem_of_head? head)

/-! ## Loose phantoms -/

namespace Loose

theorem of_steady (loose : graph.Loose phantom) (steady : Steady graph next) :
    next.Loose phantom := by
  rcases loose with ⟨place, found, nothing⟩
  exact ⟨place, steady.identity place _ found, (steady.successors place).trans nothing⟩

theorem of_added (added : Added graph next phantom .phantom) : next.Loose phantom :=
  ⟨graph.size, (added.identity _).trans (if_pos rfl),
    (added.successors _).trans (successorsAt_size graph)⟩

variable {pruned : VersionGraph} {wanted : Version → Bool} {wired : VersionSet}

theorem of_trimming (loose : graph.Loose phantom)
    (trimming : Trimming graph node wanted [] pruned wired) : pruned.Loose phantom := by
  rcases loose with ⟨place, found, nothing⟩
  refine ⟨place, (trimming.pruning.identity place).trans found, ?_⟩
  exact List.eq_nil_of_sublist_nil (nothing ▸ trimming.outlets place)

/-- No input brings in a phantom that is loose. -/
theorem not_mem_wired (loose : graph.Loose phantom) (sound : graph.Sound)
    (found : graph.identity? node = some (key, origin)) (level : phantom.slot = key.slot)
    (trimming : Trimming graph node wanted [] pruned wired) : phantom.version ∉ wired := by
  intro member
  rcases loose with ⟨place, atPlace, nothing⟩
  rcases trimming.pruning.carried_of_wired sound found member with ⟨predecessor, -, -, carries⟩
  rw [← level] at carries
  have led := sound.mem_successorsAt_of_carried atPlace carries
  rw [nothing] at led
  exact nomatch led

/-- Nothing changes for a phantom when an input from another version is inserted. -/
theorem of_inserted (loose : graph.Loose phantom)
    (inserted : Inserted input place way target graph next)
    (atPlace : graph.identity? place = some (source, created)) (different : source ≠ phantom) :
    next.Loose phantom := by
  rcases loose with ⟨own, found, nothing⟩
  refine ⟨own, inserted.stays found, ?_⟩
  rw [inserted.successors, if_neg (inserted.apart found), if_neg]
  · exact nothing
  · rintro rfl
    rw [found] at atPlace
    cases atPlace
    exact different rfl

/-- The input that is inserted for a loose phantom is its tether. -/
theorem tethers (loose : graph.Loose phantom) (sound : graph.Sound)
    (inserted : Inserted input place way target graph next)
    (atPlace : graph.identity? place = some (phantom, created))
    (sink : graph.identity? target = some (owner, origin)) (plain : origin ≠ .phiInput) :
    next.Tethers phantom owner := by
  rcases loose with ⟨own, found, nothing⟩
  obtain rfl : own = place :=
    Option.some.inj ((sound.indexed _ _ _ found).symm.trans (sound.indexed _ _ _ atPlace))
  refine ⟨own, way, target, inserted.stays found, ?_,
    ⟨input, (inserted.identity way).trans (if_pos rfl)⟩, (inserted.successors way).trans (if_pos rfl),
    origin, inserted.stays sink, plain⟩
  rw [inserted.successors, if_neg (inserted.apart found), if_pos rfl, nothing]
  rfl

end Loose

/-! ## Tethers that stay -/

namespace Tether

variable (tether : graph.Tether phantom owner place way target)

include tether

/-- A tether stays with the successors of the phantom and of its input. -/
theorem of_outlets (identity : ∀ position identity, graph.identity? position = some identity →
      next.identity? position = some identity)
    (outlet : next.successorsAt place = graph.successorsAt place)
    (leads : next.successorsAt way = graph.successorsAt way) :
    next.Tether phantom owner place way target := by
  rcases tether.input with ⟨input, atWay⟩
  rcases tether.sink with ⟨origin, atTarget, plain⟩
  exact ⟨identity place _ tether.source, outlet.trans tether.outlet, ⟨input, identity way _ atWay⟩,
    leads.trans tether.leads, origin, identity target _ atTarget, plain⟩

theorem of_steady (steady : Steady graph next) : next.Tether phantom owner place way target :=
  tether.of_outlets steady.identity (steady.successors place) (steady.successors way)

/-- The node of another version that is no phi input. -/
theorem apart (atPosition : graph.identity? position = some (source, created))
    (plain : created ≠ .phiInput) (different : source ≠ phantom) :
    position ≠ place ∧ position ≠ way := by
  constructor
  · rintro rfl
    rw [tether.source] at atPosition
    cases atPosition
    exact different rfl
  · rintro rfl
    rcases tether.input with ⟨input, atWay⟩
    rw [atWay] at atPosition
    cases atPosition
    exact plain rfl

theorem of_link (atPosition : graph.identity? position = some (source, created))
    (plain : created ≠ .phiInput) (different : source ≠ phantom)
    (atNode : graph.identity? node = some (key, origin)) :
    (graph.link position node).Tether phantom owner place way target := by
  by_cases present : node ∈ graph.successorsAt position
  · rw [link_present present]
    exact tether
  have edges := (edges_link present atPosition atNode).2
  have apart := tether.apart atPosition plain different
  refine tether.of_outlets (fun other _ found => (identity?_link _ _ _ other).trans found) ?_ ?_
  · rw [edges, if_neg apart.1]
  · rw [edges, if_neg apart.2]

theorem of_inserted {step : Nat} (inserted : Inserted input position step node graph next)
    (atPosition : graph.identity? position = some (source, created)) (plain : created ≠ .phiInput)
    (different : source ≠ phantom) : next.Tether phantom owner place way target := by
  have apart := tether.apart atPosition plain different
  rcases tether.input with ⟨input, atWay⟩
  refine tether.of_outlets (fun _ _ found => inserted.stays found) ?_ ?_
  · rw [inserted.successors, if_neg (inserted.apart tether.source), if_neg apart.1.symm]
  · rw [inserted.successors, if_neg (inserted.apart atWay), if_neg apart.2.symm]

section

variable (shaped : graph.Shaped known reads)

include shaped

/-- The input of a phantom has no other predecessor. -/
theorem inlet : graph.predecessorsAt way = [place] := by
  rcases tether.input with ⟨input, atWay⟩
  rcases (shaped.input way input atWay).source with ⟨source, only, -⟩
  have edge : place ∈ graph.predecessorsAt way := by
    rw [← shaped.sound.linked, tether.outlet]
    exact List.mem_cons_self
  rw [only] at edge ⊢
  rw [List.mem_singleton.1 edge]

theorem carried : graph.carriedAt way = some phantom := by
  rw [carriedAt_eq, tether.inlet shaped, List.head?_cons, Option.bind_some, tether.source]
  rfl

/-- Pruning spares the tether, unless it drops the phantom from what its owner wants. -/
theorem of_trimming {pruned : VersionGraph} {wanted : Version → Bool} {wired : VersionSet}
    (trimming : Trimming graph node wanted [] pruned wired)
    (notInput : graph.isPhiInputAt node = false)
    (spares : node = target → wanted phantom.version = true) :
    pruned.Tether phantom owner place way target := by
  rcases tether.input with ⟨input, atWay⟩
  have isInput := (isPhiInputAt_iff atWay).2 rfl
  have pruning := trimming.pruning
  have inlet : place ∈ pruned.predecessorsAt way := by
    rw [pruning.others way (ne_of_isPhiInputAt isInput notInput), tether.inlet shaped]
    exact List.mem_cons_self
  have fed : way ∈ graph.predecessorsAt target := by
    rw [← shaped.sound.linked, tether.leads]
    exact List.mem_cons_self
  have feeds : way ∈ pruned.predecessorsAt target := by
    by_cases here : node = target
    · subst here
      refine pruning.spared way fed phantom.version (Option.filter_eq_some_iff.2 ⟨?_, spares rfl⟩)
      exact inputSource?_eq_some.2 ⟨isInput, phantom, tether.carried shaped, rfl⟩
    · rw [pruning.others target fun same => here same.symm]
      exact fed
  -- Nothing is added, and what is left is the one edge that was there.
  have only {from? to? : Nat} (outlet : graph.successorsAt from? = [to?])
      (edge : from? ∈ pruned.predecessorsAt to?) :
      pruned.successorsAt from? = graph.successorsAt from? := by
    have fewer := trimming.outlets from?
    have member := (pruning.sound.linked from? to?).2 edge
    rw [outlet] at fewer ⊢
    exact fewer.eq_of_length_le (List.length_pos_of_mem member)
  exact tether.of_outlets (fun position _ found => (pruning.identity position).trans found)
    (only tether.outlet inlet) (only tether.leads feeds)

/-- A tethered phantom flows into no other version. -/
theorem eq_target_of_flowsTo (notInput : graph.isPhiInputAt node = false)
    (flows : graph.FlowsTo phantom node) : node = target := by
  rcases flows with ⟨predecessor, edge, brings⟩
  unfold broughtBy? at brings
  split at brings
  · have led := shaped.sound.mem_successorsAt_of_carried tether.source brings
    rw [tether.outlet, List.mem_singleton] at led
    subst led
    rw [← shaped.sound.linked, tether.leads, List.mem_singleton] at edge
    exact edge
  · rcases Option.map_eq_some_iff.1 brings with ⟨⟨_, created⟩, atPredecessor, rfl⟩
    obtain rfl : predecessor = place := Option.some.inj
      ((shaped.sound.indexed _ _ _ atPredecessor).symm.trans
        (shaped.sound.indexed _ _ _ tether.source))
    rw [← shaped.sound.linked, tether.outlet, List.mem_singleton] at edge
    rcases tether.input with ⟨input, atWay⟩
    rw [edge, (isPhiInputAt_iff atWay).2 rfl] at notInput
    exact nomatch notInput

end

end Tether

/-! ## Tethers by key -/

/-- A phantom flows through one phi input into the version that was incremented, and nowhere else;
so it is a contributor of that version. -/
structure PhantomOf (graph : VersionGraph) (phantom owner : VersionKey) : Prop where
  slot : phantom.slot = owner.slot
  origin : graph.origin? phantom = some .phantom
  way : ∃ input, graph.origin? input = some .phiInput ∧ graph.successors phantom = [input] ∧
    graph.successors input = [owner]
  contributes : phantom ∈ graph.contributors owner

theorem Tethers.phantomOf (tethers : graph.Tethers phantom owner) (shaped : graph.Shaped known reads) :
    graph.PhantomOf phantom owner := by
  rcases tethers with ⟨place, way, target, tether⟩
  have sound := shaped.sound
  rcases tether.input with ⟨input, atWay⟩
  rcases tether.sink with ⟨origin, atTarget, plain⟩
  have outlet : graph.successors phantom = [input] := by
    rw [(sound.listed_at tether.source).2.1, tether.outlet, keysAt_cons atWay]
    rfl
  have leads : graph.successors input = [owner] := by
    rw [(sound.listed_at atWay).2.1, tether.leads, keysAt_cons atTarget]
    rfl
  have fed : way ∈ graph.predecessorsAt target := by
    rw [← sound.linked, tether.leads]
    exact List.mem_cons_self
  refine ⟨?_, sound.origin?_of_has ⟨place, tether.source⟩,
    ⟨input, sound.origin?_of_has ⟨way, atWay⟩, outlet, leads⟩, ?_⟩
  · have first := sound.slot_of_listed (.inr (outlet ▸ List.mem_cons_self))
    have second := sound.slot_of_listed (.inr (leads ▸ List.mem_cons_self))
    exact (second.trans first).symm
  · rw [(sound.listed_at atTarget).2.2]
    exact List.mem_filterMap.2 ⟨way, List.mem_filter.2 ⟨fed, (isPhiInputAt_iff atWay).2 rfl⟩,
      tether.carried shaped⟩

end VersionGraph

end SlotVersioning
