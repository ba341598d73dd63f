import SlotVersioning.Proofs.Graph.Inputs

/-!
# Which nodes an edit creates

The edits of the version graph create nodes for listed keys and no others, and none of them but the
one that records live facts changes what is recorded. `Creates` says both, and composes.
-/

namespace SlotVersioning

namespace VersionGraph

/-- Some node has these live facts. -/
def Records (graph : VersionGraph) (facts : Facts) : Prop :=
  ∃ (position : Nat) (node : VersionNode), graph.nodes[position]? = some node ∧
    node.live = some facts

/-- The live facts that are recorded at a version. -/
def recorded? (graph : VersionGraph) (key : VersionKey) : Option Facts :=
  (graph.node? key).bind VersionNode.live

/-- The index finds nodes with the keys that it lists. -/
def Placed (graph : VersionGraph) : Prop :=
  ∀ key position, graph.position? key = some position →
    ∃ origin, graph.identity? position = some (key, origin)

/-- All nodes that are new have listed keys and origins, and no live facts. -/
structure Creates (created : List (VersionKey × VersionOrigin)) (before after : VersionGraph) :
    Prop where
  nodes : ∀ key origin, after.Has key origin →
    before.Has key origin ∨ (key, origin) ∈ created
  records : ∀ facts, after.Records facts → before.Records facts
  recorded : ∀ key, after.recorded? key = before.recorded? key
  placed : before.Placed → after.Placed
  known : ∀ key, (before.position? key).isSome → (after.position? key).isSome

namespace Creates

variable {before middle after : VersionGraph} {created more : List (VersionKey × VersionOrigin)}

theorem refl (graph : VersionGraph) : Creates [] graph graph :=
  ⟨fun _ _ has => .inl has, fun _ recorded => recorded, fun _ => rfl, fun placed => placed,
    fun _ known => known⟩

theorem trans (first : Creates created before middle) (second : Creates more middle after) :
    Creates (created ++ more) before after where
  nodes := by
    intro key origin has
    rcases second.nodes key origin has with old | new
    · exact (first.nodes key origin old).imp_right fun member => List.mem_append_left _ member
    · exact .inr (List.mem_append_right _ new)
  records := fun facts recorded => first.records facts (second.records facts recorded)
  recorded := fun key => (second.recorded key).trans (first.recorded key)
  placed := fun placed => second.placed (first.placed placed)
  known := fun key known => second.known key (first.known key known)

end Creates

variable (graph : VersionGraph)

theorem creates_editAt (edited : Nat) {edit : VersionNode → VersionNode}
    (kept : ∀ node, ((edit node).key, (edit node).origin) = (node.key, node.origin))
    (live : ∀ node, (edit node).live = node.live) :
    Creates [] graph (graph.editAt edited edit) where
  nodes := by
    rintro key origin ⟨position, found⟩
    rw [identity?_editAt edited position kept] at found
    exact .inl ⟨position, found⟩
  records := by
    rintro facts ⟨position, node, stored, recorded⟩
    rw [getElem?_editAt] at stored
    split at stored
    · rcases Option.map_eq_some_iff.1 stored with ⟨before, found, rfl⟩
      exact ⟨position, before, found, (live before).symm.trans recorded⟩
    · exact ⟨position, node, stored, recorded⟩
  recorded := by
    intro key
    unfold recorded? node?
    change ((graph.position? key).bind fun position => _).bind _ = _
    cases graph.position? key with
    | none => rfl
    | some position =>
        rw [Option.bind_some, getElem?_editAt]
        split
        · cases found : graph.nodes[position]? with
          | none => simp [found]
          | some node => simpa [found] using live node
        · rfl
  placed := by
    intro placed key position known
    rw [identity?_editAt edited position kept]
    exact placed key position known
  known := fun _ known => known

theorem creates_ensure (key : VersionKey) (origin : VersionOrigin)
    (debugName : Option DebugName) :
    Creates [(key, origin)] graph (graph.ensure key origin debugName).1 := by
  cases known : graph.position? key with
  | some position =>
      have edited : Creates [] graph (graph.editAt position fun node =>
          { node with debugName := node.debugName.or debugName }) :=
        creates_editAt graph position (fun _ => rfl) fun _ => rfl
      unfold ensure
      rw [known]
      exact ⟨fun other made has => .inl ((edited.nodes other made has).resolve_right
        List.not_mem_nil), edited.records, edited.recorded, edited.placed, edited.known⟩
  | none =>
      have added := (ensure_unknown origin debugName known).2
      have pushed := nodes_ensure origin debugName known
      constructor
      case nodes =>
        rintro other made ⟨position, found⟩
        rw [added.identity] at found
        split at found
        · cases found
          exact .inr List.mem_cons_self
        · exact .inl ⟨position, found⟩
      case records =>
        rintro facts ⟨position, node, stored, recorded⟩
        rw [pushed] at stored
        split at stored
        · cases stored
          exact nomatch recorded
        · exact ⟨position, node, stored, recorded⟩
      case recorded =>
        intro other
        unfold recorded? node?
        simp only [added.position, pushed]
        split
        · next same =>
            subst same
            simp [known]
        · cases graph.position? other with
          | none => rfl
          | some position =>
              -- The index may be stale in a graph that is not sound.
              by_cases here : position = graph.size
              · simp [here, show graph.nodes[graph.size]? = none from Array.getElem?_size]
              · simp [here]
      case placed =>
        intro placed other position found
        rw [added.position] at found
        split at found
        · next same =>
            cases found
            subst same
            exact ⟨origin, (added.identity _).trans (if_pos rfl)⟩
        · rcases placed other position found with ⟨made, there⟩
          exact ⟨made, added.stays there⟩
      case known =>
        intro other present
        rw [added.position]
        split
        · rfl
        · exact present

theorem creates_link (source target : Nat) : Creates [] graph (graph.link source target) := by
  unfold link
  split
  · exact .refl graph
  · refine Creates.trans (creates_editAt _ _ ?_ ?_) (creates_editAt _ _ ?_ ?_) <;>
      exact fun _ => rfl

private theorem creates_unlink (source target : Nat) :
    Creates [] graph (graph.unlink source target) := by
  unfold unlink
  refine Creates.trans (creates_editAt _ _ ?_ ?_) (creates_editAt _ _ ?_ ?_) <;> exact fun _ => rfl

theorem creates_pruneInputs (target : Nat) (wanted : Version → Bool) :
    Creates [] graph (graph.pruneInputs target wanted).1 := by
  unfold pruneInputs
  generalize graph.predecessorsAt target = predecessors
  generalize (∅ : VersionSet) = wired
  induction predecessors generalizing graph wired with
  | nil => exact .refl graph
  | cons predecessor predecessors induction =>
      rw [List.foldl_cons]
      dsimp only
      split
      · exact induction graph _
      · exact (creates_unlink graph predecessor target).trans (induction _ _)

theorem creates_addInput (source input : VersionKey) (target : Nat) :
    Creates [(source, .definition), (input, .phiInput)] graph
      (graph.addInput source input target) := by
  unfold addInput
  dsimp only
  exact ((creates_ensure graph source .definition none).trans
    (creates_ensure _ input .phiInput none)).trans ((creates_link _ _ _).trans (creates_link _ _ _))

/-- The live round records facts at a node and changes nothing else. -/
theorem records_withLive {key : VersionKey} {facts recorded : Facts}
    (found : (graph.withLive key facts).Records recorded) :
    graph.Records recorded ∨ recorded = facts := by
  unfold withLive at found
  split at found
  · rcases found with ⟨position, node, stored, live⟩
    rw [getElem?_editAt] at stored
    split at stored
    · rcases Option.map_eq_some_iff.1 stored with ⟨before, -, rfl⟩
      exact .inr (Option.some.inj live).symm
    · exact .inl ⟨position, node, stored, live⟩
  · exact .inl found

theorem Similar.has_iff {before after : VersionGraph} (similar : Similar before after)
    {key : VersionKey} {origin : VersionOrigin} : after.Has key origin ↔ before.Has key origin := by
  unfold Has
  simp only [similar.identity]

end VersionGraph

end SlotVersioning
