import SlotVersioning.Proofs.Graph.Inputs

/-!
# Merging versions

The two edits by which the phi inputs of a version are kept in step with its contributors. Pruning
drops the inputs that are not wanted any more and reports versions that still flow in
(`pruned_pruneInputs`); a new input lets one more version flow in (`joined_addInput`).
-/

namespace SlotVersioning

namespace VersionGraph

variable {graph : VersionGraph} {key : VersionKey} {origin : VersionOrigin} {target : Nat}

theorem Sound.not_phiInput (sound : graph.Sound)
    (found : graph.identity? target = some (key, origin)) (plain : origin ≠ .phiInput) :
    ¬ graph.Has key .phiInput :=
  fun isInput => plain (sound.unique ⟨target, found⟩ isInput)

/-! ## Pruning -/

/-- The graph while the inputs of `target` are pruned. -/
structure Pruning (start : VersionGraph) (target : Nat) (wanted : Version → Bool)
    (current : VersionGraph) (wired : VersionSet) : Prop where
  sound : current.Sound
  identity : ∀ position, current.identity? position = start.identity? position
  position : ∀ key, current.position? key = start.position? key
  others : ∀ position, position ≠ target →
    current.predecessorsAt position = start.predecessorsAt position
  kept : ∀ predecessor ∈ current.predecessorsAt target, predecessor ∈ start.predecessorsAt target
  spared : ∀ predecessor ∈ start.predecessorsAt target, ∀ version,
    (start.inputSource? predecessor).filter wanted = some version →
      predecessor ∈ current.predecessorsAt target
  wired : ∀ version ∈ wired, ∃ predecessor ∈ start.predecessorsAt target,
    (start.inputSource? predecessor).filter wanted = some version

namespace Pruning

variable {start current : VersionGraph} {wanted : Version → Bool} {wired : VersionSet}

theorem inputSource? (pruning : Pruning start target wanted current wired)
    (plain : start.isPhiInputAt target = false) (predecessor : Nat) :
    current.inputSource? predecessor = start.inputSource? predecessor :=
  inputSource?_congr pruning.identity pruning.others plain predecessor

theorem spare (pruning : Pruning start target wanted current wired) {predecessor : Nat}
    (member : predecessor ∈ start.predecessorsAt target) {version : Version}
    (carries : (start.inputSource? predecessor).filter wanted = some version) :
    Pruning start target wanted current (insert version wired) := by
  refine { pruning with wired := fun other inside => ?_ }
  rcases VersionSet.mem_insert.1 inside with rfl | old
  · exact ⟨predecessor, member, carries⟩
  · exact pruning.wired other old

theorem unlink (pruning : Pruning start target wanted current wired) {predecessor : Nat}
    (carries : (start.inputSource? predecessor).filter wanted = none) :
    Pruning start target wanted (current.unlink predecessor target) wired where
  sound := pruning.sound.unlink predecessor target
  identity := fun position => (identity?_unlink _ _ _ _).trans (pruning.identity position)
  position := pruning.position
  others := by
    intro position different
    rw [predecessorsAt_unlink, if_neg fun same => different same.symm]
    exact pruning.others position different
  kept := by
    intro other member
    rw [predecessorsAt_unlink, if_pos rfl] at member
    exact pruning.kept other (List.mem_filter.1 member).1
  spared := by
    intro other member version carried
    rw [predecessorsAt_unlink, if_pos rfl]
    refine List.mem_filter.2 ⟨pruning.spared other member version carried, bne_iff_ne.2 ?_⟩
    rintro rfl
    exact nomatch carries.symm.trans carried
  wired := pruning.wired

/-- A version that still flows in is carried by an input that was spared. -/
theorem carried_of_wired (pruning : Pruning start target wanted current wired)
    (sound : start.Sound) (found : start.identity? target = some (key, origin)) {version : Version}
    (member : version ∈ wired) :
    ∃ predecessor ∈ current.predecessorsAt target, start.isPhiInputAt predecessor = true ∧
      start.carriedAt predecessor = some ⟨key.slot, version⟩ := by
  rcases pruning.wired version member with ⟨predecessor, before, carries⟩
  refine ⟨predecessor, pruning.spared predecessor before version carries, ?_⟩
  have carried := (Option.filter_eq_some_iff.1 carries).1
  rcases inputSource?_eq_some.1 carried with ⟨isInput, source, fromSource, rfl⟩
  have brought := (broughtBy?_input isInput).trans fromSource
  refine ⟨isInput, ?_⟩
  rw [fromSource, ← (sound.of_flowsTo found ⟨predecessor, before, brought⟩).2]

end Pruning

/-- What pruning the inputs of the key's node does to the graph. -/
structure Pruned (key : VersionKey) (target : Nat) (before after : VersionGraph)
    (wired : VersionSet) : Prop where
  sound : after.Sound
  identity : ∀ position, after.identity? position = before.identity? position
  rewires : Rewires key before after
  flowed : ∀ source, after.FlowsTo source target → before.FlowsTo source target
  wired : ∀ version ∈ wired, after.FlowsTo ⟨key.slot, version⟩ target

theorem pruned_pruneInputs (sound : graph.Sound)
    (found : graph.identity? target = some (key, origin)) (plain : origin ≠ .phiInput)
    (wanted : Version → Bool) :
    Pruned key target graph (graph.pruneInputs target wanted).1
      (graph.pruneInputs target wanted).2 := by
  have notInput := isPhiInputAt_eq_false found plain
  have pruning : Pruning graph target wanted (graph.pruneInputs target wanted).1
      (graph.pruneInputs target wanted).2 := by
    unfold pruneInputs
    refine List.foldlRecOn (motive := fun (entry : VersionGraph × VersionSet) =>
      Pruning graph target wanted entry.1 entry.2) (graph.predecessorsAt target) _ ?_ ?_
    · exact ⟨sound, fun _ => rfl, fun _ => rfl, fun _ _ => rfl, fun _ member => member,
        fun _ member _ _ => member, fun version member =>
          absurd member (VersionSet.not_mem_empty version)⟩
    · rintro ⟨current, wired⟩ pruning predecessor member
      dsimp only at pruning ⊢
      rw [pruning.inputSource? notInput predecessor]
      cases carries : (graph.inputSource? predecessor).filter wanted with
      | some version => exact pruning.spare member carries
      | none => exact pruning.unlink carries
  have rewires : Rewires key graph (graph.pruneInputs target wanted).1 := by
    refine ⟨fun position identity here => (pruning.identity position).trans here, ?_⟩
    intro position other created here different
    apply pruning.others position
    rintro rfl
    rw [found] at here
    cases here
    exact different rfl
  have brings (predecessor : Nat) (member : predecessor ∈ graph.predecessorsAt target) :
      (graph.pruneInputs target wanted).1.broughtBy? predecessor =
        graph.broughtBy? predecessor := by
    rcases sound.level predecessor target member with ⟨left, _, atPredecessor, -⟩
    exact rewires.broughtBy sound (sound.not_phiInput found plain) atPredecessor
  refine ⟨pruning.sound, pruning.identity, rewires, ?_, ?_⟩
  · rintro source ⟨predecessor, member, brought⟩
    have before := pruning.kept predecessor member
    exact ⟨predecessor, before, (brings predecessor before).symm.trans brought⟩
  · intro version member
    rcases pruning.carried_of_wired sound found member with ⟨predecessor, left, isInput, carries⟩
    refine ⟨predecessor, left, ?_⟩
    rw [brings predecessor (pruning.kept predecessor left), broughtBy?_input isInput, carries]

/-! ## A new node after another -/

/-- A node was added whose only predecessor is the node of another key. -/
structure Chained (source key : VersionKey) (origin : VersionOrigin) (place way : Nat)
    (before after : VersionGraph) : Prop where
  sound : after.Sound
  isNew : ∀ position identity, before.identity? position = some identity → position ≠ way
  identity : ∀ position, after.identity? position =
    if position = way then some (key, origin) else before.identity? position
  position : ∀ other place, after.position? other = some place →
    other = key ∨ before.position? other = some place
  source : ∃ created, before.identity? place = some (source, created)
  intoWay : after.predecessorsAt way = [place]
  others : ∀ position, position ≠ way →
    after.predecessorsAt position = before.predecessorsAt position

theorem chained_ensure {begun grown : VersionGraph} {source : VersionKey} {place way : Nat}
    {created : VersionOrigin} (ensured : graph.ensure source .definition = (begun, place))
    (extended : begun.ensure key origin = (grown, way)) (sound : graph.Sound)
    (known : graph.Has source created) (fresh : graph.position? key = none)
    (level : source.slot = key.slot) :
    Chained source key origin place way graph (grown.link place way) := by
  rcases sound.position?_of_has known with ⟨atSource, placed⟩
  rcases sound.placed source atSource placed with ⟨sourceOrigin, atPlace⟩
  rcases added_ensure ensured extended placed fresh with ⟨rfl, rfl, added⟩
  have grownSound := added.sound fresh sound
  have isNew (position : Nat) (identity : VersionKey × VersionOrigin)
      (there : graph.identity? position = some identity) : position ≠ graph.size := by
    rintro rfl
    exact nomatch there.symm.trans (identity?_size graph)
  have nothing : grown.predecessorsAt graph.size = [] :=
    (added.predecessors _).trans (predecessorsAt_size graph)
  have grownSource := added.stays atPlace
  have grownWay := (added.identity graph.size).trans (if_pos rfl)
  have unlinked : graph.size ∉ grown.successorsAt place := by
    rw [grownSound.linked, nothing]
    exact List.not_mem_nil
  have edges := (edges_link unlinked grownSource grownWay).1
  refine ⟨grownSound.link grownSource grownWay level, isNew, fun position => ?_,
    fun other place there => ?_, ⟨sourceOrigin, atPlace⟩, ?_, fun position different => ?_⟩
  · rw [identity?_link, added.identity]
  · rw [position?_link, added.position] at there
    split at there
    · next same => exact .inl same.symm
    · exact .inr there
  · rw [edges, if_pos rfl, nothing]
    rfl
  · rw [edges, if_neg different.symm, added.predecessors]

namespace Chained

variable {source : VersionKey} {place way : Nat} {before after : VersionGraph}

theorem stays (chained : Chained source key origin place way before after) (position : Nat)
    (identity : VersionKey × VersionOrigin) (there : before.identity? position = some identity) :
    after.identity? position = some identity := by
  rw [chained.identity, if_neg (chained.isNew position identity there)]
  exact there

theorem rewires (chained : Chained source key origin place way before after) (other : VersionKey) :
    Rewires other before after :=
  ⟨chained.stays, fun position _ _ there _ => chained.others position (chained.isNew _ _ there)⟩

theorem found (chained : Chained source key origin place way before after) :
    after.identity? way = some (key, origin) :=
  (chained.identity way).trans (if_pos rfl)

end Chained

/-! ## A new input -/

/-- A new phi input at `way` leads from `place` to `target`. -/
structure Inserted (input : VersionKey) (place way target : Nat) (before after : VersionGraph) :
    Prop where
  sound : after.Sound
  fresh : before.identity? way = none
  identity : ∀ position, after.identity? position =
    if position = way then some (input, .phiInput) else before.identity? position
  predecessors : ∀ position, after.predecessorsAt position =
    if position = way then [place]
    else if position = target then before.predecessorsAt position ++ [way]
    else before.predecessorsAt position
  successors : ∀ position, after.successorsAt position =
    if position = way then [target]
    else if position = place then before.successorsAt position ++ [way]
    else before.successorsAt position

section

variable {next : VersionGraph} {source input : VersionKey} {created : VersionOrigin}
  {place way : Nat}

theorem inserted_addInput (sound : graph.Sound)
    (found : graph.identity? target = some (key, origin))
    (atPlace : graph.identity? place = some (source, created))
    (fresh : graph.position? input = none) (sourceLevel : source.slot = key.slot)
    (inputLevel : input.slot = key.slot) :
    ∃ way, Inserted input place way target graph (graph.addInput source input target) := by
  rcases ensured : graph.ensure source .definition with ⟨begun, atSource⟩
  rcases extended : begun.ensure input .phiInput with ⟨grown, way⟩
  rcases added_ensure ensured extended (sound.indexed place source created atPlace) fresh with
    ⟨rfl, rfl, added⟩
  have nothing : graph.identity? graph.size = none := identity?_size graph
  have elsewhere {position : Nat} {identity : VersionKey × VersionOrigin}
      (there : graph.identity? position = some identity) : position ≠ graph.size := by
    rintro rfl
    exact nomatch nothing.symm.trans there
  have grownPlace := added.stays atPlace
  have grownTarget := added.stays found
  have grownWay := (added.identity graph.size).trans (if_pos rfl)
  have grownSound := added.sound fresh sound
  have intoWay : grown.predecessorsAt graph.size = [] :=
    (added.predecessors _).trans (predecessorsAt_size graph)
  have fromWay : grown.successorsAt graph.size = [] :=
    (added.successors _).trans (successorsAt_size graph)
  -- First the edge from the source, then the one to the target.
  have unlinked : graph.size ∉ grown.successorsAt atSource := by
    rw [grownSound.linked, intoWay]
    exact List.not_mem_nil
  have firstEdge := edges_link unlinked grownPlace grownWay
  have linkedSound := grownSound.link grownPlace grownWay (sourceLevel.trans inputLevel.symm)
  have still : target ∉ (grown.link atSource graph.size).successorsAt graph.size := by
    rw [firstEdge.2, if_neg (elsewhere atPlace), fromWay]
    exact List.not_mem_nil
  have secondEdge := edges_link still ((identity?_link _ _ _ _).trans grownWay)
    ((identity?_link _ _ _ _).trans grownTarget)
  unfold addInput
  rw [ensured]
  dsimp only
  rw [extended]
  dsimp only
  refine ⟨graph.size, linkedSound.link ((identity?_link _ _ _ _).trans grownWay)
    ((identity?_link _ _ _ _).trans grownTarget) inputLevel, nothing, fun position => ?_,
    fun position => ?_, fun position => ?_⟩
  · rw [identity?_link, identity?_link, added.identity]
  · rw [secondEdge.1, firstEdge.1, added.predecessors]
    by_cases atWay : position = graph.size
    · subst atWay
      rw [if_neg (elsewhere found), if_pos rfl, if_pos rfl, predecessorsAt_size]
      rfl
    · rw [if_neg (Ne.symm atWay), if_neg atWay]
      simp only [eq_comm]
  · rw [secondEdge.2, firstEdge.2, added.successors]
    by_cases atWay : position = graph.size
    · subst atWay
      rw [if_pos rfl, if_neg (elsewhere atPlace), if_pos rfl, successorsAt_size]
      rfl
    · rw [if_neg (Ne.symm atWay), if_neg atWay]
      simp only [eq_comm]

namespace Inserted

variable (inserted : Inserted input place way target graph next)

include inserted

theorem apart {position : Nat} {identity : VersionKey × VersionOrigin}
    (found : graph.identity? position = some identity) : position ≠ way := by
  rintro rfl
  exact nomatch inserted.fresh.symm.trans found

theorem stays {position : Nat} {identity : VersionKey × VersionOrigin}
    (found : graph.identity? position = some identity) :
    next.identity? position = some identity := by
  rw [inserted.identity, if_neg (inserted.apart found)]
  exact found

theorem isInput : next.isPhiInputAt way = true :=
  (isPhiInputAt_iff ((inserted.identity way).trans (if_pos rfl))).2 rfl

theorem atTarget (found : graph.identity? target = some (key, origin)) :
    next.predecessorsAt target = graph.predecessorsAt target ++ [way] := by
  rw [inserted.predecessors, if_neg (inserted.apart found), if_pos rfl]

theorem carried (atPlace : graph.identity? place = some (source, created)) :
    next.carriedAt way = some source := by
  rw [carriedAt_eq, inserted.predecessors, if_pos rfl, List.head?_cons, Option.bind_some,
    inserted.stays atPlace]
  rfl

end Inserted

end

/-- What a new input from `source` does to what flows. -/
structure Joined (key source input : VersionKey) (target : Nat) (before after : VersionGraph) :
    Prop where
  sound : after.Sound
  rewires : Rewires key before after
  position : ∀ other place, after.position? other = some place →
    other = input ∨ before.position? other = some place
  flows : ∀ other, after.FlowsTo other target ↔ other = source ∨ before.FlowsTo other target

theorem joined_addInput (sound : graph.Sound)
    (found : graph.identity? target = some (key, origin)) (plain : origin ≠ .phiInput)
    {source input : VersionKey} {created : VersionOrigin} (known : graph.Has source created)
    (fresh : graph.position? input = none) (sourceLevel : source.slot = key.slot)
    (inputLevel : input.slot = key.slot) :
    Joined key source input target graph (graph.addInput source input target) := by
  rcases known with ⟨place, atPlace⟩
  rcases inserted_addInput sound found atPlace fresh sourceLevel inputLevel with ⟨way, inserted⟩
  generalize graph.addInput source input target = next at inserted ⊢
  have rewires : Rewires key graph next := by
    refine ⟨fun _ _ there => inserted.stays there, fun position other created there apart => ?_⟩
    rw [inserted.predecessors, if_neg (inserted.apart there), if_neg]
    rintro rfl
    rw [found] at there
    cases there
    exact apart rfl
  have brings := (broughtBy?_input inserted.isInput).trans (inserted.carried atPlace)
  have old (predecessor : Nat) (member : predecessor ∈ graph.predecessorsAt target) :
      next.broughtBy? predecessor = graph.broughtBy? predecessor := by
    rcases sound.level predecessor target member with ⟨left, _, there, -⟩
    exact rewires.broughtBy sound (sound.not_phiInput found plain) there
  refine ⟨inserted.sound, rewires, fun other position there => ?_, fun other => ?_⟩
  · rcases inserted.sound.placed other position there with ⟨made, named⟩
    rw [inserted.identity] at named
    split at named
    · cases named
      exact .inl rfl
    · exact .inr (sound.indexed position other made named)
  · unfold FlowsTo
    rw [inserted.atTarget found]
    simp only [List.mem_append, List.mem_singleton]
    constructor
    · rintro ⟨predecessor, before | rfl, brought⟩
      · exact .inr ⟨predecessor, before, (old predecessor before).symm.trans brought⟩
      · exact .inl (Option.some.inj (brings.symm.trans brought)).symm
    · rintro (rfl | ⟨predecessor, before, brought⟩)
      · exact ⟨way, .inr rfl, brings⟩
      · exact ⟨predecessor, .inl before, (old predecessor before).trans brought⟩

end VersionGraph

end SlotVersioning
