import SlotVersioning.Proofs.Graph.Shape
import SlotVersioning.Proofs.Run.Loops

/-!
# Feeding reads

A read that several versions reach gets one phi input for each of them. First the inputs of other
versions are pruned, and then the missing ones are added one by one; in between, the node waits for
the versions that are still pending (`Awaits`).
-/

namespace SlotVersioning

namespace VersionGraph

variable {graph next : VersionGraph} {known more : Slot → Nat} {reads : VersionKey → Prop}

/-! ## Pruned inputs -/

/-- The graph while the inputs of `target` are pruned, some of which are still pending. -/
structure Trimming (start : VersionGraph) (target : Nat) (wanted : Version → Bool)
    (pending : List Nat) (current : VersionGraph) (wired : VersionSet) : Prop where
  pruning : Pruning start target wanted current wired
  inside : ∀ predecessor ∈ pending, predecessor ∈ start.predecessorsAt target
  fewer : (current.predecessorsAt target).Sublist (start.predecessorsAt target)
  outlets : ∀ position, (current.successorsAt position).Sublist (start.successorsAt position)
  waits : ∀ predecessor ∈ current.predecessorsAt target, predecessor ∈ pending ∨
    ∃ version ∈ wired, start.inputSource? predecessor = some version

section

variable {key : VersionKey} {origin : VersionOrigin} {target : Nat}

theorem trimming_pruneInputs (sound : graph.Sound) (notInput : graph.isPhiInputAt target = false)
    (wanted : Version → Bool) :
    Trimming graph target wanted [] (graph.pruneInputs target wanted).1
      (graph.pruneInputs target wanted).2 := by
  unfold pruneInputs
  refine foldl_pending (motive := fun pending (entry : VersionGraph × VersionSet) =>
    Trimming graph target wanted pending entry.1 entry.2) ?_ ?_
  · rintro predecessor pending ⟨current, wired⟩ trimming
    have member := trimming.inside predecessor List.mem_cons_self
    have inside : ∀ other ∈ pending, other ∈ graph.predecessorsAt target :=
      fun other later => trimming.inside other (List.mem_cons_of_mem _ later)
    dsimp only at trimming ⊢
    rw [trimming.pruning.inputSource? notInput predecessor]
    cases carries : (graph.inputSource? predecessor).filter wanted with
    | some version =>
        refine ⟨trimming.pruning.spare member carries, inside, trimming.fewer, trimming.outlets,
          fun other left => ?_⟩
        rcases trimming.waits other left with waiting | ⟨old, inWired, carried⟩
        · rcases List.mem_cons.1 waiting with rfl | later
          · exact .inr ⟨version, VersionSet.mem_insert.2 (.inl rfl),
              (Option.filter_eq_some_iff.1 carries).1⟩
          · exact .inl later
        · exact .inr ⟨old, VersionSet.mem_insert.2 (.inr inWired), carried⟩
    | none =>
        refine ⟨trimming.pruning.unlink carries, inside, ?_, fun position => ?_,
          fun other left => ?_⟩
        · rw [predecessorsAt_unlink, if_pos rfl]
          exact List.filter_sublist.trans trimming.fewer
        · rw [successorsAt_unlink]
          split
          · exact List.filter_sublist.trans (trimming.outlets position)
          · exact trimming.outlets position
        · rw [predecessorsAt_unlink, if_pos rfl, List.mem_filter, bne_iff_ne] at left
          rcases trimming.waits other left.1 with waiting | wanted
          · exact .inl (List.mem_of_ne_of_mem left.2 waiting)
          · exact .inr wanted
  · exact ⟨⟨sound, fun _ => rfl, fun _ => rfl, fun _ _ => rfl, fun _ member => member,
      fun _ member _ _ => member, fun version member =>
        absurd member (VersionSet.not_mem_empty version)⟩,
      fun _ member => member, List.Sublist.refl _, fun _ => List.Sublist.refl _,
      fun _ member => .inl member⟩

/-- What pruning the inputs of a read makes of a shaped graph. -/
structure Trimmed (known : Slot → Nat) (reads : VersionKey → Prop) (target : Nat)
    (before after : VersionGraph) (wired : VersionSet) : Prop where
  shaped : after.Shaped known reads
  identity : ∀ position, after.identity? position = before.identity? position
  merging : after.Merging target
  wired : ∀ predecessor ∈ after.predecessorsAt target, ∀ source,
    after.carriedAt predecessor = some source → source.version ∈ wired

namespace Trimming

variable {pruned : VersionGraph} {wanted : Version → Bool} {wired : VersionSet}
  (trimming : Trimming graph target wanted [] pruned wired)

include trimming

/-- What is left are inputs, each of which carries a version that is known to be wired. -/
theorem left_carries {predecessor : Nat} (left : predecessor ∈ pruned.predecessorsAt target) :
    graph.isPhiInputAt predecessor = true ∧
      ∃ source, graph.carriedAt predecessor = some source ∧ source.version ∈ wired := by
  rcases (trimming.waits predecessor left).resolve_left List.not_mem_nil with
    ⟨version, inWired, carried⟩
  rcases inputSource?_eq_some.1 carried with ⟨isInput, source, carries, rfl⟩
  exact ⟨isInput, source, carries, inWired⟩

theorem retains (notInput : graph.isPhiInputAt target = false) : Retains graph pruned :=
  ⟨fun position _ there => (trimming.pruning.identity position).trans there,
    fun position isInput => trimming.pruning.others position (ne_of_isPhiInputAt isInput notInput)⟩

variable (shaped : graph.Shaped known reads)
  (found : graph.identity? target = some (key, origin)) (plain : origin ≠ .phiInput)

include shaped found plain

/-- The inputs that are left carry the versions that they carried. -/
theorem carriedAt {predecessor : Nat} (left : predecessor ∈ pruned.predecessorsAt target) :
    pruned.carriedAt predecessor = graph.carriedAt predecessor :=
  (trimming.retains (isPhiInputAt_eq_false found plain)).carriedAt shaped.sound
    (trimming.left_carries left).1

theorem merging : pruned.Merging target := by
  refine ⟨fun predecessor left => ?_, ?_⟩
  · exact (isPhiInputAt_congr (trimming.pruning.identity predecessor)).trans
      (trimming.left_carries left).1
  · rw [List.map_congr_left fun predecessor => trimming.carriedAt shaped found plain]
    rcases shaped.node target key origin found plain with single | merging
    · -- A single predecessor is no input, so nothing is left.
      have nothing : pruned.predecessorsAt target = [] := by
        apply List.eq_nil_iff_forall_not_mem.2
        intro predecessor left
        have own := single.plain predecessor (trimming.fewer.subset left)
        exact Bool.false_ne_true (own.symm.trans (trimming.left_carries left).1)
      rw [nothing]
      exact List.nodup_nil
    · exact merging.apart.sublist (trimming.fewer.map graph.carriedAt)

private theorem shaped_pruned : pruned.Shaped known reads := by
  have pruning := trimming.pruning
  have notInput := isPhiInputAt_eq_false found plain
  have retains := trimming.retains notInput
  constructor
  case sound => exact pruning.sound
  case complete =>
    intro slot version ordinary
    rw [← shaped.complete slot version ordinary]
    unfold Has
    simp only [pruning.identity]
  case input =>
    intro way other there
    rw [pruning.identity] at there
    have apart := ne_of_isPhiInputAt ((isPhiInputAt_iff there).2 rfl) notInput
    have passing := shaped.input way other there
    exact retains.passing shaped.sound (pruning.others way apart) passing
      (Nat.le_trans (trimming.outlets way).length_le passing.outlet)
  case node =>
    intro node other kind there different
    rw [pruning.identity] at there
    by_cases here : node = target
    · exact .inr (here ▸ trimming.merging shaped found plain)
    · exact shaped.node_of_retains retains there different (pruning.others node here)
  case wired =>
    intro node other kind there linked
    rw [pruning.identity] at there
    refine shaped.wired node other kind there fun nothing => linked ?_
    by_cases here : node = target
    · subst here
      exact List.eq_nil_of_sublist_nil (nothing ▸ trimming.fewer)
    · rw [pruning.others node here, nothing]
  case fields =>
    rintro other ⟨position, there⟩
    rw [pruning.identity] at there
    exact shaped.fields other ⟨position, there⟩

end Trimming

theorem Shaped.prune (shaped : graph.Shaped known reads)
    (found : graph.identity? target = some (key, origin)) (plain : origin ≠ .phiInput)
    (wanted : Version → Bool) :
    Trimmed known reads target graph (graph.pruneInputs target wanted).1
      (graph.pruneInputs target wanted).2 := by
  have trimming :=
    trimming_pruneInputs shaped.sound (isPhiInputAt_eq_false found plain) wanted
  refine ⟨trimming.shaped_pruned shaped found plain, trimming.pruning.identity,
    trimming.merging shaped found plain, fun predecessor left source brings => ?_⟩
  rcases trimming.left_carries left with ⟨-, other, carries, inWired⟩
  rw [trimming.carriedAt shaped found plain left, carries] at brings
  cases brings
  exact inWired

end

/-! ## New inputs -/

section

variable {key source input : VersionKey} {origin created : VersionOrigin} {place way target : Nat}

namespace Inserted

variable (inserted : Inserted input place way target graph next)

include inserted

theorem retains (notInput : graph.isPhiInputAt target = false) : Retains graph next := by
  refine ⟨fun position identity found => inserted.stays found, fun position isInput => ?_⟩
  rw [inserted.predecessors, if_neg, if_neg (ne_of_isPhiInputAt isInput notInput)]
  rintro rfl
  rw [isPhiInputAt_eq, inserted.fresh] at isInput
  exact nomatch isInput

section

variable (shaped : graph.Shaped known reads) (notInput : graph.isPhiInputAt target = false)

include shaped notInput

/-- The inputs that were there stay inputs and carry what they carried. -/
theorem old_input (merging : graph.Merging target) {predecessor : Nat}
    (member : predecessor ∈ graph.predecessorsAt target) :
    next.isPhiInputAt predecessor = true ∧
      next.carriedAt predecessor = graph.carriedAt predecessor := by
  have retains := inserted.retains notInput
  have isInput := merging.inputs predecessor member
  rcases shaped.sound.level predecessor target member with ⟨left, -, there, -⟩
  exact ⟨(retains.isPhiInputAt there).trans isInput, retains.carriedAt shaped.sound isInput⟩

private theorem merging (found : graph.identity? target = some (key, origin))
    (atPlace : graph.identity? place = some (source, created)) (merging : graph.Merging target)
    (apart : ∀ predecessor ∈ graph.predecessorsAt target,
      graph.carriedAt predecessor ≠ some source) : next.Merging target := by
  have old {predecessor : Nat} (member : predecessor ∈ graph.predecessorsAt target) :=
    inserted.old_input shaped notInput merging member
  constructor <;> rw [inserted.atTarget found]
  · rw [List.forall_mem_append, List.forall_mem_singleton]
    exact ⟨fun predecessor member => (old member).1, inserted.isInput⟩
  · rw [List.map_append, List.map_congr_left fun predecessor member => (old member).2,
      List.map_singleton, inserted.carried atPlace, List.nodup_append]
    refine ⟨merging.apart, List.pairwise_singleton _ _, ?_⟩
    rintro _ earlier _ last rfl
    rcases List.mem_map.1 earlier with ⟨predecessor, member, same⟩
    exact apart predecessor member (same.trans (List.mem_singleton.1 last))

private theorem passing (atPlace : graph.identity? place = some (source, created))
    (sourcePlain : created ≠ .phiInput) {position : Nat} {other : VersionKey}
    (there : next.identity? position = some (other, .phiInput)) : next.Passing position := by
  have retains := inserted.retains notInput
  have sourceNoInput := isPhiInputAt_eq_false atPlace sourcePlain
  rw [inserted.identity] at there
  split at there
  · next here =>
      subst here
      refine ⟨⟨place, ?_, (retains.isPhiInputAt atPlace).trans sourceNoInput⟩, ?_⟩
      · rw [inserted.predecessors, if_pos rfl]
      · rw [inserted.successors, if_pos rfl]
        exact Nat.le_refl 1
  · next elsewhere =>
      have isInput := (isPhiInputAt_iff there).2 rfl
      have passing := shaped.input position other there
      refine retains.passing shaped.sound (retains.predecessors position isInput) passing ?_
      rw [inserted.successors, if_neg elsewhere, if_neg (ne_of_isPhiInputAt isInput sourceNoInput)]
      exact passing.outlet

end

end Inserted

/-- What a new input makes of a shaped graph. -/
structure Fed (more : Slot → Nat) (reads : VersionKey → Prop) (source : VersionKey) (target : Nat)
    (before after : VersionGraph) : Prop where
  shaped : after.Shaped more reads
  identity : ∀ position identity, before.identity? position = some identity →
    after.identity? position = some identity
  merging : after.Merging target
  carried : ∀ predecessor ∈ after.predecessorsAt target, ∀ other,
    after.carriedAt predecessor = some other → other = source ∨
      ∃ earlier ∈ before.predecessorsAt target, before.carriedAt earlier = some other

private theorem Shaped.addInput (shaped : graph.Shaped known reads)
    (found : graph.identity? target = some (key, origin)) (plain : origin ≠ .phiInput)
    (ordinary : 0 ≤ key.slot) (isRead : reads key)
    (atPlace : graph.identity? place = some (source, created)) (sourcePlain : created ≠ .phiInput)
    (fresh : graph.position? input = none) (sourceLevel : source.slot = key.slot)
    (inputLevel : input.slot = key.slot) (learns : Learns input known more)
    (merging : graph.Merging target)
    (apart : ∀ predecessor ∈ graph.predecessorsAt target,
      graph.carriedAt predecessor ≠ some source) :
    Fed more reads source target graph (graph.addInput source input target) := by
  rcases inserted_addInput shaped.sound found atPlace fresh sourceLevel inputLevel with
    ⟨way, inserted⟩
  generalize graph.addInput source input target = next at inserted
  have notInput := isPhiInputAt_eq_false found plain
  have fed := inserted.merging shaped notInput found atPlace merging apart
  refine ⟨⟨inserted.sound,
    complete_of_identity shaped.complete inserted.identity inserted.fresh learns,
    fun position other there => inserted.passing shaped notInput atPlace sourcePlain there, ?_, ?_,
    fun other has => ?_⟩, fun position identity there => inserted.stays there, fed, ?_⟩
  · intro position other kind there different
    rw [inserted.identity] at there
    split at there
    · cases there
      exact absurd rfl different
    · next elsewhere =>
        by_cases here : position = target
        · exact .inr (here ▸ fed)
        · refine shaped.node_of_retains (inserted.retains notInput) there different ?_
          rw [inserted.predecessors, if_neg elsewhere, if_neg here]
  · intro position other kind there linked
    rw [inserted.identity] at there
    split at there
    · cases there
      exact ⟨inputLevel ▸ ordinary, .inl rfl⟩
    · next elsewhere =>
        by_cases here : position = target
        · subst here
          rw [found] at there
          cases there
          exact ⟨ordinary, .inr isRead⟩
        · rw [inserted.predecessors, if_neg elsewhere, if_neg here] at linked
          exact shaped.wired position other kind there linked
  · rcases has with ⟨position, there⟩
    rw [inserted.identity] at there
    split at there
    · exact nomatch there
    · exact shaped.fields other ⟨position, there⟩
  · intro predecessor member other carried
    rw [inserted.atTarget found, List.mem_append, List.mem_singleton] at member
    rcases member with earlier | rfl
    · exact .inr ⟨predecessor, earlier,
        (inserted.old_input shaped notInput merging earlier).2.symm.trans carried⟩
    · exact .inl (Option.some.inj (carried.symm.trans (inserted.carried atPlace)))

end

/-! ## What is still to flow in -/

/-- The node at `target` merges versions, and plain versions that do not flow in yet are pending. -/
structure Awaits (graph : VersionGraph) (key : VersionKey) (target : Nat) (pending : List Version) :
    Prop where
  node : ∃ origin, graph.identity? target = some (key, origin) ∧ origin ≠ .phiInput
  merging : graph.Merging target
  plain : ∀ version ∈ pending, graph.Plain ⟨key.slot, version⟩
  apart : ∀ predecessor ∈ graph.predecessorsAt target, ∀ version ∈ pending,
    graph.carriedAt predecessor ≠ some ⟨key.slot, version⟩
  distinct : pending.Nodup

section

variable {key input : VersionKey} {target : Nat} {version : Version} {pending : List Version}

/-- The first pending version gets its input. -/
theorem Shaped.feed (shaped : graph.Shaped known reads) (ordinary : 0 ≤ key.slot)
    (isRead : reads key) (awaits : graph.Awaits key target (version :: pending))
    (fresh : graph.position? input = none) (level : input.slot = key.slot)
    (learns : Learns input known more) :
    (graph.addInput ⟨key.slot, version⟩ input target).Shaped more reads ∧
      (graph.addInput ⟨key.slot, version⟩ input target).Awaits key target pending := by
  rcases awaits.node with ⟨origin, found, noInput⟩
  rcases awaits.plain version List.mem_cons_self with ⟨created, ⟨place, atPlace⟩, sourcePlain⟩
  have fed := shaped.addInput found noInput ordinary isRead atPlace sourcePlain fresh rfl level
    learns awaits.merging fun predecessor member =>
      awaits.apart predecessor member version List.mem_cons_self
  have distinct := List.nodup_cons.1 awaits.distinct
  refine ⟨fed.shaped, ⟨origin, fed.identity _ _ found, noInput⟩, fed.merging,
    fun other later => (awaits.plain other (List.mem_cons_of_mem _ later)).of_identity fed.identity,
    fun predecessor member other later carried => ?_, distinct.2⟩
  rcases fed.carried predecessor member _ carried with equal | ⟨earlier, before, same⟩
  · obtain rfl : other = version := congrArg VersionKey.version equal
    exact distinct.1 later
  · exact awaits.apart earlier before other (List.mem_cons_of_mem _ later) same

/-- After the pruning, the wanted versions that do not flow in are pending. -/
theorem Trimmed.awaits {pruned : VersionGraph} {wired sources : VersionSet}
    {origin : VersionOrigin} (trimmed : Trimmed known reads target graph pruned wired)
    (found : graph.identity? target = some (key, origin)) (noInput : origin ≠ .phiInput)
    (plain : ∀ version ∈ sources, graph.Plain ⟨key.slot, version⟩) :
    pruned.Awaits key target (sources.toList.filter fun source => !wired.contains source) where
  node := ⟨origin, (trimmed.identity target).trans found, noInput⟩
  merging := trimmed.merging
  plain := fun version member =>
    (plain version (VersionSet.mem_toList.1 (List.mem_filter.1 member).1)).of_identity
      fun position _ found => (trimmed.identity position).trans found
  apart := by
    intro predecessor edge version member carried
    have missing := (List.mem_filter.1 member).2
    have wired := VersionSet.mem_def.1 (trimmed.wired predecessor edge _ carried)
    rw [wired] at missing
    exact nomatch missing
  distinct := by
    have distinct : sources.toList.Nodup :=
      sources.toList_ascending.imp fun less => Nat.ne_of_lt less
    exact distinct.sublist List.filter_sublist

end

end VersionGraph

end SlotVersioning
