import SlotVersioning.Proofs.Graph.Feeding
import SlotVersioning.Proofs.Ownership.Owners

/-!
# Minting in a range

A version that is numbered for a statement remembers the statement's range, and nothing else changes
the ranges. `Mints` says this of several steps that number versions for one site: the version of the
site itself, phi inputs that lead into it, and versions that are spared a range.
-/

namespace SlotVersioning

open Std

/-! ## Where phi inputs lead -/

namespace VersionGraph

/-- The phi input leads into the version. -/
def LeadsInto (graph : VersionGraph) (input key : VersionKey) : Prop :=
  ∃ way target origin, graph.identity? way = some (input, .phiInput) ∧
    graph.identity? target = some (key, origin) ∧ way ∈ graph.predecessorsAt target

/-- No phi input is lost, and none leads anywhere new. -/
structure Tame (before after : VersionGraph) : Prop where
  inputs : ∀ key, before.Has key .phiInput → after.Has key .phiInput
  leads : ∀ input key, after.LeadsInto input key → before.LeadsInto input key

namespace Tame

variable {before middle after : VersionGraph}

theorem refl (graph : VersionGraph) : Tame graph graph :=
  ⟨fun _ has => has, fun _ _ leads => leads⟩

theorem trans (left : Tame before middle) (right : Tame middle after) : Tame before after :=
  ⟨fun key has => right.inputs key (left.inputs key has),
    fun input key leads => left.leads input key (right.leads input key leads)⟩

/-- Nodes stay, and edges may be taken away. -/
theorem of_fewer (identity : ∀ position, after.identity? position = before.identity? position)
    (fewer : ∀ position, ∀ predecessor ∈ after.predecessorsAt position,
      predecessor ∈ before.predecessorsAt position) : Tame before after where
  inputs := by
    rintro key ⟨position, found⟩
    exact ⟨position, (identity position).trans found⟩
  leads := by
    rintro input key ⟨way, target, origin, atWay, atTarget, edge⟩
    rw [identity] at atWay atTarget
    exact ⟨way, target, origin, atWay, atTarget, fewer target way edge⟩

theorem of_similar (similar : Similar before after) : Tame before after :=
  of_fewer similar.identity fun position _ member =>
    similar.predecessors position ▸ member

/-- A new node has no edges. -/
theorem of_added {key : VersionKey} {origin : VersionOrigin} (added : Added before after key origin)
    (sound : before.Sound) : Tame before after where
  inputs := fun _ has => (added.rewires key).has has
  leads := by
    rintro input other ⟨way, target, created, atWay, atTarget, edge⟩
    rw [added.predecessors] at edge
    rcases sound.level way target edge with ⟨left, right, foundWay, foundTarget, -⟩
    have stays := (added.rewires key).identity
    rw [stays way left foundWay] at atWay
    rw [stays target right foundTarget] at atTarget
    exact ⟨way, target, created, foundWay.trans atWay, foundTarget.trans atTarget, edge⟩

theorem ensure (sound : before.Sound) (key : VersionKey) (origin : VersionOrigin)
    (debugName : Option DebugName := none) : Tame before (before.ensure key origin debugName).1 := by
  cases known : before.position? key with
  | some position => exact of_similar (ensure_known origin debugName known).2
  | none => exact of_added (ensure_unknown origin debugName known).2 sound

/-- An edge that leaves a plain node is not the edge of a phi input. -/
theorem link {source target : Nat} {left right : VersionKey × VersionOrigin}
    (atSource : before.identity? source = some left)
    (atTarget : before.identity? target = some right) (plain : left.2 ≠ .phiInput) :
    Tame before (before.link source target) := by
  by_cases present : target ∈ before.successorsAt source
  · rw [link_present present]
    exact refl before
  refine ⟨fun key has => ?_, ?_⟩
  · rcases has with ⟨position, found⟩
    exact ⟨position, (identity?_link before source target position).trans found⟩
  · rintro input key ⟨way, node, origin, atWay, atNode, edge⟩
    rw [identity?_link] at atWay atNode
    rw [(edges_link present atSource atTarget).1] at edge
    refine ⟨way, node, origin, atWay, atNode, ?_⟩
    split at edge
    · refine (List.mem_append.1 edge).resolve_right fun new => ?_
      rw [List.mem_singleton.1 new, atSource] at atWay
      cases atWay
      exact plain rfl
    · exact edge

theorem of_trimming {target : Nat} {wanted : Version → Bool} {wired : VersionSet}
    (trimming : Trimming before target wanted [] after wired) : Tame before after := by
  refine of_fewer trimming.pruning.identity fun position predecessor member => ?_
  by_cases here : position = target
  · subst here
    exact trimming.fewer.subset member
  · rw [trimming.pruning.others position here] at member
    exact member

end Tame

end VersionGraph

namespace Tables

/-- The recorded range of a version. -/
def range? (tables : Tables) (key : VersionKey) : Option StatementId :=
  tables.ranges.bind fun ranges => ranges[key]?

/-- The phi input leads into the version. -/
def LeadsInto (tables : Tables) (input key : VersionKey) : Prop :=
  ∃ graph, tables.graph = some graph ∧ graph.LeadsInto input key

end Tables

/-! ## Numbered versions -/

/-- Ranges are recorded, and only of versions that were numbered. -/
structure RunState.Ranged (state : RunState) : Prop where
  recorded : state.tables.ranges.isSome
  unnumbered : ∀ key, state.last key.slot < key.version → state.tables.range? key = none

/-- The version was numbered in between. -/
structure NumberedIn (before after : RunState) (key : VersionKey) : Prop where
  unnumbered : before.last key.slot < key.version
  numbered : key.version ≤ after.last key.slot

/-- Versions were numbered for the site with the version `own`: that one and phi inputs that lead
into it, which have the given range, and some that are spared a range. -/
structure Mints (range : Option StatementId) (own : VersionKey) (spared : List VersionKey)
    (before after : RunState) : Prop where
  ranged : after.Ranged
  last : ∀ slot, before.last slot ≤ after.last slot
  elsewhere : ∀ slot, slot ≠ own.slot → after.last slot = before.last slot
  old : ∀ key, key.version ≤ before.last key.slot →
    after.tables.range? key = before.tables.range? key
  new : ∀ key, NumberedIn before after key → key ∉ spared → after.tables.range? key = range
  without : ∀ key ∈ spared, NumberedIn before after key ∧ after.tables.range? key = none
  named : ∀ key, NumberedIn before after key →
    key = own ∨ key ∈ spared ∨ after.tables.HasInput key
  inputs : ∀ key, before.tables.HasInput key → after.tables.HasInput key
  leads : ∀ input key, after.tables.LeadsInto input key →
    before.tables.LeadsInto input key ∨ key = own ∧ NumberedIn before after input

/-- No phi input is lost, and none leads anywhere new. -/
structure Tables.Tame (before after : Tables) : Prop where
  inputs : ∀ key, before.HasInput key → after.HasInput key
  leads : ∀ input key, after.LeadsInto input key → before.LeadsInto input key

namespace Tables.Tame

variable {before after : Tables}

theorem refl (tables : Tables) : Tame tables tables :=
  ⟨fun _ has => has, fun _ _ leads => leads⟩

theorem of_graphs {graph next : VersionGraph} (stored : before.graph = some graph)
    (nextStored : after.graph = some next) (tame : graph.Tame next) : Tame before after where
  inputs := by
    rintro key ⟨other, found, has⟩
    rw [stored] at found
    cases found
    exact ⟨next, nextStored, tame.inputs key has⟩
  leads := by
    rintro input key ⟨other, found, leads⟩
    rw [nextStored] at found
    cases found
    exact ⟨graph, stored, tame.leads input key leads⟩

theorem of_same (same : after.graph = before.graph) : Tame before after where
  inputs := by
    rintro key ⟨graph, stored, has⟩
    exact ⟨graph, same.trans stored, has⟩
  leads := by
    rintro input key ⟨graph, stored, leads⟩
    exact ⟨graph, same.symm.trans stored, leads⟩

end Tables.Tame

namespace NumberedIn

variable {before middle after : RunState} {key : VersionKey}

/-- A version that was numbered on the way was so in the first or in the second part. -/
private theorem split (numbered : NumberedIn before after key) :
    NumberedIn before middle key ∨ NumberedIn middle after key := by
  by_cases early : key.version ≤ middle.last key.slot
  · exact .inl ⟨numbered.unnumbered, early⟩
  · exact .inr ⟨Nat.lt_of_not_le early, numbered.numbered⟩

private theorem left (numbered : NumberedIn before middle key)
    (last : ∀ slot, middle.last slot ≤ after.last slot) : NumberedIn before after key :=
  ⟨numbered.unnumbered, Nat.le_trans numbered.numbered (last key.slot)⟩

private theorem right (numbered : NumberedIn middle after key)
    (last : ∀ slot, before.last slot ≤ middle.last slot) : NumberedIn before after key :=
  ⟨Nat.lt_of_le_of_lt (last key.slot) numbered.unnumbered, numbered.numbered⟩

end NumberedIn

namespace Mints

variable {range : Option StatementId} {own : VersionKey} {first second : List VersionKey}
  {before middle after : RunState}

theorem trans (left : Mints range own first before middle)
    (right : Mints range own second middle after) :
    Mints range own (first ++ second) before after where
  ranged := right.ranged
  last := fun slot => Nat.le_trans (left.last slot) (right.last slot)
  elsewhere := fun slot other => (right.elsewhere slot other).trans (left.elsewhere slot other)
  old := fun key numbered =>
    (right.old key (Nat.le_trans numbered (left.last key.slot))).trans (left.old key numbered)
  new := by
    intro key numbered outside
    rw [List.mem_append, not_or] at outside
    rcases @numbered.split _ middle with early | late
    · rw [right.old key early.numbered]
      exact left.new key early outside.1
    · exact right.new key late outside.2
  without := by
    intro key member
    rcases List.mem_append.1 member with early | late
    · have spare := left.without key early
      exact ⟨spare.1.left right.last, (right.old key spare.1.numbered).trans spare.2⟩
    · have spare := right.without key late
      exact ⟨spare.1.right left.last, spare.2⟩
  named := by
    intro key numbered
    rw [List.mem_append]
    rcases @numbered.split _ middle with early | late
    · exact (left.named key early).imp_right fun other => other.imp .inl (right.inputs key)
    · exact (right.named key late).imp_right fun other => other.imp_left .inr
  inputs := fun key has => right.inputs key (left.inputs key has)
  leads := by
    intro input key leads
    rcases right.leads input key leads with before | ⟨same, late⟩
    · exact (left.leads input key before).imp_right fun both => ⟨both.1, both.2.left right.last⟩
    · exact .inr ⟨same, late.right left.last⟩

/-- While numbers and ranges stay, no version is numbered. -/
theorem of_tame (ranged : before.Ranged) (tame : before.tables.Tame after.tables)
    (ranges : after.tables.ranges = before.tables.ranges)
    (numbers : after.tables.lastVersions = before.tables.lastVersions) :
    Mints range own [] before after := by
  have last (slot : Slot) : after.last slot = before.last slot := by
    unfold RunState.last
    rw [numbers]
  have same (key : VersionKey) : after.tables.range? key = before.tables.range? key := by
    unfold Tables.range?
    rw [ranges]
  have nothing (key : VersionKey) : ¬ NumberedIn before after key := fun numbered =>
    absurd (last key.slot ▸ numbered.numbered) (Nat.not_le_of_lt numbered.unnumbered)
  refine ⟨⟨ranges ▸ ranged.recorded, fun key beyond => ?_⟩, fun slot => Nat.le_of_eq (last slot).symm,
    fun slot _ => last slot, fun key _ => same key, fun key numbered => absurd numbered (nothing key),
    fun _ member => (nomatch member), fun key numbered => absurd numbered (nothing key), tame.inputs,
    fun input key leads => .inl (tame.leads input key leads)⟩
  rw [same]
  exact ranged.unnumbered key (last key.slot ▸ beyond)

theorem refl (ranged : before.Ranged) : Mints range own [] before before :=
  of_tame ranged (.refl _) rfl rfl

end Mints

/-! ## One version -/

section

variable {state after : RunState} {tree : StatementTree} {slot : Slot}
  {statement : Option StatementId}

theorem recorded_mint (tables : Tables) (tree : StatementTree) (slot : Slot)
    (statement : Option StatementId) :
    (tables.mint tree slot statement).1.ranges.isSome = tables.ranges.isSome := by
  unfold Tables.mint
  dsimp only
  split
  · exact Option.isSome_map ..
  · rfl

theorem range?_mint (ranged : state.Ranged) (key : VersionKey) :
    (state.tables.mint tree slot statement).1.range? key =
      if key = ⟨slot, state.last slot + 1⟩ then statement.bind tree.protector?
      else state.tables.range? key := by
  rcases Option.isSome_iff_exists.1 ranged.recorded with ⟨ranges, stored⟩
  have unknown := ranged.unnumbered ⟨slot, state.last slot + 1⟩ (Nat.lt_succ_self _)
  unfold Tables.range? Tables.mint at *
  dsimp only
  cases protects : statement.bind tree.protector? with
  | none =>
      dsimp only
      split
      · next same => rw [same, unknown]
      · rfl
  | some range =>
      dsimp only
      rw [stored, Option.map_some, Option.bind_some, Option.bind_some, ExtTreeMap.getElem?_insert]
      simp only [Std.compare_eq_iff_eq]
      exact ite_congr (propext eq_comm) (fun _ => rfl) fun _ => rfl

/-- The only version that is numbered is the next one of the slot. -/
private theorem numberedIn_mint (numbers : after.tables.lastVersions =
      (state.tables.mint tree slot statement).1.lastVersions) {key : VersionKey} :
    NumberedIn state after key ↔ key = ⟨slot, state.last slot + 1⟩ := by
  have last : after.last key.slot =
      if slot = key.slot then state.last slot + 1 else state.last key.slot := by
    rw [← state.last_mint tree slot key.slot statement]
    unfold RunState.last
    rw [numbers]
  constructor
  · rintro ⟨unnumbered, numbered⟩
    rw [last] at numbered
    split at numbered
    · next same =>
        subst same
        have equal : key.version = state.last key.slot + 1 :=
          Nat.le_antisymm numbered unnumbered
        rw [← equal]
    · exact absurd numbered (Nat.not_le_of_lt unnumbered)
  · rintro rfl
    rw [if_pos rfl] at last
    exact ⟨Nat.lt_succ_self _, Nat.le_of_eq last.symm⟩

theorem mints_mint {range : Option StatementId} {own : VersionKey} {spared : List VersionKey}
    (ranged : state.Ranged)
    (ranges : after.tables.ranges = (state.tables.mint tree slot statement).1.ranges)
    (numbers : after.tables.lastVersions =
      (state.tables.mint tree slot statement).1.lastVersions) (level : own.slot = slot)
    (chosen : spared = [] ∧ statement.bind tree.protector? = range ∨
      spared = [⟨slot, state.last slot + 1⟩] ∧ statement.bind tree.protector? = none)
    (named : spared = [] → own = ⟨slot, state.last slot + 1⟩ ∨
      after.tables.HasInput ⟨slot, state.last slot + 1⟩)
    (inputs : ∀ key, state.tables.HasInput key → after.tables.HasInput key)
    (leads : ∀ input key, after.tables.LeadsInto input key → state.tables.LeadsInto input key ∨
      key = own ∧ input = ⟨slot, state.last slot + 1⟩) :
    Mints range own spared state after := by
  have numberedIn (key : VersionKey) :
      NumberedIn state after key ↔ key = ⟨slot, state.last slot + 1⟩ := numberedIn_mint numbers
  have lookup (key : VersionKey) : after.tables.range? key =
      if key = ⟨slot, state.last slot + 1⟩ then statement.bind tree.protector?
      else state.tables.range? key := by
    rw [← range?_mint ranged]
    unfold Tables.range?
    rw [ranges]
  have last (other : Slot) : after.last other =
      if slot = other then state.last slot + 1 else state.last other := by
    rw [← state.last_mint tree slot other statement]
    unfold RunState.last
    rw [numbers]
  have grows (other : Slot) : state.last other ≤ after.last other := by
    rw [last]
    split
    · next same => exact same ▸ Nat.le_succ _
    · exact Nat.le_refl _
  refine ⟨⟨?_, fun key beyond => ?_⟩, grows, fun other different => ?_, fun key numbered => ?_,
    fun key numbered outside => ?_, fun key member => ?_, fun key numbered => ?_, inputs,
    fun input key leading => ?_⟩
  · rw [ranges, recorded_mint]
    exact ranged.recorded
  · rw [lookup, if_neg]
    · exact ranged.unnumbered key (Nat.lt_of_le_of_lt (grows key.slot) beyond)
    · intro isNew
      exact absurd ((numberedIn key).2 isNew).numbered (Nat.not_le_of_lt beyond)
  · rw [last, if_neg fun same => different (same.symm.trans level.symm)]
  · rw [lookup, if_neg]
    intro isNew
    exact absurd numbered (Nat.not_le_of_lt ((numberedIn key).2 isNew).unnumbered)
  · rcases chosen with ⟨-, protector⟩ | ⟨rfl, -⟩
    · rw [lookup, if_pos ((numberedIn key).1 numbered), protector]
    · exact absurd (List.mem_singleton.2 ((numberedIn key).1 numbered)) outside
  · rcases chosen with ⟨rfl, -⟩ | ⟨rfl, nothing⟩
    · exact nomatch member
    · have isNew := List.mem_singleton.1 member
      exact ⟨(numberedIn key).2 isNew, by rw [lookup, if_pos isNew, nothing]⟩
  · rcases (numberedIn key).1 numbered with rfl
    rcases chosen with ⟨empty, -⟩ | ⟨rfl, -⟩
    · exact (named empty).imp Eq.symm .inr
    · exact .inr (.inl List.mem_cons_self)
  · exact (leads input key leading).imp_right fun both => ⟨both.1, (numberedIn input).2 both.2⟩

/-- A version for a site is numbered, and the graph is edited beside. -/
theorem mints_own {site : StatementId} (ranged : state.Ranged)
    (ranges : after.tables.ranges = (state.tables.mint tree slot (some site)).1.ranges)
    (numbers : after.tables.lastVersions =
      (state.tables.mint tree slot (some site)).1.lastVersions)
    (tame : state.tables.Tame after.tables) :
    Mints (tree.protector? site) ⟨slot, state.last slot + 1⟩ [] state after :=
  mints_mint ranged ranges numbers rfl (.inl ⟨rfl, rfl⟩) (fun _ => .inl rfl) tame.inputs
    fun input key leads => .inl (tame.leads input key leads)

/-- A version of no statement is numbered, and the graph is edited beside. -/
theorem mints_spare (tree : StatementTree) {range : Option StatementId} {own : VersionKey}
    (ranged : state.Ranged)
    (ranges : after.tables.ranges = (state.tables.mint tree slot none).1.ranges)
    (numbers : after.tables.lastVersions = (state.tables.mint tree slot none).1.lastVersions)
    (level : own.slot = slot) (tame : state.tables.Tame after.tables) :
    Mints range own [⟨slot, state.last slot + 1⟩] state after :=
  mints_mint ranged ranges numbers level (.inr ⟨rfl, rfl⟩) (fun empty => nomatch empty) tame.inputs
    fun input key leads => .inl (tame.leads input key leads)

end

end SlotVersioning
