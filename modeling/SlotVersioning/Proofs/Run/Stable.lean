import SlotVersioning.Proofs.Run.Performance

/-!
# Stable visits

A visit is stable when the versions and the phi table already say what it would write. Every visit
leaves itself stable (`act_stable`), and it stays stable while other sites are visited, for versions
are kept there and the phi table only grows (`act_grows`). Running a stable visit again changes
neither versions nor the phi table (`act_again`).
-/

namespace SlotVersioning

open Std

/-- The versions merged under a key, if the key has an entry in the phi table. -/
def Tables.merged? (tables : Tables) (key : VersionKey) : Option VersionSet :=
  tables.phi.bind fun phi => phi[key]?

theorem Tables.merged?_congr {before after : Tables} (same : after.phi = before.phi)
    (key : VersionKey) : after.merged? key = before.merged? key := by
  unfold Tables.merged?
  rw [same]

theorem Tables.merged?_of_stored {tables : Tables} {phi : ExtTreeMap VersionKey VersionSet}
    (stored : tables.phi = some phi) (key : VersionKey) : tables.merged? key = phi[key]? := by
  unfold Tables.merged?
  rw [stored]
  rfl

/-- The versions written and the versions merged agree with a visit to the site that `reaching`
arrives at. -/
structure Stable (config : Config) (versions : ExprId → Version)
    (merged : VersionKey → Option VersionSet) (isRead : Bool) (target : VariableSite)
    (reaching : VersionSet) : Prop where
  /-- Definitions, reads with usage versions and reads of nothing have a version of their own. -/
  owned : config.has .usageVersions = true ∨ isRead = false ∨ reaching = ∅ →
    versions target.expression ≠ 0
  /-- A read of one version has that version. -/
  adopted : config.has .usageVersions = false → isRead = true →
    ∀ only, reaching = {only} → versions target.expression = only
  /-- A read of several versions has a version under which they are merged. -/
  joined : config.has .usageVersions = false → isRead = true → 2 ≤ reaching.cardinality →
    versions target.expression ≠ 0 ∧
      ∃ sources, merged ⟨target.slot, versions target.expression⟩ = some sources ∧
        ∀ version ∈ reaching, version ∈ sources

/-- Merged versions keep what is merged into them. -/
def Grows (before after : RunState) : Prop :=
  ∀ key sources, before.tables.merged? key = some sources →
    ∃ more, after.tables.merged? key = some more ∧ ∀ version ∈ sources, version ∈ more

/-- Merged versions were numbered. -/
def RunState.Numbered (state : RunState) : Prop :=
  ∀ key sources, state.tables.merged? key = some sources → key.version ≤ state.last key.slot

namespace VersionSet

theorem cardinality_empty : (∅ : VersionSet).cardinality = 0 := by
  rw [cardinality_eq, List.length_eq_zero_iff, List.eq_nil_iff_forall_not_mem]
  exact fun version member => not_mem_empty version (mem_toList.1 member)

theorem cardinality_singleton (only : Version) : ({only} : VersionSet).cardinality = 1 := by
  have members : ∀ version, version ∈ ({only} : VersionSet).toList ↔ version = only :=
    fun version => by rw [mem_toList, mem_singleton]
  have ascending := toList_ascending ({only} : VersionSet)
  rw [cardinality_eq]
  rcases listed : ({only} : VersionSet).toList with _ | ⟨first, _ | ⟨second, rest⟩⟩
  · have := (members only).2 rfl
    rw [listed] at this
    exact nomatch this
  · rfl
  · rw [listed] at members ascending
    have less := (List.pairwise_cons.1 ascending).1 second List.mem_cons_self
    have firstOnly := (members first).1 List.mem_cons_self
    have secondOnly := (members second).1 (List.mem_cons_of_mem _ List.mem_cons_self)
    omega

/-- A set is empty, a singleton or has several members. -/
theorem cases_cardinality (set : VersionSet) :
    set = ∅ ∨ (∃ only, set = {only}) ∨ 2 ≤ set.cardinality := by
  rw [cardinality_eq]
  rcases members : set.toList with _ | ⟨only, _ | ⟨other, rest⟩⟩
  · exact .inl (eq_empty_of_toList members)
  · exact .inr (.inl ⟨only, eq_singleton_of_toList members⟩)
  · exact .inr (.inr (by simp))

theorem exists_mem_of_several {set : VersionSet} (several : 2 ≤ set.cardinality) :
    ∃ version, version ∈ set := by
  rw [cardinality_eq] at several
  cases members : set.toList with
  | nil =>
      rw [members, List.length_nil] at several
      omega
  | cons first rest => exact ⟨first, mem_toList.1 (members ▸ List.mem_cons_self)⟩

end VersionSet

namespace Grows

theorem of_phi {before after : RunState} (same : after.tables.phi = before.tables.phi) :
    Grows before after := by
  intro key sources found
  exact ⟨sources, (Tables.merged?_congr same key).trans found, fun _ member => member⟩

theorem trans {first second third : RunState} (left : Grows first second)
    (right : Grows second third) : Grows first third := by
  intro key sources found
  rcases left key sources found with ⟨more, foundMore, subset⟩
  rcases right key more foundMore with ⟨most, foundMost, further⟩
  exact ⟨most, foundMost, fun version member => further version (subset version member)⟩

end Grows

theorem Stable.of_grows {config : Config} {before after : RunState} {isRead : Bool}
    {target : VariableSite} {reaching : VersionSet}
    (stable : Stable config before.version before.tables.merged? isRead target reaching)
    (kept : after.version target.expression = before.version target.expression)
    (grows : Grows before after) :
    Stable config after.version after.tables.merged? isRead target reaching where
  owned := fun own => by
    rw [kept]
    exact stable.owned own
  adopted := fun plain read only equal => by
    rw [kept]
    exact stable.adopted plain read only equal
  joined := fun plain read several => by
    rcases stable.joined plain read several with ⟨versioned, sources, found, subset⟩
    rcases grows _ sources found with ⟨more, foundMore, further⟩
    rw [kept]
    exact ⟨versioned, more, foundMore,
      fun version member => further version (subset version member)⟩

/-- A read of several versions merges them: under its version, which has been merged before, or
under a new one. -/
inductive Merges (target : VariableSite) (reaching : VersionSet) (before after : RunState) : Prop
  | again (versioned : before.version target.expression ≠ 0)
      (kept : after.version target.expression = before.version target.expression)
      (old : VersionSet)
      (known : before.tables.merged? ⟨target.slot, before.version target.expression⟩ = some old)
      (table : ∀ other, after.tables.merged? other =
        if ⟨target.slot, before.version target.expression⟩ = other then some (old ∪ reaching)
        else before.tables.merged? other)
  | minted
      (unknown : before.version target.expression ≠ 0 →
        before.tables.merged? ⟨target.slot, before.version target.expression⟩ = none)
      (version : after.version target.expression = before.last target.slot + 1)
      (last : before.last target.slot + 1 ≤ after.last target.slot)
      (table : ∀ other, after.tables.merged? other =
        if ⟨target.slot, before.last target.slot + 1⟩ = other then some reaching
        else before.tables.merged? other)

namespace Merges

variable {target : VariableSite} {reaching : VersionSet} {before middle after : RunState}

private theorem trans_quiet (merges : Merges target reaching before middle)
    (quiet : Quiet middle after) : Merges target reaching before after := by
  have same (key : VersionKey) : after.tables.merged? key = middle.tables.merged? key :=
    Tables.merged?_congr quiet.phi key
  cases merges with
  | again versioned kept old known table =>
      exact .again versioned ((quiet.version _).trans kept) old known
        fun other => (same other).trans (table other)
  | minted unknown version bound table =>
      exact .minted unknown ((quiet.version _).trans version) (Nat.le_trans bound (quiet.last _))
        fun other => (same other).trans (table other)

private theorem grows (merges : Merges target reaching before after) (numbered : before.Numbered) :
    Grows before after := by
  intro key sources found
  cases merges with
  | again versioned kept old known table =>
      rw [table key]
      split
      · next equal =>
          subst equal
          rw [known] at found
          cases found
          exact ⟨_, rfl, fun version member => VersionSet.mem_union.2 (.inl member)⟩
      · exact ⟨sources, found, fun _ member => member⟩
  | minted unknown version last table =>
      rw [table key, if_neg]
      · exact ⟨sources, found, fun _ member => member⟩
      · intro equal
        have bound := numbered key sources found
        subst equal
        exact absurd bound (Nat.not_succ_le_self _)

private theorem numbered (merges : Merges target reaching before after) (numbered : before.Numbered)
    (lasts : ∀ slot, before.last slot ≤ after.last slot) : after.Numbered := by
  intro key sources found
  cases merges with
  | again versioned kept old known table =>
      rw [table key] at found
      split at found
      · next equal =>
          subst equal
          exact Nat.le_trans (numbered _ old known) (lasts _)
      · exact Nat.le_trans (numbered key sources found) (lasts _)
  | minted unknown version last table =>
      rw [table key] at found
      split at found
      · next equal =>
          subst equal
          exact last
      · exact Nat.le_trans (numbered key sources found) (lasts _)

/-- Afterwards the site has a version under which the versions are merged. -/
private theorem merged (merges : Merges target reaching before after) :
    after.version target.expression ≠ 0 ∧
      ∃ sources, after.tables.merged? ⟨target.slot, after.version target.expression⟩ =
        some sources ∧ ∀ version ∈ reaching, version ∈ sources := by
  cases merges with
  | again versioned kept old known table =>
      rw [kept, table, if_pos rfl]
      exact ⟨versioned, _, rfl, fun version member => VersionSet.mem_union.2 (.inr member)⟩
  | minted unknown version last table =>
      rw [version, table, if_pos rfl]
      exact ⟨Nat.succ_ne_zero _, _, rfl, fun _ member => member⟩

end Merges

/-! ## Being stable -/

namespace Stable

variable {config : Config} {isRead : Bool} {target : VariableSite} {reaching : VersionSet}
  {state final : RunState}

private theorem of_quiet
    (stable : Stable config state.version state.tables.merged? isRead target reaching)
    (quiet : Quiet state final) :
    Stable config final.version final.tables.merged? isRead target reaching :=
  stable.of_grows (quiet.version _) (.of_phi quiet.phi)

theorem of_owned
    (versioned : final.version target.expression ≠ 0)
    (owned : config.has .usageVersions = true ∨ isRead = false ∨ reaching = ∅) :
    Stable config final.version final.tables.merged? isRead target reaching where
  owned := fun _ => versioned
  adopted := by
    intro plain read only equal
    rcases owned with usage | write | unreached
    · exact absurd (plain.symm.trans usage) Bool.false_ne_true
    · exact absurd (write.symm.trans read) Bool.false_ne_true
    · have sizes := congrArg VersionSet.cardinality (unreached.symm.trans equal)
      rw [VersionSet.cardinality_empty, VersionSet.cardinality_singleton] at sizes
      omega
  joined := by
    intro plain read several
    rcases owned with usage | write | unreached
    · exact absurd (plain.symm.trans usage) Bool.false_ne_true
    · exact absurd (write.symm.trans read) Bool.false_ne_true
    · rw [unreached, VersionSet.cardinality_empty] at several
      omega

private theorem of_merges (merges : Merges target reaching state final)
    (plain : config.has .usageVersions = false) (several : 2 ≤ reaching.cardinality) :
    Stable config final.version final.tables.merged? true target reaching where
  owned := by
    rintro (usage | write | unreached)
    · exact absurd (plain.symm.trans usage) Bool.false_ne_true
    · exact absurd write.symm Bool.false_ne_true
    · rw [unreached, VersionSet.cardinality_empty] at several
      omega
  adopted := by
    intro _ _ only equal
    rw [equal, VersionSet.cardinality_singleton] at several
    omega
  joined := fun _ _ _ => merges.merged

end Stable

/-- A read is recorded in the phi table when several versions reach it and reads have no versions
of their own. -/
def Visit.Recorded (place : Visit) (config : Config) (reaching : VersionSet) : Prop :=
  place.isRead = true ∧ config.has .usageVersions = false ∧ 2 ≤ reaching.cardinality

namespace RunM

/-! ## What a visit does to the phi table -/

theorem merged?_insert {tables : Tables} {phi : ExtTreeMap VersionKey VersionSet}
    {key other : VersionKey} {sources : VersionSet}
    (stored : tables.phi = some (phi.insert key sources)) :
    tables.merged? other = if key = other then some sources else phi[other]? := by
  rw [Tables.merged?_of_stored stored, ExtTreeMap.getElem?_insert]
  simp only [Std.compare_eq_iff_eq]

theorem Tabulating.merges {site : Site} {target : VariableSite} {reaching : VersionSet}
    {facts result : Facts} {phi : ExtTreeMap VersionKey VersionSet} {before after : RunState}
    (stored : before.tables.phi = some phi)
    (tabulating : Tabulating site target reaching facts phi before result after) :
    Merges target reaching before after := by
  have lookup := Tables.merged?_of_stored stored
  cases tabulating with
  | again versioned known =>
      have found : phi[(⟨target.slot, before.version target.expression⟩ : VersionKey)]? =
          some (phi.getD ⟨target.slot, before.version target.expression⟩ ∅) :=
        ExtTreeMap.getElem?_eq_some_getD (ExtTreeMap.contains_iff_mem.1 known)
      refine .again versioned rfl _ ((lookup _).trans found) fun other => ?_
      rw [lookup]
      exact merged?_insert rfl
  | minting unknown touches version last table =>
      refine .minted (fun versioned => ?_) version (Nat.le_of_eq last.symm) fun other => ?_
      · rw [lookup]
        exact ExtTreeMap.getElem?_eq_none_of_contains_eq_false (unknown versioned)
      · rw [lookup]
        exact merged?_insert table

variable {site : Site} {place : Visit} {target : VariableSite} {facts result : Facts}
  {state final : RunState}

private theorem Reading.merges (reading : Reading site target facts state result final)
    (plain : site.config.has .usageVersions = false)
    (several : 2 ≤ (facts.reaching target.slot).cardinality) :
    Merges target (facts.reaching target.slot) state final := by
  cases reading with
  | undefined unreached run =>
      rw [unreached, VersionSet.cardinality_empty] at several
      omega
  | adopting only _ reached =>
      rw [reached, VersionSet.cardinality_singleton] at several
      omega
  | splitting source usage reached run => exact absurd (plain.symm.trans usage) Bool.false_ne_true
  | merging usage several run => exact absurd (plain.symm.trans usage) Bool.false_ne_true
  | tabulating _ _ run =>
      rcases tabulateRead_ok run with ⟨phi, stored, tabulating⟩
      exact tabulating.merges stored

private theorem Reading.phi_same (reading : Reading site target facts state result final)
    (unrecorded : ¬ (site.config.has .usageVersions = false ∧
      2 ≤ (facts.reaching target.slot).cardinality)) :
    final.tables.phi = state.tables.phi := by
  cases reading with
  | undefined unreached run => exact (define_ok run).stamps.phi
  | adopting only plain reached => rfl
  | splitting source usage reached run => exact (splitRead_ok run).stamps.phi
  | merging usage several run => exact (mergeRead_ok run).stamps.phi
  | tabulating plain several run => exact absurd ⟨plain, several⟩ unrecorded

/-- A recorded read merges what reaches it. -/
theorem act_merges (run : place.act site facts state = .ok result final)
    (visits : place.site? = some target)
    (recorded : place.Recorded site.config (facts.reaching target.slot)) :
    Merges target (facts.reaching target.slot) state final := by
  rcases recorded with ⟨isRead, plain, several⟩
  cases act_ok run with
  | read reading =>
      cases visits
      exact (read_ok reading).merges plain several
  | increment reading increases =>
      cases visits
      exact ((read_ok reading).merges plain several).trans_quiet (incrementVariable_ok increases).1
  | define | assign | field | unversionedField | clobber =>
      exact absurd isRead Bool.false_ne_true

/-- No other visit changes the phi table. -/
theorem act_phi_same (run : place.act site facts state = .ok result final)
    (unrecorded : ∀ target, place.site? = some target →
      ¬ place.Recorded site.config (facts.reaching target.slot)) :
    final.tables.phi = state.tables.phi := by
  cases act_ok run with
  | @read target _ _ reading =>
      exact (read_ok reading).phi_same fun both => unrecorded target rfl ⟨rfl, both⟩
  | @increment target _ _ _ _ reading increases =>
      rw [(incrementVariable_ok increases).1.phi]
      exact (read_ok reading).phi_same fun both => unrecorded target rfl ⟨rfl, both⟩
  | define definition => exact (define_ok definition).stamps.phi
  | assign definition copy =>
      rw [(quietly_recordCopy _ _ _ _ _ copy).phi]
      exact (define_ok definition).stamps.phi
  | field request => exact (quietly_slotOfField _ _ _ _ request).phi
  | unversionedField | clobber => rfl

theorem act_grows (run : place.act site facts state = .ok result final)
    (numbered : state.Numbered) : Grows state final ∧ final.Numbered := by
  by_cases recorded : ∃ target, place.site? = some target ∧
      place.Recorded site.config (facts.reaching target.slot)
  · rcases recorded with ⟨target, visits, recorded⟩
    have merges := act_merges run visits recorded
    exact ⟨merges.grows numbered, merges.numbered numbered (act_frame run).last⟩
  · have same := act_phi_same run fun target visits both => recorded ⟨target, visits, both⟩
    refine ⟨.of_phi same, fun key sources found => ?_⟩
    rw [Tables.merged?_congr same] at found
    exact Nat.le_trans (numbered key sources found) ((act_frame run).last _)

/-! ## A visit leaves itself stable -/

private theorem Reading.stable (reading : Reading site target facts state result final) :
    Stable site.config final.version final.tables.merged? true target
      (facts.reaching target.slot) := by
  cases reading with
  | undefined unreached run =>
      exact Stable.of_owned (define_ok run).stamps.ne_zero (.inr (.inr unreached))
  | adopting only plain reached =>
      refine ⟨?_, ?_, ?_⟩
      · rintro (usage | write | unreached)
        · exact absurd (plain.symm.trans usage) Bool.false_ne_true
        · exact absurd write.symm Bool.false_ne_true
        · have sizes := congrArg VersionSet.cardinality (reached.symm.trans unreached)
          rw [VersionSet.cardinality_empty, VersionSet.cardinality_singleton] at sizes
          omega
      · intro _ _ other equal
        have same : other ∈ ({only} : VersionSet) := by
          rw [← reached, equal]
          exact VersionSet.mem_singleton.2 rfl
        rw [RunState.version_insert, if_pos rfl]
        exact (VersionSet.mem_singleton.1 same).symm
      · intro _ _ several
        rw [reached, VersionSet.cardinality_singleton] at several
        omega
  | splitting source usage reached run =>
      exact Stable.of_owned (splitRead_ok run).stamps.ne_zero (.inl usage)
  | merging usage several run =>
      exact Stable.of_owned (mergeRead_ok run).stamps.ne_zero (.inl usage)
  | tabulating plain several run =>
      rcases tabulateRead_ok run with ⟨phi, stored, tabulating⟩
      exact Stable.of_merges (tabulating.merges stored) plain several

/-- Every visit leaves itself stable. -/
theorem act_stable (run : place.act site facts state = .ok result final)
    (visits : place.site? = some target) :
    Stable site.config final.version final.tables.merged? place.isRead target
      (facts.reaching target.slot) := by
  cases act_ok run with
  | read reading =>
      cases visits
      exact (read_ok reading).stable
  | increment reading increases =>
      cases visits
      exact Stable.of_quiet (read_ok reading).stable (incrementVariable_ok increases).1
  | define definition =>
      cases visits
      exact Stable.of_owned (define_ok definition).stamps.ne_zero (.inr (.inl rfl))
  | assign definition copy =>
      cases visits
      exact Stable.of_quiet
        (Stable.of_owned (define_ok definition).stamps.ne_zero (.inr (.inl rfl)))
        (quietly_recordCopy _ _ _ _ _ copy)
  | field | unversionedField | clobber => exact nomatch visits

end RunM

end SlotVersioning
