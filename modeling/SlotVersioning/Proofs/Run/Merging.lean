import SlotVersioning.Proofs.Run.Again

/-!
# What is merged

A version is in the phi table only because a recorded read merged it. `Performs.holds` finds that
read in a performance.
-/

namespace SlotVersioning

/-- The version is merged under the key. -/
def Tables.Holds (tables : Tables) (key : VersionKey) (version : Version) : Prop :=
  ∃ sources, tables.merged? key = some sources ∧ version ∈ sources

/-- Something is merged under every key of the phi table. -/
def Tables.Peopled (tables : Tables) : Prop :=
  ∀ key sources, tables.merged? key = some sources → ∃ version, version ∈ sources

namespace Merges

variable {target : VariableSite} {reaching : VersionSet} {before after : RunState}

private theorem holds (merges : Merges target reaching before after) {key : VersionKey}
    {version : Version} (holds : after.tables.Holds key version) :
    before.tables.Holds key version ∨
      key = ⟨target.slot, after.version target.expression⟩ ∧ version ∈ reaching := by
  rcases holds with ⟨sources, found, member⟩
  cases merges with
  | again versioned kept old known table =>
      rw [table key] at found
      split at found
      · next equal =>
          cases found
          rcases VersionSet.mem_union.1 member with earlier | now
          · exact .inl ⟨old, equal ▸ known, earlier⟩
          · rw [kept]
            exact .inr ⟨equal.symm, now⟩
      · exact .inl ⟨sources, found, member⟩
  | minted unknown numbered last table =>
      rw [table key] at found
      split at found
      · next equal =>
          cases found
          rw [numbered]
          exact .inr ⟨equal.symm, member⟩
      · exact .inl ⟨sources, found, member⟩

private theorem peopled (merges : Merges target reaching before after)
    (several : 2 ≤ reaching.cardinality) (peopled : before.tables.Peopled) :
    after.tables.Peopled := by
  intro key sources found
  rcases VersionSet.exists_mem_of_several several with ⟨version, member⟩
  cases merges with
  | again versioned kept old known table =>
      rw [table key] at found
      split at found
      · cases found
        exact ⟨version, VersionSet.mem_union.2 (.inr member)⟩
      · exact peopled key sources found
  | minted unknown numbered last table =>
      rw [table key] at found
      split at found
      · cases found
        exact ⟨version, member⟩
      · exact peopled key sources found

end Merges

/-- The visit is a recorded read, and its versions are merged under the key. -/
def RecordsAt (config : Config) (versions : ExprId → Version) (key : VersionKey)
    (place : Visit) (facts : Facts) : Prop :=
  ∃ target, place.site? = some target ∧ place.Recorded config (facts.reaching target.slot) ∧
    key = ⟨target.slot, versions target.expression⟩

namespace RunM

variable {site : Site} {place : Visit} {facts result : Facts} {state final : RunState}

private theorem act_holds (run : place.act site facts state = .ok result final) {key : VersionKey}
    {version : Version} (holds : final.tables.Holds key version) :
    state.tables.Holds key version ∨
      RecordsAt site.config final.version key place facts ∧
        version ∈ facts.reaching key.slot := by
  by_cases recorded : ∃ target, place.site? = some target ∧
      place.Recorded site.config (facts.reaching target.slot)
  · rcases recorded with ⟨target, visits, recorded⟩
    rcases (act_merges run visits recorded).holds holds with earlier | ⟨rfl, member⟩
    · exact .inl earlier
    · exact .inr ⟨⟨target, visits, recorded, rfl⟩, member⟩
  · have same := act_phi_same run fun target visits both => recorded ⟨target, visits, both⟩
    unfold Tables.Holds Tables.merged? at holds ⊢
    rw [same] at holds
    exact .inl holds

private theorem act_peopled (run : place.act site facts state = .ok result final)
    (peopled : state.tables.Peopled) : final.tables.Peopled := by
  by_cases recorded : ∃ target, place.site? = some target ∧
      place.Recorded site.config (facts.reaching target.slot)
  · rcases recorded with ⟨target, visits, recorded⟩
    exact (act_merges run visits recorded).peopled recorded.2.2 peopled
  · have same := act_phi_same run fun target visits both => recorded ⟨target, visits, both⟩
    unfold Tables.Peopled Tables.merged? at peopled ⊢
    rw [same]
    exact peopled

end RunM

namespace Performs

variable {site : Site} {log : List (Visit × Facts)} {before after : RunState}

/-- What is merged after a performance was merged before, or by a recorded read of it. -/
theorem holds (performed : Performs site log before after)
    (single : ((log.map Prod.fst).flatMap Visit.written).Nodup) {key : VersionKey}
    {version : Version} (holds : after.tables.Holds key version) :
    before.tables.Holds key version ∨ ∃ entry ∈ log,
      RecordsAt site.config after.version key entry.1 entry.2 ∧
        version ∈ entry.2.reaching key.slot := by
  induction performed with
  | nil => exact .inl holds
  | @cons place facts result rest before middle after first later induction =>
      rw [List.map_cons, List.flatMap_cons, List.nodup_append] at single
      rcases induction single.2.1 holds with earlier | ⟨entry, member, records⟩
      · rcases RunM.act_holds first earlier with start | ⟨⟨target, visits, recorded, rfl⟩, reaches⟩
        · exact .inl start
        · refine .inr ⟨(place, facts), List.mem_cons_self, ⟨target, visits, recorded, ?_⟩, reaches⟩
          have apart : target.expression ∉ (rest.map Prod.fst).flatMap Visit.written := by
            intro repeated
            exact single.2.2 _ (Visit.mem_written_of_site visits) _ repeated rfl
          rw [later.frame.version _ apart]
      · exact .inr ⟨entry, List.mem_cons_of_mem _ member, records⟩

theorem peopled (performed : Performs site log before after) (peopled : before.tables.Peopled) :
    after.tables.Peopled := by
  induction performed with
  | nil => exact peopled
  | cons first later induction => exact induction (RunM.act_peopled first peopled)

end Performs

end SlotVersioning
