import SlotVersioning.Proofs.Run.Stable

/-!
# Running again

A performance leaves all its visits stable (`Performs.stable`). A course that is run from facts
whose arrivals are stable changes neither versions nor the phi table (`Course.run_again`).
-/

namespace SlotVersioning

/-- The versions written and the versions merged are the same. -/
structure Alike (before after : RunState) : Prop where
  version : after.version = before.version
  merged : after.tables.merged? = before.tables.merged?

namespace Alike

variable {first second third : RunState}

theorem refl (state : RunState) : Alike state state := ⟨rfl, rfl⟩

theorem trans (left : Alike first second) (right : Alike second third) : Alike first third :=
  ⟨right.version.trans left.version, right.merged.trans left.merged⟩

theorem of_phi (version : second.version = first.version)
    (phi : second.tables.phi = first.tables.phi) : Alike first second := by
  exact ⟨version, funext (Tables.merged?_congr phi)⟩

private theorem of_quiet (quiet : Quiet first second) : Alike first second :=
  .of_phi (funext quiet.version) quiet.phi

end Alike

/-- A site that has a version already keeps it. -/
theorem Stamps.alike {target : VariableSite} {before after : RunState}
    (stamps : Stamps target before after) (versioned : before.version target.expression ≠ 0) :
    Alike before after := by
  refine .of_phi (funext fun expression => ?_) stamps.phi
  by_cases same : expression = target.expression
  · rw [same]
    exact stamps.kept versioned
  · exact stamps.others expression same

private theorem Merges.alike {target : VariableSite} {reaching old : VersionSet}
    {before after : RunState} (merges : Merges target reaching before after)
    (touches : Touches target before after) (versioned : before.version target.expression ≠ 0)
    (known : before.tables.merged? ⟨target.slot, before.version target.expression⟩ = some old)
    (subset : ∀ version ∈ reaching, version ∈ old) : Alike before after := by
  cases merges with
  | again _ kept sources found table =>
      rw [known] at found
      cases found
      constructor
      · funext expression
        by_cases same : expression = target.expression
        · rw [same]
          exact kept
        · exact touches.others expression same
      · funext key
        rw [table key]
        split
        · next equal =>
            rw [← equal, known]
            refine congrArg some (VersionSet.ext fun version => ?_)
            rw [VersionSet.mem_union]
            exact ⟨fun either => either.elim id (subset version), .inl⟩
        · rfl
  | minted unknown version last table =>
      rw [unknown versioned] at known
      exact nomatch known

namespace RunM

variable {site : Site} {place : Visit} {target : VariableSite} {facts result : Facts}
  {state final : RunState}

private theorem Reading.alike (reading : Reading site target facts state result final)
    (stable : Stable site.config state.version state.tables.merged? true target
      (facts.reaching target.slot)) : Alike state final := by
  cases reading with
  | undefined unreached run =>
      exact (define_ok run).stamps.alike (stable.owned (.inr (.inr unreached)))
  | adopting only plain reached =>
      refine .of_phi (funext fun expression => ?_) rfl
      rw [RunState.version_insert]
      split
      · next same =>
          rw [← same]
          exact (stable.adopted plain rfl only reached).symm
      · rfl
  | splitting source usage reached run =>
      exact (splitRead_ok run).stamps.alike (stable.owned (.inl usage))
  | merging usage several run =>
      exact (mergeRead_ok run).stamps.alike (stable.owned (.inl usage))
  | tabulating plain several run =>
      rcases stable.joined plain rfl several with ⟨versioned, old, known, subset⟩
      rcases tabulateRead_ok run with ⟨phi, stored, tabulating⟩
      exact (tabulating.merges stored).alike tabulating.touches versioned known subset

/-- Running a stable visit again changes nothing of what was written. -/
theorem act_again (run : place.act site facts state = .ok result final)
    (stable : ∀ target, place.site? = some target →
      Stable site.config state.version state.tables.merged? place.isRead target
        (facts.reaching target.slot)) :
    Alike state final := by
  cases act_ok run with
  | read reading => exact (read_ok reading).alike (stable _ rfl)
  | increment reading increases =>
      exact ((read_ok reading).alike (stable _ rfl)).trans
        (.of_quiet (incrementVariable_ok increases).1)
  | define definition =>
      exact (define_ok definition).stamps.alike ((stable _ rfl).owned (.inr (.inl rfl)))
  | assign definition copy =>
      exact ((define_ok definition).stamps.alike ((stable _ rfl).owned (.inr (.inl rfl)))).trans
        (.of_quiet (quietly_recordCopy _ _ _ _ _ copy))
  | field request => exact .of_quiet (quietly_slotOfField _ _ _ _ request)
  | unversionedField | clobber => exact .refl _

end RunM

/-! ## Performances -/

namespace Performs

variable {site : Site} {log : List (Visit × Facts)} {before after : RunState}

theorem grows (performed : Performs site log before after) (numbered : before.Numbered) :
    Grows before after ∧ after.Numbered := by
  induction performed with
  | nil => exact ⟨.of_phi rfl, numbered⟩
  | cons first later induction =>
      have here := RunM.act_grows first numbered
      have rest := induction here.2
      exact ⟨here.1.trans rest.1, rest.2⟩

/-- A performance without a repeated site leaves its visits stable. -/
theorem stable (performed : Performs site log before after)
    (single : ((log.map Prod.fst).flatMap Visit.written).Nodup) (numbered : before.Numbered) :
    ∀ entry ∈ log, ∀ target, entry.1.site? = some target →
      Stable site.config after.version after.tables.merged? entry.1.isRead target
        (entry.2.reaching target.slot) := by
  induction performed with
  | nil => exact fun _ member => nomatch member
  | @cons place facts result rest before middle after first later induction =>
      rw [List.map_cons, List.flatMap_cons, List.nodup_append] at single
      have middleNumbered := (RunM.act_grows first numbered).2
      intro entry member target visits
      rcases List.mem_cons.1 member with rfl | member
      · have apart : target.expression ∉ (rest.map Prod.fst).flatMap Visit.written := by
          intro repeated
          exact single.2.2 _ (Visit.mem_written_of_site visits) _ repeated rfl
        exact (RunM.act_stable first visits).of_grows (later.frame.version _ apart)
          (later.grows middleNumbered).1
      · exact induction single.2.1 middleNumbered entry member target visits

end Performs

namespace Course

variable {site : Site} {course : Course} {facts : Facts} {result : Facts × Facts}
  {state final : RunState}

/-- All visits of a course are to variables, which are not field accesses. -/
def Ordinary (course : Course) : Prop :=
  ∀ place ∈ course.visits, ∀ target, place.site? = some target → 0 ≤ target.slot

/-- All visits of a course are stable where the facts arrive at them. -/
def StableFrom (config : Config) (course : Course) (facts : Facts) (state : RunState) : Prop :=
  ∀ slot : Slot, 0 ≤ slot →
    ∀ arrival ∈ course.arrivals state.version slot (facts.reaching slot),
    ∀ target, arrival.1.site? = some target → target.slot = slot →
      Stable config state.version state.tables.merged? arrival.1.isRead target arrival.2

theorem Done.stable {log : List (Visit × Facts)}
    (done : course.Done site facts result log state final) (single : course.sites.Nodup)
    (numbered : state.Numbered) : StableFrom site.config course facts final := by
  intro slot ordinary arrival member target visits same
  rw [← done.arrivals slot ordinary, List.mem_map] at member
  rcases member with ⟨entry, inLog, rfl⟩
  have distinct : ((log.map Prod.fst).flatMap Visit.written).Nodup := by
    rw [done.visits]
    exact single
  have settled := done.performs.stable distinct numbered entry inLog target visits
  rw [same] at settled
  exact settled

theorem StableFrom.of_alike {config : Config} (stable : StableFrom config course facts state)
    (alike : Alike state final) : StableFrom config course facts final := by
  unfold StableFrom at stable ⊢
  rw [alike.version, alike.merged]
  exact stable

/-- A course that is run from stable facts changes nothing of what was written. -/
theorem run_again (run : course.run site facts state = .ok result final)
    (single : course.sites.Nodup) (ordinary : course.Ordinary) (negative : state.FieldsNegative)
    (stable : StableFrom site.config course facts state) : Alike state final := by
  induction course generalizing facts result state final with
  | free =>
      rcases RunM.pure_ok run with ⟨rfl, rfl⟩
      exact .refl _
  | settled outcome =>
      cases outcome <;> obtain ⟨rfl, rfl⟩ := RunM.pure_ok run <;> exact .refl _
  | stuck fault => exact nomatch run
  | visit place =>
      rcases run_visit_ok run with ⟨carried, visited, rfl⟩
      apply RunM.act_again visited
      intro target visits
      exact stable target.slot (ordinary place List.mem_cons_self target visits) _
        List.mem_cons_self target visits rfl
  | chain first rest firstInduction restInduction =>
      rcases run_chain_ok run with ⟨between, middle, firstRun, run⟩
      rw [sites_chain, List.nodup_append] at single
      have firstAlike := firstInduction firstRun single.1
        (fun place member => ordinary place (List.mem_append_left _ member)) negative
        fun slot positive arrival member =>
          stable slot positive arrival (List.mem_append_left _ member)
      rcases run_ok firstRun single.1 negative with ⟨log, done⟩
      refine firstAlike.trans (restInduction run single.2.1
        (fun place member => ordinary place (List.mem_append_right _ member))
        (done.frame.fields negative) ?_)
      intro slot positive arrival member
      rw [firstAlike.version, Facts.reaching_union, done.onTrue slot positive,
        done.onFalse slot positive, firstAlike.version] at member
      rw [firstAlike.version, firstAlike.merged]
      exact stable slot positive arrival (List.mem_append_right _ member)
  | test condition onTrue onFalse conditionInduction trueInduction falseInduction =>
      rcases run_test_ok run with
        ⟨tested, second, left, third, right, conditionRun, trueRun, falseRun, rfl⟩
      rw [sites_test, List.nodup_append, List.nodup_append] at single
      rcases single with ⟨conditionSingle, ⟨trueSingle, falseSingle, -⟩, -⟩
      have conditionAlike := conditionInduction conditionRun conditionSingle
        (fun place member => ordinary place (List.mem_append_left _ member)) negative
        fun slot positive arrival member =>
          stable slot positive arrival (List.mem_append_left _ member)
      rcases run_ok conditionRun conditionSingle negative with ⟨log, done⟩
      have secondNegative := done.frame.fields negative
      have trueAlike := trueInduction trueRun trueSingle
        (fun place member =>
          ordinary place (List.mem_append_right _ (List.mem_append_left _ member)))
        secondNegative (by
          intro slot positive arrival member
          rw [conditionAlike.version, done.onTrue slot positive, conditionAlike.version] at member
          rw [conditionAlike.version, conditionAlike.merged]
          exact stable slot positive arrival
            (List.mem_append_right _ (List.mem_append_left _ member)))
      rcases run_ok trueRun trueSingle secondNegative with ⟨trueLog, trueDone⟩
      have through := conditionAlike.trans trueAlike
      refine through.trans (falseInduction falseRun falseSingle
        (fun place member =>
          ordinary place (List.mem_append_right _ (List.mem_append_right _ member)))
        (trueDone.frame.fields secondNegative) ?_)
      intro slot positive arrival member
      rw [through.version, done.onFalse slot positive, conditionAlike.version] at member
      rw [through.version, through.merged]
      exact stable slot positive arrival
        (List.mem_append_right _ (List.mem_append_right _ member))

end Course

end SlotVersioning
