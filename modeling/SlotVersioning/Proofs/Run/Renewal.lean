import SlotVersioning.Proofs.Run.Stable

/-!
# Renewal

Without usage versions a read that one version reaches adopts it, and so the versions of reads
change from pass to pass. `Renewal` tells how a visit comes to the version that it leaves at its
site: it adopts one, keeps the one that was there, or mints one. `Renewed` says this of all visits
since a pass began, against the state in which it began.
-/

namespace SlotVersioning

/-- A visit adopts a version when it reads a variable that one version reaches. -/
def Adopts (isRead : Bool) (reaching : VersionSet) : Prop :=
  isRead = true ∧ ∃ only, reaching = {only}

/-- How a site came to its version. -/
inductive Renewal (start final : RunState) (isRead : Bool) (target : VariableSite)
    (reaching : VersionSet) : Prop
  | adopts (only : Version) (reads : isRead = true) (alone : reaching = {only})
      (version : final.version target.expression = only)
  | keeps (owns : ¬ Adopts isRead reaching)
      (versioned : start.version target.expression ≠ 0)
      (version : final.version target.expression = start.version target.expression)
  | mints (owns : ¬ Adopts isRead reaching)
      (eligible : start.version target.expression = 0 ∨ isRead = true ∧ 2 ≤ reaching.cardinality ∧
        start.tables.merged? ⟨target.slot, start.version target.expression⟩ = none)
      (fresh : start.last target.slot < final.version target.expression)
      (bounded : final.version target.expression ≤ final.last target.slot)

private theorem not_adopts_of_several {isRead : Bool} {reaching : VersionSet}
    (several : 2 ≤ reaching.cardinality) : ¬ Adopts isRead reaching := by
  rintro ⟨-, only, rfl⟩
  rw [VersionSet.cardinality_singleton] at several
  omega

private theorem not_adopts_empty {isRead : Bool} : ¬ Adopts isRead ∅ := by
  rintro ⟨-, only, alone⟩
  have sizes := congrArg VersionSet.cardinality alone
  rw [VersionSet.cardinality_empty, VersionSet.cardinality_singleton] at sizes
  omega

namespace Grows

theorem none_of_none {before after : RunState} (grows : Grows before after) {key : VersionKey}
    (absent : after.tables.merged? key = none) : before.tables.merged? key = none := by
  cases found : before.tables.merged? key with
  | none => rfl
  | some sources =>
      rcases grows key sources found with ⟨more, stored, -⟩
      exact nomatch absent.symm.trans stored

end Grows

namespace Renewal

variable {start state final : RunState} {isRead : Bool} {target : VariableSite}
  {reaching : VersionSet}

/-- A visit that renews its site against the state before it renews it against an earlier one. -/
theorem since (renewal : Renewal state final isRead target reaching)
    (version : state.version target.expression = start.version target.expression)
    (last : ∀ slot, start.last slot ≤ state.last slot) (grows : Grows start state) :
    Renewal start final isRead target reaching := by
  cases renewal with
  | adopts only reads alone adopted => exact .adopts only reads alone adopted
  | keeps owns versioned kept =>
      rw [version] at versioned kept
      exact .keeps owns versioned kept
  | mints owns eligible fresh bounded =>
      rw [version] at eligible
      have allowed := eligible.imp_right fun ⟨reads, several, absent⟩ =>
        And.intro reads (And.intro several (grows.none_of_none absent))
      exact .mints owns allowed (Nat.lt_of_le_of_lt (last _) fresh) bounded

theorem later (renewal : Renewal start state isRead target reaching)
    (version : final.version target.expression = state.version target.expression)
    (last : ∀ slot, state.last slot ≤ final.last slot) :
    Renewal start final isRead target reaching := by
  cases renewal with
  | adopts only reads alone adopted => exact .adopts only reads alone (version.trans adopted)
  | keeps owns versioned kept => exact .keeps owns versioned (version.trans kept)
  | mints owns eligible fresh bounded =>
      rw [← version] at fresh bounded
      exact .mints owns eligible fresh (Nat.le_trans bounded (last _))

theorem of_stamps (stamps : Stamps target start final) (owns : ¬ Adopts isRead reaching) :
    Renewal start final isRead target reaching := by
  by_cases versioned : start.version target.expression = 0
  · exact .mints owns (.inl versioned) (stamps.fresh versioned) (stamps.bounded versioned)
  · exact .keeps owns versioned (stamps.kept versioned)

end Renewal

namespace RunM

variable {site : Site} {place : Visit} {target : VariableSite} {facts result : Facts}
  {state final : RunState}

private theorem Reading.renewal (reading : Reading site target facts state result final)
    (plain : site.config.has .usageVersions = false) :
    Renewal state final true target (facts.reaching target.slot) := by
  cases reading with
  | undefined unreached run =>
      rw [unreached]
      exact .of_stamps (define_ok run).stamps not_adopts_empty
  | adopting only _ reached =>
      refine .adopts only rfl reached ?_
      rw [RunState.version_insert, if_pos rfl]
  | splitting source usage | merging usage =>
      exact absurd (plain.symm.trans usage) Bool.false_ne_true
  | tabulating _ several run =>
      rcases tabulateRead_ok run with ⟨phi, stored, tabulating⟩
      have merges := tabulating.merges stored
      cases merges with
      | again versioned kept old known table =>
          exact .keeps (not_adopts_of_several several) versioned kept
      | minted unknown version last table =>
          apply Renewal.mints (not_adopts_of_several several)
          · by_cases versioned : state.version target.expression = 0
            · exact .inl versioned
            · exact .inr ⟨rfl, several, unknown versioned⟩
          · omega
          · omega

/-- Every visit of a site renews it. -/
theorem act_renewal (run : place.act site facts state = .ok result final)
    (plain : site.config.has .usageVersions = false) (visits : place.site? = some target) :
    Renewal state final place.isRead target (facts.reaching target.slot) := by
  have writes : ¬ Adopts false (facts.reaching target.slot) := fun adopts => nomatch adopts.1
  cases act_ok run with
  | read reading =>
      cases visits
      exact (read_ok reading).renewal plain
  | increment reading increases =>
      cases visits
      have quiet := (incrementVariable_ok increases).1
      exact ((read_ok reading).renewal plain).later (quiet.version _) quiet.last
  | define definition =>
      cases visits
      exact .of_stamps (define_ok definition).stamps writes
  | assign definition copy =>
      cases visits
      have quiet := quietly_recordCopy _ _ _ _ _ copy
      exact .of_stamps ((define_ok definition).stamps.trans_quiet quiet) writes
  | field | unversionedField | clobber => exact nomatch visits

/-- What is merged under a key that was unknown is merged under a new version. -/
private theorem act_mints (run : place.act site facts state = .ok result final) {key : VersionKey}
    (found : final.tables.merged? key ≠ none) (absent : state.tables.merged? key = none) :
    state.last key.slot < key.version := by
  by_cases recorded : ∃ target, place.site? = some target ∧
      place.Recorded site.config (facts.reaching target.slot)
  · rcases recorded with ⟨target, visits, recorded⟩
    cases act_merges run visits recorded with
    | again versioned kept old known table =>
        rw [table] at found
        split at found
        · next equal =>
            rw [← equal, known] at absent
            exact nomatch absent
        · exact absurd absent found
    | minted unknown version last table =>
        rw [table] at found
        split at found
        · next equal =>
            rw [← equal]
            exact Nat.lt_succ_self _
        · exact absurd absent found
  · have same := act_phi_same run fun target visits both => recorded ⟨target, visits, both⟩
    rw [Tables.merged?_congr same] at found
    exact absurd absent found

end RunM

/-! ## Several visits -/

/-- The site got a number that was not given out when the pass began. -/
structure Minted (start state : RunState) (target : VariableSite) : Prop where
  known : start.version target.expression ≤ start.last target.slot
  fresh : start.last target.slot < state.version target.expression
  bounded : state.version target.expression ≤ state.last target.slot

/-- The visits in `done` came from `start` to `state`, and each renewed its site. -/
structure Renewed (start state : RunState) (done : List (Visit × Facts)) : Prop where
  others : ∀ expression, expression ∉ (done.map Prod.fst).flatMap Visit.written →
    state.version expression = start.version expression
  last : ∀ slot, start.last slot ≤ state.last slot
  numbered : state.Numbered
  grows : Grows start state
  merged : ∀ key, state.tables.merged? key ≠ none → start.tables.merged? key = none →
    start.last key.slot < key.version
  renewal : ∀ entry ∈ done, ∀ target, entry.1.site? = some target →
    Renewal start state entry.1.isRead target (entry.2.reaching target.slot)
  /-- Two sites of a slot that did not adopt their versions did not get the same new one. -/
  apart : ∀ left ∈ done, ∀ right ∈ done, ∀ leftSite rightSite,
    left.1.site? = some leftSite → right.1.site? = some rightSite →
    leftSite.slot = rightSite.slot → leftSite.expression ≠ rightSite.expression →
    ¬ Adopts left.1.isRead (left.2.reaching leftSite.slot) →
    ¬ Adopts right.1.isRead (right.2.reaching rightSite.slot) →
    Minted start state leftSite → Minted start state rightSite →
    state.version leftSite.expression ≠ state.version rightSite.expression

namespace Renewed

variable {start state final : RunState} {done : List (Visit × Facts)}

theorem refl (numbered : start.Numbered) : Renewed start start [] where
  others := fun _ _ => rfl
  last := fun _ => Nat.le_refl _
  numbered := numbered
  grows := .of_phi rfl
  merged := fun _ found absent => absurd absent found
  renewal := fun _ member => nomatch member
  apart := fun _ member => nomatch member

theorem congr (renewed : Renewed start state done)
    (version : ∀ expression, final.version expression = state.version expression)
    (last : ∀ slot, final.last slot = state.last slot)
    (merged : final.tables.merged? = state.tables.merged?) : Renewed start final done where
  others := fun expression outside =>
    (version expression).trans (renewed.others expression outside)
  last := fun slot => by
    rw [last]
    exact renewed.last slot
  numbered := fun key sources found => by
    rw [merged] at found
    rw [last]
    exact renewed.numbered key sources found
  grows := fun key sources found => by
    rw [merged]
    exact renewed.grows key sources found
  merged := by
    rw [merged]
    exact renewed.merged
  renewal := fun entry member target visits =>
    (renewed.renewal entry member target visits).later (version _)
      fun slot => Nat.le_of_eq (last slot).symm
  apart := by
    intro left leftDone right rightDone leftSite rightSite leftVisits rightVisits same different
      leftOwns rightOwns leftMinted rightMinted
    have earlier {target : VariableSite} (minted : Minted start final target) :
        Minted start state target := by
      refine ⟨minted.known, ?_, ?_⟩
      · rw [← version]
        exact minted.fresh
      · rw [← version, ← last]
        exact minted.bounded
    rw [version, version]
    exact renewed.apart left leftDone right rightDone leftSite rightSite leftVisits rightVisits same
      different leftOwns rightOwns (earlier leftMinted) (earlier rightMinted)

/-- What a visit minted was numbered by then. -/
private theorem numbered_of_minted (renewed : Renewed start state done) {entry : Visit × Facts}
    (member : entry ∈ done) {target : VariableSite} (visits : entry.1.site? = some target)
    (owns : ¬ Adopts entry.1.isRead (entry.2.reaching target.slot))
    (known : start.version target.expression ≤ start.last target.slot)
    (fresh : start.last target.slot < state.version target.expression) :
    state.version target.expression ≤ state.last target.slot := by
  cases renewed.renewal entry member target visits with
  | adopts only reads alone => exact absurd ⟨reads, only, alone⟩ owns
  | keeps _ versioned kept =>
      rw [kept] at fresh
      exact absurd fresh (Nat.not_lt.2 known)
  | mints _ _ _ bounded => exact bounded

/-- One more visit, of a site that was not visited since the pass began. -/
private theorem act {site : Site} {place : Visit} {facts result : Facts}
    (renewed : Renewed start state done) (plain : site.config.has .usageVersions = false)
    (run : place.act site facts state = .ok result final)
    (outside : ∀ expression ∈ place.written,
      expression ∉ (done.map Prod.fst).flatMap Visit.written) :
    Renewed start final (done ++ [(place, facts)]) := by
  have frame := RunM.act_frame run
  have grows := RunM.act_grows run renewed.numbered
  have earlier {entry : Visit × Facts} (member : entry ∈ done) {target : VariableSite}
      (visits : entry.1.site? = some target) :
      final.version target.expression = state.version target.expression := by
    apply frame.version
    intro written
    apply outside target.expression written
    exact List.mem_flatMap.2
      ⟨entry.1, List.mem_map_of_mem member, Visit.mem_written.2 ⟨target, visits, rfl⟩⟩
  have untouched {target : VariableSite} (visits : place.site? = some target) :
      state.version target.expression = start.version target.expression :=
    renewed.others _ (outside _ (Visit.mem_written.2 ⟨target, visits, rfl⟩))
  -- A site that is minted now is above all that was minted since the pass began.
  have above {target other : VariableSite} {entry : Visit × Facts}
      (visits : place.site? = some target) (owns : ¬ Adopts place.isRead (facts.reaching target.slot))
      (minted : Minted start final target) (member : entry ∈ done)
      (otherVisits : entry.1.site? = some other) (same : other.slot = target.slot)
      (otherOwns : ¬ Adopts entry.1.isRead (entry.2.reaching other.slot))
      (otherMinted : Minted start final other) :
      final.version other.expression < final.version target.expression := by
    have fresh := otherMinted.fresh
    rw [earlier member otherVisits] at fresh ⊢
    have bounded := renewed.numbered_of_minted member otherVisits otherOwns otherMinted.known fresh
    rw [same] at bounded
    cases RunM.act_renewal run plain visits with
    | adopts only reads alone => exact absurd ⟨reads, only, alone⟩ owns
    | keeps _ versioned kept =>
        have fresh := minted.fresh
        rw [kept, untouched visits] at fresh
        exact absurd fresh (Nat.not_lt.2 minted.known)
    | mints _ _ fresh => exact Nat.lt_of_le_of_lt bounded fresh
  refine ⟨?_, ?_, grows.2, renewed.grows.trans grows.1, ?_, ?_, ?_⟩
  · intro expression absent
    rw [List.map_append, List.flatMap_append, List.mem_append, not_or] at absent
    rw [frame.version expression (by simpa using absent.2)]
    exact renewed.others expression absent.1
  · exact fun slot => Nat.le_trans (renewed.last slot) (frame.last slot)
  · intro key found absent
    by_cases known : state.tables.merged? key = none
    · exact Nat.lt_of_le_of_lt (renewed.last _) (RunM.act_mints run found known)
    · exact renewed.merged key known absent
  · intro entry member target visits
    rcases List.mem_append.1 member with before | here
    · exact (renewed.renewal entry before target visits).later (earlier before visits) frame.last
    · rw [List.mem_singleton.1 here] at visits ⊢
      exact (RunM.act_renewal run plain visits).since (untouched visits) renewed.last renewed.grows
  · intro left leftDone right rightDone leftSite rightSite leftVisits rightVisits same different
      leftOwns rightOwns leftMinted rightMinted
    rcases List.mem_append.1 leftDone with leftBefore | leftHere <;>
      rcases List.mem_append.1 rightDone with rightBefore | rightHere
    · rw [earlier leftBefore leftVisits, earlier rightBefore rightVisits]
      have minted {target : VariableSite} {entry : Visit × Facts} (before : entry ∈ done)
          (visits : entry.1.site? = some target)
          (owns : ¬ Adopts entry.1.isRead (entry.2.reaching target.slot))
          (minted : Minted start final target) : Minted start state target := by
        have fresh := minted.fresh
        rw [earlier before visits] at fresh
        exact ⟨minted.known, fresh, renewed.numbered_of_minted before visits owns minted.known fresh⟩
      exact renewed.apart left leftBefore right rightBefore leftSite rightSite leftVisits
        rightVisits same different leftOwns rightOwns
        (minted leftBefore leftVisits leftOwns leftMinted)
        (minted rightBefore rightVisits rightOwns rightMinted)
    · rw [List.mem_singleton.1 rightHere] at rightVisits rightOwns
      exact Nat.ne_of_lt (above rightVisits rightOwns rightMinted leftBefore leftVisits same leftOwns
        leftMinted)
    · rw [List.mem_singleton.1 leftHere] at leftVisits leftOwns
      exact Nat.ne_of_gt (above leftVisits leftOwns leftMinted rightBefore rightVisits same.symm
        rightOwns rightMinted)
    · rw [List.mem_singleton.1 leftHere] at leftVisits
      rw [List.mem_singleton.1 rightHere, leftVisits] at rightVisits
      exact absurd (congrArg VariableSite.expression (Option.some.inj rightVisits)) different

/-- More visits, of sites that were not visited since the pass began. -/
theorem performs {site : Site} {log : List (Visit × Facts)} (renewed : Renewed start state done)
    (plain : site.config.has .usageVersions = false) (performed : Performs site log state final)
    (once : (((done ++ log).map Prod.fst).flatMap Visit.written).Nodup) :
    Renewed start final (done ++ log) := by
  induction performed generalizing done with
  | nil =>
      rw [List.append_nil]
      exact renewed
  | @cons place facts result rest before middle after first later induction =>
      rw [List.append_cons] at once ⊢
      apply induction (renewed.act plain first ?_) once
      intro expression written earlier
      rw [List.map_append, List.flatMap_append, List.nodup_append] at once
      have apart := once.1
      rw [List.map_append, List.flatMap_append, List.nodup_append] at apart
      exact apart.2.2 expression earlier expression (by simpa using written) rfl

end Renewed

end SlotVersioning
