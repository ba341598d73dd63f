import Mathlib.Data.Nat.Init
import SlotVersioning.Proofs.Pass.Sequence
import SlotVersioning.Proofs.Phi.Exact

/-!
# Reads that share a merged version

Without usage versions a read that several versions reach has a merged version, but not always one
of its own. While one version reaches a read, it adopts that version, and it keeps it when several
reach it later, provided that the version is merged somewhere. So two reads share a merged version
precisely when one of them adopted the version of the other, the last time that one version reached
it (`Versioner.shared_iff`).
-/

namespace SlotVersioning

open Std

/-- A read of the body, and what reaches it. -/
def ReadAt (body : Body) (state : RunState) (target : VariableSite) (reaching : VersionSet) :
    Prop :=
  ∃ node place, ReachesAt body state.tables state.version node place target reaching ∧
    place.isRead = true

/-- The body visits the site at the node by a read. -/
structure Body.Reads (body : Body) (node : NodeId) (place : Visit) (target : VariableSite) :
    Prop where
  inCourse : place ∈ (body.course node).visits
  visits : place.site? = some target
  isRead : place.isRead = true

theorem ReachesAt.mem_visits {body : Body} {tables : Tables} {versions : ExprId → Version}
    {node : NodeId} {place : Visit} {target : VariableSite} {reaching : VersionSet}
    (reaches : ReachesAt body tables versions node place target reaching) :
    place ∈ (body.course node).visits := by
  rcases reaches with ⟨facts, -, arrives, -⟩
  exact Course.mem_visits_of_arrival arrives

theorem ReachesAt.visits {body : Body} {tables : Tables} {versions : ExprId → Version}
    {node : NodeId} {place : Visit} {target : VariableSite} {reaching : VersionSet}
    (reaches : ReachesAt body tables versions node place target reaching) :
    place.site? = some target := by
  rcases reaches with ⟨-, -, -, visits⟩
  exact visits

/-- What reaches a site is one set. -/
theorem ReachesAt.unique {body : Body} {tables : Tables} {versions : ExprId → Version}
    {left right : NodeId} {leftPlace rightPlace : Visit} {leftSite rightSite : VariableSite}
    {leftReaching rightReaching : VersionSet} (unshared : body.Unshared)
    (leftReaches : ReachesAt body tables versions left leftPlace leftSite leftReaching)
    (rightReaches : ReachesAt body tables versions right rightPlace rightSite rightReaching)
    (same : leftSite.expression = rightSite.expression) (slots : leftSite.slot = rightSite.slot) :
    leftReaching = rightReaching := by
  rcases leftReaches with ⟨leftFacts, leftStored, leftArrives, leftVisits⟩
  rcases rightReaches with ⟨rightFacts, rightStored, rightArrives, rightVisits⟩
  have leftInside := Course.mem_sites_of_visit (Course.mem_visits_of_arrival leftArrives) leftVisits
  have rightInside :=
    Course.mem_sites_of_visit (Course.mem_visits_of_arrival rightArrives) rightVisits
  have nodes : left = right := by
    by_contra different
    exact unshared.sites_apart different _ leftInside (same ▸ rightInside)
  subst nodes
  rw [leftStored] at rightStored
  cases rightStored
  rw [slots] at leftArrives
  have once : (((body.course left).arrivals versions rightSite.slot
      (leftFacts.reaching rightSite.slot)).flatMap fun entry => entry.1.written).Nodup := by
    have sites := unshared.nodup_sites left
    unfold Course.sites at sites
    have places : ((body.course left).arrivals versions rightSite.slot
        (leftFacts.reaching rightSite.slot)).map Prod.fst = (body.course left).visits :=
      Course.arrivals_fst _ _
    rw [← places, List.flatMap_map] at sites
    exact sites
  have equal := eq_of_nodup_flatMap once leftArrives rightArrives
    (Visit.mem_written_of_site leftVisits) (same ▸ Visit.mem_written_of_site rightVisits)
  exact congrArg Prod.snd equal

theorem ReadAt.unique {body : Body} {state : RunState} {target : VariableSite}
    {left right : VersionSet} (unshared : body.Unshared) (first : ReadAt body state target left)
    (second : ReadAt body state target right) : left = right := by
  rcases first with ⟨leftNode, leftPlace, leftReaches, -⟩
  rcases second with ⟨rightNode, rightPlace, rightReaches, -⟩
  exact leftReaches.unique unshared rightReaches rfl rfl

/-- The version at the site is a merged version. -/
structure RunState.Merged (state : RunState) (target : VariableSite) : Prop where
  versioned : state.version target.expression ≠ 0
  merged : state.tables.merged? ⟨target.slot, state.version target.expression⟩ ≠ none

/-- Reads that several versions reach have merged versions. -/
theorem ReadAt.merged {context : Context} {dirty : DirtyNodes} {state : RunState}
    {target : VariableSite} {reaching : VersionSet}
    (reads : ReadAt context.body state target reaching) (several : 2 ≤ reaching.cardinality)
    (regular : context.body.Regular) (plain : context.config.has .usageVersions = false)
    (settling : Settling context dirty state) : state.Merged target := by
  rcases reads with ⟨node, place, ⟨facts, stored, arrives, visits⟩, isRead⟩
  have ordinary := regular.ordinary_of_visit (Course.mem_visits_of_arrival arrives) visits
  have stable := settling.stable node facts stored target.slot ordinary _ arrives target visits rfl
  rcases stable.joined plain isRead several with ⟨versioned, sources, found, -⟩
  exact ⟨versioned, fun absent => nomatch absent.symm.trans found⟩

namespace RunM

/-- After some of the rounds the version alone reached the read, and later no version did alone. -/
def AdoptedLast (context : Context) (start : RunState) (count : Nat) (target : VariableSite)
    (version : Version) : Prop :=
  ∃ passes ≤ count, ReadAt context.body (rested context start passes) target {version} ∧
    ∀ later, passes < later → later ≤ count → ∀ only,
      ¬ ReadAt context.body (rested context start later) target {only}

namespace AdoptedLast

variable {context : Context} {start : RunState} {count : Nat} {target : VariableSite}
  {version : Version}

private theorem now (alone : ReadAt context.body (rested context start count) target {version}) :
    AdoptedLast context start count target version :=
  ⟨count, Nat.le_refl _, alone, fun _ above below => absurd above (Nat.not_lt.2 below)⟩

private theorem still (adopted : AdoptedLast context start count target version)
    (several : ∀ only, ¬ ReadAt context.body (rested context start (count + 1)) target {only}) :
    AdoptedLast context start (count + 1) target version := by
  rcases adopted with ⟨passes, few, alone, since⟩
  refine ⟨passes, Nat.le_succ_of_le few, alone, fun later above below only => ?_⟩
  rcases Nat.lt_or_eq_of_le below with less | rfl
  · exact since later above (Nat.le_of_lt_succ less) only
  · exact several only

end AdoptedLast

variable {context : Context} {start state : RunState} {count : Nat} {dirty : DirtyNodes}

/-- What a turn makes of a read: it has the version that alone reaches it, or else no version
reaches it alone, and it keeps its version or gets a new one. -/
theorem read_of_turn {before after : RunState} (turn : Turn context before after)
    (regular : context.body.Regular) {node : NodeId} {place : Visit} {target : VariableSite}
    (reads : context.body.Reads node place target) :
    ReadAt context.body after target {after.version target.expression} ∨
      ∃ reaching, ReachesAt context.body after.tables after.version node place target reaching ∧
        ¬ Adopts place.isRead reaching ∧
        (∀ only, ¬ ReadAt context.body after target {only}) := by
  have known := Body.lt_size_of_visit reads.inCourse
  have ordinary := regular.ordinary_of_visit reads.inCourse reads.visits
  rcases turn.joins node known with ⟨facts, stored, -⟩
  rcases Course.exists_arrival reads.inCourse (facts.reaching target.slot) with ⟨reaching, arrives⟩
  have reaches : ReachesAt context.body after.tables after.version node place target reaching :=
    ⟨facts, stored, arrives, reads.visits⟩
  have here : ReadAt context.body after target reaching := ⟨node, place, reaches, reads.isRead⟩
  by_cases adopts : Adopts place.isRead reaching
  · left
    cases turn.renewal node known place target reaching reaches ordinary with
    | adopts only _ alone version =>
        rw [version, ← alone]
        exact here
    | keeps owns | mints owns => exact absurd adopts owns
  · right
    refine ⟨reaching, reaches, adopts, fun only alone => adopts ⟨reads.isRead, only, ?_⟩⟩
    exact here.unique regular.unshared alone

/-- Two reads share a version only if one of them adopted it. -/
private theorem adopted_of_shared (rounds : Rounds context start count dirty state)
    (regular : context.body.Regular) (plain : context.config.has .usageVersions = false)
    (unvisited : Unvisited start) (seeded : start.NumbersSeeds) {left right : NodeId}
    {leftPlace rightPlace : Visit} {first second : VariableSite}
    (firstReads : context.body.Reads left leftPlace first)
    (secondReads : context.body.Reads right rightPlace second) (slots : first.slot = second.slot)
    (different : first.expression ≠ second.expression) {passes : Nat} (few : passes ≤ count)
    (versioned : (rested context start passes).version first.expression ≠ 0)
    (shared : (rested context start passes).version first.expression =
      (rested context start passes).version second.expression) :
    AdoptedLast context start passes first
        ((rested context start passes).version second.expression) ∨
      AdoptedLast context start passes second
        ((rested context start passes).version first.expression) := by
  induction passes with
  | zero => exact absurd (unvisited.version _) versioned
  | succ passes induction =>
      have settling : Settling context ∅ start := unvisited.settling
      have turn := rounds.turn regular.unshared plain settling few
      have bounded := rounds.bounded_rested regular.unshared plain unvisited seeded
        (Nat.le_of_lt few)
      have firstOrdinary := regular.ordinary_of_visit firstReads.inCourse firstReads.visits
      have secondOrdinary := regular.ordinary_of_visit secondReads.inCourse secondReads.visits
      have firstKnown := Body.lt_size_of_visit firstReads.inCourse
      have secondKnown := Body.lt_size_of_visit secondReads.inCourse
      have firstBound := bounded.written left leftPlace firstReads.inCourse first firstReads.visits
        firstOrdinary
      have secondBound := bounded.written right rightPlace secondReads.inCourse second
        secondReads.visits secondOrdinary
      rcases read_of_turn turn regular firstReads with
        alone | ⟨firstReaching, firstReaches, firstOwns, firstSeveral⟩
      · rw [shared] at alone
        exact .inl (.now alone)
      rcases read_of_turn turn regular secondReads with
        alone | ⟨secondReaching, secondReaches, secondOwns, secondSeveral⟩
      · rw [← shared] at alone
        exact .inr (.now alone)
      cases turn.renewal left firstKnown leftPlace first firstReaching firstReaches
        firstOrdinary with
      | adopts only reads alone => exact absurd ⟨reads, only, alone⟩ firstOwns
      | keeps _ firstVersioned firstKept =>
          cases turn.renewal right secondKnown rightPlace second secondReaching secondReaches
            secondOrdinary with
          | adopts only reads alone => exact absurd ⟨reads, only, alone⟩ secondOwns
          | keeps _ secondVersioned secondKept =>
              rw [firstKept, secondKept] at shared
              rw [firstKept, secondKept]
              have earlier := induction (Nat.le_of_lt few) firstVersioned shared
              exact earlier.imp (·.still firstSeveral) (·.still secondSeveral)
          | mints _ _ fresh =>
              rw [slots] at firstBound
              omega
      | mints _ firstEligible firstFresh firstNumbered =>
          cases turn.renewal right secondKnown rightPlace second secondReaching secondReaches
            secondOrdinary with
          | adopts only reads alone => exact absurd ⟨reads, only, alone⟩ secondOwns
          | keeps _ secondVersioned secondKept =>
              rw [slots] at firstFresh
              omega
          | mints _ secondEligible secondFresh secondNumbered =>
              exact absurd shared (turn.apart left firstKnown right secondKnown leftPlace first
                firstReaching rightPlace second secondReaching firstReaches secondReaches
                firstOrdinary slots different firstOwns secondOwns
                ⟨firstBound, firstFresh, firstNumbered⟩ ⟨secondBound, secondFresh, secondNumbered⟩)

theorem not_readAt_of_unvisited {body : Body} (unvisited : Unvisited start) {target : VariableSite}
    {reaching : VersionSet} : ¬ ReadAt body start target reaching := by
  rintro ⟨node, place, ⟨facts, stored, -⟩, -⟩
  exact unvisited.not_entering stored

/-- What was numbered stays numbered. -/
private theorem last_le_of_rounds (rounds : Rounds context start count dirty state)
    (unshared : context.body.Unshared) (plain : context.config.has .usageVersions = false)
    (settling : Settling context ∅ start) {earlier later : Nat} (order : earlier ≤ later)
    (few : later ≤ count) (slot : Slot) :
    (rested context start earlier).last slot ≤ (rested context start later).last slot := by
  induction later, order using Nat.le_induction with
  | base => exact Nat.le_refl _
  | succ later order induction =>
      have turn := rounds.turn unshared plain settling few
      exact Nat.le_trans (induction (Nat.le_of_lt few)) (turn.last slot)

/-- A version that was numbered by then cannot become a merged version later. -/
private theorem merged_of_rounds (rounds : Rounds context start count dirty state)
    (unshared : context.body.Unshared) (plain : context.config.has .usageVersions = false)
    (settling : Settling context ∅ start) {earlier later : Nat} (order : earlier ≤ later)
    (few : later ≤ count) {slot : Slot} {version : Version}
    (numbered : version ≤ (rested context start earlier).last slot)
    (merged : (rested context start later).tables.merged? ⟨slot, version⟩ ≠ none) :
    (rested context start earlier).tables.merged? ⟨slot, version⟩ ≠ none := by
  induction later, order using Nat.le_induction with
  | base => exact merged
  | succ later order induction =>
      apply induction (Nat.le_of_lt few)
      intro absent
      have turn := rounds.turn unshared plain settling few
      have bound := last_le_of_rounds rounds unshared plain settling order (Nat.le_of_lt few) slot
      exact Nat.not_lt.2 (Nat.le_trans numbered bound) (turn.merged _ merged absent)

/-- A read with a merged version keeps it until one version alone reaches it. -/
private theorem version_of_rounds (rounds : Rounds context start count dirty state)
    (regular : context.body.Regular) (plain : context.config.has .usageVersions = false)
    (settling : Settling context ∅ start) {node : NodeId} {place : Visit} {target : VariableSite}
    (reads : context.body.Reads node place target) {earlier later : Nat} (order : earlier ≤ later)
    (few : later ≤ count) (merged : (rested context start earlier).Merged target)
    (since : ∀ between, earlier < between → between ≤ later → ∀ only,
      ¬ ReadAt context.body (rested context start between) target {only}) :
    (rested context start later).version target.expression =
        (rested context start earlier).version target.expression ∧
      (rested context start later).Merged target := by
  have ordinary := regular.ordinary_of_visit reads.inCourse reads.visits
  have known := Body.lt_size_of_visit reads.inCourse
  induction later, order using Nat.le_induction with
  | base => exact ⟨rfl, merged⟩
  | succ later order induction =>
      have turn := rounds.turn regular.unshared plain settling few
      rcases induction (Nat.le_of_lt few) (fun between above below =>
        since between above (Nat.le_succ_of_le below)) with ⟨same, still⟩
      rcases read_of_turn turn regular reads with here | ⟨reaching, reaches, owns, -⟩
      · exact absurd here (since _ (Nat.lt_succ_of_le order) (Nat.le_refl _) _)
      · cases turn.renewal node known place target reaching reaches ordinary with
        | adopts only isRead alone => exact absurd ⟨isRead, only, alone⟩ owns
        | keeps _ versioned kept =>
            refine ⟨kept.trans same, ?_, ?_⟩
            · rw [kept]
              exact versioned
            · rw [kept]
              exact fun absent => still.merged (turn.grows.none_of_none absent)
        | mints _ eligible =>
            rcases eligible with unversioned | ⟨-, -, absent⟩
            · exact absurd unversioned still.versioned
            · exact absurd absent still.merged

/-- A merged version that was adopted last is kept. -/
private theorem version_of_adopted (rounds : Rounds context start count dirty state)
    (regular : context.body.Regular) (plain : context.config.has .usageVersions = false)
    (unvisited : Unvisited start) (seeded : start.NumbersSeeds) {node : NodeId} {place : Visit}
    {target : VariableSite} (reads : context.body.Reads node place target) {version : Version}
    (versioned : version ≠ 0) (adopted : AdoptedLast context start count target version)
    (merged : (rested context start count).tables.merged? ⟨target.slot, version⟩ ≠ none) :
    (rested context start count).version target.expression = version := by
  rcases adopted with ⟨passes, few, alone, since⟩
  have settling : Settling context ∅ start := unvisited.settling
  have ordinary := regular.ordinary_of_visit reads.inCourse reads.visits
  have begun : (rested context start passes).version target.expression = version := by
    cases passes with
    | zero => exact absurd alone (not_readAt_of_unvisited unvisited)
    | succ passes =>
        have turn := rounds.turn regular.unshared plain settling few
        rcases read_of_turn turn regular reads with here | ⟨_, _, _, several⟩
        · have same := here.unique regular.unshared alone
          apply VersionSet.mem_singleton.1
          rw [← same]
          exact VersionSet.mem_singleton.2 rfl
        · exact absurd alone (several version)
  have bounded := rounds.bounded_rested regular.unshared plain unvisited seeded few
  have numbered := bounded.written node place reads.inCourse target reads.visits ordinary
  subst begun
  have early := merged_of_rounds rounds regular.unshared plain settling few (Nat.le_refl _) numbered
    merged
  exact (version_of_rounds rounds regular plain settling reads few (Nat.le_refl _)
    ⟨versioned, early⟩ since).1

/-- After a number of rounds two reads with merged versions share one precisely when one of them
adopted it last. -/
private theorem shared_iff_adopted (rounds : Rounds context start count dirty state)
    (regular : context.body.Regular) (plain : context.config.has .usageVersions = false)
    (unvisited : Unvisited start) (seeded : start.NumbersSeeds) {left right : NodeId}
    {leftPlace rightPlace : Visit} {first second : VariableSite}
    (firstReads : context.body.Reads left leftPlace first)
    (secondReads : context.body.Reads right rightPlace second) (slots : first.slot = second.slot)
    (different : first.expression ≠ second.expression)
    (firstMerged : state.Merged first) (secondMerged : state.Merged second) :
    state.version first.expression = state.version second.expression ↔
      AdoptedLast context start count first (state.version second.expression) ∨
        AdoptedLast context start count second (state.version first.expression) := by
  have resting := rounds.rested_eq
  constructor
  · intro shared
    have adopted := adopted_of_shared rounds regular plain unvisited seeded firstReads secondReads
      slots different (Nat.le_refl count)
    rw [resting] at adopted
    exact adopted firstMerged.versioned shared
  · rintro (adopted | adopted)
    · have same := version_of_adopted rounds regular plain unvisited seeded firstReads
        secondMerged.versioned adopted
      rw [resting, slots] at same
      exact same secondMerged.merged
    · have same := version_of_adopted rounds regular plain unvisited seeded secondReads
        firstMerged.versioned adopted
      rw [resting, ← slots] at same
      exact (same firstMerged.merged).symm

end RunM

/-! ## Runs -/

/-- What reaches a read after a run. -/
def RunResult.Reaches (body : Body) (result : RunResult) (target : VariableSite)
    (reaching : VersionSet) : Prop :=
  ∃ node place, ReachesAt body result.versioner.tables result.version node place target reaching ∧
    place.isRead = true

/-- When the run is stopped after some number of passes, the version alone reaches the read, and no
version alone does when it is stopped later. -/
def Versioner.AdoptsLast (versioner : Versioner) (body : Body) (target : VariableSite)
    (version : Version) : Prop :=
  ∃ passes, ((versioner.limitedTo passes).run body).Reaches body target {version} ∧
    ∀ later, passes < later → ∀ only,
      ¬ ((versioner.limitedTo later).run body).Reaches body target {only}

theorem RunResult.Leaves.reaches_iff {body : Body} {result : RunResult} {state : RunState}
    (leaves : result.Leaves body state) (target : VariableSite) (reaching : VersionSet) :
    result.Reaches body target reaching ↔ ReadAt body state target reaching := by
  unfold Reaches ReadAt ReachesAt
  rw [leaves.tables]
  have each (node : NodeId) (entering : VersionSet) :
      (body.course node).arrivals result.version target.slot entering =
        (body.course node).arrivals state.version target.slot entering :=
    Course.arrivals_congr (leaves.version node) entering
  simp only [each]

private theorem RunResult.reaches_of_entering {body : Body} {result : RunResult}
    {node : NodeId} {place : Visit} {target : VariableSite} {entering reaching : VersionSet}
    (stored : result.versioner.tables.entering node target.slot = entering) {version : Version}
    (member : version ∈ entering)
    (arrives : (place, reaching) ∈
      (body.course node).arrivals result.version target.slot entering)
    (visits : place.site? = some target) (reads : place.isRead = true) :
    result.Reaches body target reaching := by
  rw [← stored] at member arrives
  rcases Tables.stored_of_entering member with ⟨facts, found, same⟩
  rw [← same] at arrives
  exact ⟨node, place, ⟨facts, found, arrives, visits⟩, reads⟩

namespace Versioner

variable {versioner : Versioner} {body : Body}

namespace Parts

variable {seeded settled final : RunState} {total : Nat}

/-- A live round does not change what reaches a read. -/
theorem readAt_iff (parts : Parts versioner body seeded total settled final)
    (regular : body.Regular) {target : VariableSite} {reaching : VersionSet} :
    ReadAt body final target reaching ↔ ReadAt body settled target reaching := by
  have ended := parts.ended regular (.trivial _) True.intro
  have onward {reaching : VersionSet} (reads : ReadAt body settled target reaching) :
      ReadAt body final target reaching := by
    rcases reads with ⟨node, place, ⟨facts, stored, arrives, visits⟩, isRead⟩
    have ordinary := regular.ordinary_of_visit (Course.mem_visits_of_arrival arrives) visits
    rcases ended.sameEntering node facts stored with ⟨entered, found, equal⟩
    rw [← equal target.slot ordinary, ← ended.alike.version] at arrives
    exact ⟨node, place, ⟨entered, found, arrives, visits⟩, isRead⟩
  refine ⟨fun reads => ?_, onward⟩
  rcases reads with ⟨node, place, reaches, isRead⟩
  have inCourse := reaches.mem_visits
  have visits := reaches.visits
  have equations := RunM.settling_of_rounds regular.unshared (.trivial _) parts.unvisited.settling
    True.intro parts.rounds
  rcases equations.2.2 parts.positive node (Body.lt_size_of_visit inCourse) with ⟨facts, stored⟩
  rcases Course.exists_arrival inCourse (facts.reaching target.slot) with ⟨before, arrives⟩
  have earlier : ReadAt body settled target before :=
    ⟨node, place, ⟨facts, stored, arrives, visits⟩, isRead⟩
  have same := (onward earlier).unique regular.unshared ⟨node, place, reaches, isRead⟩
  rw [← same]
  exact earlier

/-- The rounds tell what a read adopted last, when several versions reach it in the end. -/
private theorem adoptsLast_iff (parts : Parts versioner body seeded total settled final)
    (regular : body.Regular) {target : VariableSite} {reaching : VersionSet}
    (reads : ReadAt body settled target reaching) (several : 2 ≤ reaching.cardinality)
    (version : Version) :
    versioner.AdoptsLast body target version ↔
      RunM.AdoptedLast { config := versioner.config, body } seeded total target version := by
  have early {passes : Nat} (few : passes < total) (reaching : VersionSet) :
      ((versioner.limitedTo passes).run body).Reaches body target reaching ↔
        ReadAt body (RunM.rested { config := versioner.config, body } seeded passes) target
          reaching :=
    (parts.stops (parts.rounds.past_rested few)).reaches_iff target reaching
  have late {passes : Nat} (many : total ≤ passes) (only : Version) :
      ¬ ((versioner.limitedTo passes).run body).Reaches body target {only} := by
    intro alone
    have final := ((parts.goesOn many).reaches_iff target _).1 alone
    have same := reads.unique regular.unshared ((parts.readAt_iff regular).1 final)
    rw [same, VersionSet.cardinality_singleton] at several
    omega
  have last (only : Version) :
      ¬ ReadAt body (RunM.rested { config := versioner.config, body } seeded total) target
        {only} := by
    rw [parts.rounds.rested_eq]
    intro alone
    rw [reads.unique regular.unshared alone, VersionSet.cardinality_singleton] at several
    omega
  constructor
  · rintro ⟨passes, alone, since⟩
    have few : passes < total := Nat.lt_of_not_le fun many => late many version alone
    refine ⟨passes, Nat.le_of_lt few, (early few _).1 alone, fun later above below only => ?_⟩
    rcases Nat.lt_or_eq_of_le below with less | rfl
    · exact fun again => since later above only ((early less _).2 again)
    · exact last only
  · rintro ⟨passes, few, alone, since⟩
    rcases Nat.lt_or_eq_of_le few with less | rfl
    · refine ⟨passes, (early less _).2 alone, fun later above only again => ?_⟩
      rcases Nat.lt_or_ge later total with below | beyond
      · exact since later above (Nat.le_of_lt below) only ((early below _).1 again)
      · exact late beyond only again
    · exact absurd alone (last version)

end Parts

/-- Without usage versions two reads that several versions reach have the same version precisely
when one of them adopted the version of the other, the last time that one version reached it. -/
theorem shared_iff (plain : versioner.config.has .usageVersions = false) (regular : body.Regular)
    (success : (versioner.run body).outcome = .ok ()) {first second : VariableSite}
    {firstReaching secondReaching : VersionSet}
    (firstReads : (versioner.run body).Reaches body first firstReaching)
    (firstSeveral : 2 ≤ firstReaching.cardinality)
    (secondReads : (versioner.run body).Reaches body second secondReaching)
    (secondSeveral : 2 ≤ secondReaching.cardinality) (slots : first.slot = second.slot)
    (different : first.expression ≠ second.expression) :
    (versioner.run body).version first.expression =
        (versioner.run body).version second.expression ↔
      versioner.AdoptsLast body first ((versioner.run body).version second.expression) ∨
        versioner.AdoptsLast body second ((versioner.run body).version first.expression) := by
  cases found : body.graph.entry with
  | none =>
      rcases run_ok success with ⟨-, valid, -, -⟩
      rcases run_of_noEntry versioner valid found with ⟨final, unvisited, -, result⟩
      rw [result] at firstReads
      have reads := ((leaves_finish _ body final _).reaches_iff first _).1 firstReads
      exact absurd reads (RunM.not_readAt_of_unvisited unvisited)
  | some entry =>
      rcases parts_of_run success found with ⟨seeded, total, settled, final, parts⟩
      have leaves : (versioner.run body).Leaves body final := by
        rw [parts.result]
        exact leaves_finish _ _ _ _
      have numbered : seeded.NumbersSeeds := by
        rcases parts.seeds with ⟨entered, -, seeds⟩
        exact RunM.numbersSeeds_of_seeding rfl seeds
      have ended := parts.ended regular (.trivial _) True.intro
      have settles := RunM.settling_of_rounds regular.unshared (.trivial _)
        parts.unvisited.settling True.intro parts.rounds
      have settledRead {target : VariableSite} {reaching : VersionSet}
          (reads : (versioner.run body).Reaches body target reaching) :
          ReadAt body settled target reaching :=
        (parts.readAt_iff regular).1 ((leaves.reaches_iff target reaching).1 reads)
      have firstSettled := settledRead firstReads
      have secondSettled := settledRead secondReads
      have version {target : VariableSite} {reaching : VersionSet}
          (reads : ReadAt body settled target reaching) :
          (versioner.run body).version target.expression = settled.version target.expression := by
        rcases reads with ⟨node, place, ⟨facts, stored, arrives, visits⟩, isRead⟩
        rw [← ended.alike.version]
        have inCourse := Course.mem_visits_of_arrival arrives
        exact leaves.version node _ (Course.mem_sites_of_visit inCourse visits)
      rw [parts.adoptsLast_iff regular firstSettled firstSeveral,
        parts.adoptsLast_iff regular secondSettled secondSeveral, version firstSettled,
        version secondSettled]
      have firstMerged := firstSettled.merged firstSeveral regular plain settles.1
      have secondMerged := secondSettled.merged secondSeveral regular plain settles.1
      rcases firstSettled with ⟨left, leftPlace, leftReaches, leftRead⟩
      rcases secondSettled with ⟨right, rightPlace, rightReaches, rightRead⟩
      exact RunM.shared_iff_adopted parts.rounds regular plain parts.unvisited numbered
        ⟨leftReaches.mem_visits, leftReaches.visits, leftRead⟩
        ⟨rightReaches.mem_visits, rightReaches.visits, rightRead⟩ slots different firstMerged
        secondMerged

end Versioner

namespace Body

/-- A parameter that is perhaps assigned and then read, before a loop that reads it and assigns
it. -/
def sharing : Body where
  arena.exprs := #[.variable { slot := 0 }, .literal .null, .assignment 0 1 none, .literal .null,
    .and 3 2, .variable { slot := 0 }, .variable { slot := 0 }, .variable { slot := 0 },
    .literal .null, .assignment 7 8 none]
  graph.nodes := #[
    { kind := .direct, statement := 0, expressions := [4, 5], predecessors := [], successors := [1] },
    { kind := .direct, statement := 0, expressions := [6, 9], predecessors := [0, 1]
      successors := [1] }]
  graph.entry := some 0
  signature := { isStatic := true, parameters := [.single] }

private theorem built_sharing : sharing.graph.Built := by
  have nodes : FlowGraph.Built _ := (FlowGraph.Built.empty.addNode .direct 0).addNode .direct 0
  have joining := @FlowGraph.Built.appendExpression _ _ nodes 0 4 rfl
  have joined := @FlowGraph.Built.appendExpression _ _ joining 0 5 rfl
  have reading := @FlowGraph.Built.appendExpression _ _ joined 1 6 rfl
  have assigning := @FlowGraph.Built.appendExpression _ _ reading 1 9 rfl
  have onward := @FlowGraph.Built.connect _ _ assigning 0 1 rfl
  exact @FlowGraph.Built.connect _ _ onward 1 1 rfl

theorem regular_sharing : sharing.Regular where
  built := built_sharing
  usedOnce := by decide
  ordinary := ordinary_of_all rfl
  noShortPaths := fun _ => Std.ExtTreeMap.getElem?_empty
  noExtraNodes := fun _ => Std.ExtTreeSet.contains_empty

end Body

namespace Versioner

/-- The reads of `sharing` and what reaches them in the end. -/
theorem reaches_sharing :
    (Config.plain.versioner.run .sharing).Reaches .sharing ⟨5, 0, none⟩ (.ofList [1, 2]) ∧
      (Config.plain.versioner.run .sharing).Reaches .sharing ⟨6, 0, none⟩ (.ofList [3, 4]) := by
  have first : (Config.plain.versioner.run .sharing).versioner.tables.entering 0 0 =
      .ofList [1] := by
    decide +kernel
  have second : (Config.plain.versioner.run .sharing).versioner.tables.entering 1 0 =
      .ofList [3, 4] := by
    decide +kernel
  constructor
  · have arrives : (.read ⟨5, 0, none⟩, .ofList [1, 2]) ∈ (Body.sharing.course 0).arrivals
        (Config.plain.versioner.run .sharing).version 0 (.ofList [1]) := by
      decide +kernel
    exact RunResult.reaches_of_entering first (by decide : 1 ∈ VersionSet.ofList [1])
      arrives rfl rfl
  · have arrives : (.read ⟨6, 0, none⟩, .ofList [3, 4]) ∈ (Body.sharing.course 1).arrivals
        (Config.plain.versioner.run .sharing).version 0 (.ofList [3, 4]) := by
      decide
    exact RunResult.reaches_of_entering second
      (by decide : 3 ∈ VersionSet.ofList [3, 4]) arrives rfl rfl

/-- What `shared_iff` says of `sharing`. -/
theorem shared_iff_sharing :
    (Config.plain.versioner.run .sharing).version 5 =
        (Config.plain.versioner.run .sharing).version 6 ↔
      Config.plain.versioner.AdoptsLast .sharing ⟨5, 0, none⟩
          ((Config.plain.versioner.run .sharing).version 6) ∨
        Config.plain.versioner.AdoptsLast .sharing ⟨6, 0, none⟩
          ((Config.plain.versioner.run .sharing).version 5) := by
  have plain : Config.plain.versioner.config.has .usageVersions = false := rfl
  have success : (Config.plain.versioner.run .sharing).outcome = .ok () := by decide +kernel
  have general := shared_iff plain Body.regular_sharing success reaches_sharing.1
    (by decide) reaches_sharing.2 (by decide) rfl (by decide)
  exact general

/-- Two reads that several versions reach do not always have versions of their own. -/
theorem shares_version :
    ¬ ∀ (versioner : Versioner) (body : Body), versioner.config.has .usageVersions = false →
      body.Regular → (versioner.run body).outcome = .ok () →
      ∀ (first second : VariableSite) (firstReaching secondReaching : VersionSet),
        (versioner.run body).Reaches body first firstReaching → 2 ≤ firstReaching.cardinality →
        (versioner.run body).Reaches body second secondReaching →
        2 ≤ secondReaching.cardinality → first.slot = second.slot →
        first.expression ≠ second.expression →
        (versioner.run body).version first.expression ≠
          (versioner.run body).version second.expression := by
  intro claim
  refine claim Config.plain.versioner .sharing rfl Body.regular_sharing (by decide +kernel)
    ⟨5, 0, none⟩ ⟨6, 0, none⟩ _ _ reaches_sharing.1 (by decide) reaches_sharing.2
    (by decide) rfl (by decide) ?_
  decide +kernel

end Versioner

end SlotVersioning
