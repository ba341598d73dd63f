import SlotVersioning.Proofs.Pass.Limits
import SlotVersioning.Proofs.Pass.Seeding
import SlotVersioning.Proofs.Run.Merging

/-!
# The history of the phi table

A pass merges what reaches the reads at the time. So the phi table holds, in the end, what was
merged at the end of one of the rounds (`Past`), and it holds all of that.
-/

namespace SlotVersioning

open Std

/-- A read at the node has the version of the key, and several versions reach it. -/
def MergesAt (body : Body) (tables : Tables) (versions : ExprId → Version) (node : NodeId)
    (key : VersionKey) (reaching : VersionSet) : Prop :=
  ∃ facts place target, tables.inFacts[node]? = some facts ∧
    (place, reaching) ∈ (body.course node).arrivals versions target.slot
      (facts.reaching target.slot) ∧
    place.site? = some target ∧ place.isRead = true ∧ 2 ≤ reaching.cardinality ∧
    key = ⟨target.slot, versions target.expression⟩

namespace MergesAt

variable {body : Body} {node : NodeId} {key : VersionKey} {reaching : VersionSet}

theorem congr {before after : Tables} {versions others : ExprId → Version}
    (merges : MergesAt body before versions node key reaching)
    (entering : after.inFacts[node]? = before.inFacts[node]?)
    (agree : ∀ expression ∈ (body.course node).sites,
      versions expression = others expression) :
    MergesAt body after others node key reaching := by
  rcases merges with ⟨facts, place, target, stored, arrives, visits, reads, several, rfl⟩
  have inCourse := Course.mem_visits_of_arrival arrives
  refine ⟨facts, place, target, entering.trans stored, ?_, visits, reads, several, ?_⟩
  · rw [← Course.arrivals_congr agree]
    exact arrives
  · rw [agree target.expression (Course.mem_sites_of_visit inCourse visits)]

/-- A settling state has merged what reaches the reads at visited nodes. -/
theorem merged {context : Context} {dirty : DirtyNodes} {state : RunState}
    (merges : MergesAt context.body state.tables state.version node key reaching)
    (regular : context.body.Regular) (plain : context.config.has .usageVersions = false)
    (settling : Settling context dirty state) :
    ∃ sources, state.tables.merged? key = some sources ∧
      ∀ version ∈ reaching, version ∈ sources := by
  rcases merges with ⟨facts, place, target, stored, arrives, visits, reads, several, rfl⟩
  have ordinary := regular.ordinary_of_visit (Course.mem_visits_of_arrival arrives) visits
  have stable := settling.stable node facts stored target.slot ordinary _ arrives target visits rfl
  exact (stable.joined plain reads several).2

end MergesAt

namespace RunM

variable {context : Context} {live : Bool} {dirty dirtyAfter : DirtyNodes} {node : FlowNode}
  {name : NodeId} {facts : Facts} {log : List (Visit × Facts)} {outcome : OutcomeFacts}
  {changed : Bool} {before middle after : RunState}

/-- What is merged after a visit of a node was merged before, or by a read at the node. -/
private theorem Visited.holds
    (visited : Visited context live node name facts log outcome changed before middle after)
    (regular : context.body.Regular) {key : VersionKey} {version : Version}
    (holds : after.tables.Holds key version) :
    before.tables.Holds key version ∨ ∃ reaching,
      MergesAt context.body after.tables after.version name key reaching ∧ version ∈ reaching := by
  have distinct : ((log.map Prod.fst).flatMap Visit.written).Nodup := by
    rw [visited.done.visits]
    exact regular.unshared.nodup_sites name
  unfold Tables.Holds at holds
  rw [visited.merged_after] at holds
  rcases visited.done.performs.holds distinct holds with
    earlier | ⟨entry, member, ⟨target, visits, ⟨reads, -, several⟩, rfl⟩, reaches⟩
  · exact .inl earlier
  · have inCourse : entry.1 ∈ (context.body.course name).visits := by
      rw [← visited.done.visits]
      exact List.mem_map_of_mem member
    have ordinary := regular.ordinary_of_visit inCourse visits
    have arrives : (entry.1, entry.2.reaching target.slot) ∈
        (context.body.course name).arrivals middle.version target.slot
          (facts.reaching target.slot) := by
      rw [← visited.done.arrivals target.slot ordinary]
      exact List.mem_map.2 ⟨entry, member, rfl⟩
    refine .inr ⟨entry.2.reaching target.slot, ⟨facts, entry.1, target, visited.inFacts_self,
      ?_, visits, reads, several, ?_⟩, reaches⟩
    · rw [funext visited.version_after]
      exact arrives
    · rw [visited.version_after]

theorem invariant_peopled (context : Context) :
    Invariant context fun state => state.tables.Peopled where
  visit := by
    intro live dirty node name facts log outcome changed before middle after _ _ peopled visited
    have whole : middle.tables.Peopled := visited.done.performs.peopled peopled
    unfold Tables.Peopled
    rw [visited.merged_after]
    exact whole
  aside := by
    intro before after peopled aside
    unfold Tables.Peopled
    rw [aside.merged]
    exact peopled

/-- What is merged after a pass was merged before, or is merged by a read as it is now. -/
private theorem holds_of_pass {state final : RunState} (regular : context.body.Regular)
    (settling : Settling context dirty state)
    (run : pass context live dirty state = .ok dirtyAfter final) {key : VersionKey}
    {version : Version} (holds : final.tables.Holds key version) :
    state.tables.Holds key version ∨ ∃ node reaching,
      MergesAt context.body final.tables final.version node key reaching ∧
        version ∈ reaching := by
  have whole := pass_induction (motive := fun count dirty middle =>
    Settling context dirty middle ∧ ∀ key version, middle.tables.Holds key version →
      state.tables.Holds key version ∨ ∃ node reaching, node < count ∧
        MergesAt context.body middle.tables middle.version node key reaching ∧
          version ∈ reaching) ?_ run ⟨settling, fun _ _ holds => .inl holds⟩
  · rcases whole.2 key version holds with earlier | ⟨node, reaching, -, merges, member⟩
    · exact .inl earlier
    · exact .inr ⟨node, reaching, merges, member⟩
  · rintro name node dirty dirtyAfter before after found ⟨settling, earlier⟩ visits
    rcases visit_ok regular.unshared settling.fields found visits with
      ⟨facts, log, outcome, changed, middle, visited, rfl⟩
    refine ⟨visited.settling regular.unshared found settling, fun key version holds => ?_⟩
    rcases visited.holds regular holds with holds | ⟨reaching, merges, member⟩
    · rcases earlier key version holds with start | ⟨other, reaching, bound, merges, member⟩
      · exact .inl start
      · have different : other ≠ name := Nat.ne_of_lt bound
        refine .inr ⟨other, reaching, Nat.lt_succ_of_lt bound, merges.congr
          (visited.inFacts_other different) fun expression inCourse => ?_, member⟩
        exact (visited.version_other (regular.unshared.sites_apart different expression inCourse)).symm
    · exact .inr ⟨name, reaching, Nat.lt_succ_self name, merges, member⟩

/-! ## Rounds -/

/-- The state after some rounds that others follow. -/
def Past (context : Context) (start past : RunState) (count : Nat) : Prop :=
  ∃ dirty, Rounds context start count dirty past ∧ (count ≠ 0 → dirty.isEmpty = false)

theorem Rounds.past {start state : RunState} {count : Nat}
    (rounds : Rounds context start count dirty state) (regular : context.body.Regular)
    (settling : Settling context ∅ start) :
    ∀ earlier, earlier < count → ∃ past, Past context start past earlier ∧ Grows past state := by
  induction rounds with
  | none => exact fun earlier bound => absurd bound (Nat.not_lt_zero _)
  | @more count dirty dirtyAfter before after previous unsettled last induction =>
      intro earlier bound
      have settlingBefore := previous.settling regular.unshared settling
      have grows : Grows before after := by
        rcases round_ok last with ⟨counted, passed, aside, passes, reported⟩
        have start := settlingBefore.aside aside
        have grown := pass_induction (motive := fun _ dirty middle =>
          Settling context dirty middle ∧ Grows counted middle)
          (fun name node dirty dirtyAfter before after found earlier visits => by
            rcases visit_ok regular.unshared earlier.1.fields found visits with
              ⟨facts, log, outcome, changed, middle, visited, rfl⟩
            exact ⟨visited.settling regular.unshared found earlier.1,
              earlier.2.trans (visited.grows earlier.1.numbered).1⟩) passes
          ⟨start, .of_phi rfl⟩
        exact ((Grows.of_phi aside.phi).trans grown.2).trans (.of_phi reported.phi)
      rcases Nat.lt_or_eq_of_le (Nat.le_of_lt_succ bound) with less | rfl
      · rcases induction earlier less with ⟨past, found, grown⟩
        exact ⟨past, found, grown.trans grows⟩
      · exact ⟨before, ⟨dirty, previous, unsettled⟩, grows⟩

/-- What is merged after some rounds was merged at the start, or is merged by a read as it was after
an earlier round or as it is now. -/
theorem Rounds.holds {start state : RunState} {count : Nat}
    (rounds : Rounds context start count dirty state) (regular : context.body.Regular)
    (settling : Settling context ∅ start) {key : VersionKey} {version : Version}
    (holds : state.tables.Holds key version) :
    start.tables.Holds key version ∨
      (∃ past earlier node reaching, earlier < count ∧ Past context start past earlier ∧
        MergesAt context.body past.tables past.version node key reaching ∧ version ∈ reaching) ∨
      ∃ node reaching, MergesAt context.body state.tables state.version node key reaching ∧
        version ∈ reaching := by
  induction rounds with
  | none => exact .inl holds
  | @more count dirty dirtyAfter before after previous unsettled last induction =>
      have settlingBefore := previous.settling regular.unshared settling
      rcases round_ok last with ⟨counted, passed, aside, passes, reported⟩
      have holdsPassed : passed.tables.Holds key version := by
        unfold Tables.Holds at holds ⊢
        rw [reported.merged] at holds
        exact holds
      rcases holds_of_pass regular (settlingBefore.aside aside) passes holdsPassed with
        earlier | ⟨node, reaching, merges, member⟩
      · have holdsBefore : before.tables.Holds key version := by
          unfold Tables.Holds at earlier ⊢
          rw [aside.merged] at earlier
          exact earlier
        rcases induction holdsBefore with
          start | ⟨past, round, node, reaching, bound, passed, merges⟩ | ⟨node, reaching, merges⟩
        · exact .inl start
        · exact .inr (.inl ⟨past, round, node, reaching, Nat.lt_succ_of_lt bound, passed, merges⟩)
        · exact .inr (.inl ⟨before, count, node, reaching, Nat.lt_succ_self count,
            ⟨dirty, previous, unsettled⟩, merges⟩)
      · refine .inr (.inr ⟨node, reaching, merges.congr ?_ fun _ _ => ?_, member⟩)
        · rw [reported.inFacts]
        · rw [reported.version]

end RunM

end SlotVersioning
