import Mathlib.Data.List.Induction
import SlotVersioning.Proofs.Course.Growth
import SlotVersioning.Proofs.Pass.Turn
import SlotVersioning.Proofs.Phi.History

/-!
# Sequences of passes

The states between the rounds of a run (`rested`), as a sequence in which each is one turn from the
one before. All versions in such a state were numbered by then (`Bounded`).
-/

namespace SlotVersioning

open Std

namespace RunM

/-- What a number of rounds leads to; a round that fails, to where it failed. -/
def reached (context : Context) (start : RunState) : Nat → DirtyNodes × RunState
  | 0 => (∅, start)
  | count + 1 =>
      let earlier := reached context start count
      match round context earlier.1 earlier.2 with
      | .ok dirty state => (dirty, state)
      | .error _ state => (∅, state)

/-- The state after a number of rounds. -/
def rested (context : Context) (start : RunState) (count : Nat) : RunState :=
  (reached context start count).2

namespace Rounds

variable {context : Context} {start state : RunState} {count : Nat} {dirty : DirtyNodes}

theorem reached_eq (rounds : Rounds context start count dirty state) :
    reached context start count = (dirty, state) := by
  induction rounds with
  | none => rfl
  | more earlier unsettled last induction =>
      unfold reached
      rw [induction]
      dsimp only
      rw [last]

theorem rested_eq (rounds : Rounds context start count dirty state) :
    rested context start count = state := by
  unfold rested
  rw [rounds.reached_eq]

/-- The rounds before the last ones. -/
theorem earlier (rounds : Rounds context start count dirty state) {passes : Nat}
    (few : passes ≤ count) :
    Rounds context start passes (reached context start passes).1 (rested context start passes) ∧
      (passes < count → passes ≠ 0 → (reached context start passes).1.isEmpty = false) := by
  induction rounds with
  | none =>
      cases Nat.le_zero.1 few
      exact ⟨.none, fun less => absurd less (Nat.lt_irrefl 0)⟩
  | @more count dirty dirtyAfter before after earlier unsettled last induction =>
      rcases Nat.lt_or_eq_of_le few with less | rfl
      · rcases Nat.lt_or_eq_of_le (Nat.le_of_lt_succ less) with lesser | rfl
        · exact ⟨(induction (Nat.le_of_lt lesser)).1, fun _ => (induction (Nat.le_of_lt lesser)).2
            lesser⟩
        · rw [rested, earlier.reached_eq]
          exact ⟨earlier, fun _ => unsettled⟩
      · have whole := Rounds.more earlier unsettled last
        rw [rested, whole.reached_eq]
        exact ⟨whole, fun less => absurd less (Nat.lt_irrefl _)⟩

/-- The passes of a run come to an end once. -/
theorem end_unique {other : RunState} {more : Nat} (rounds : Rounds context start count ∅ state)
    (others : Rounds context start more ∅ other) (positive : 0 < count) (sooner : 0 < more) :
    count = more ∧ state = other := by
  have apart {fewer total : Nat} {early late : RunState} (first : Rounds context start fewer ∅ early)
      (second : Rounds context start total ∅ late) (some : 0 < fewer) : ¬ fewer < total := by
    intro less
    have unsettled := (second.earlier (Nat.le_of_lt less)).2 less (Nat.ne_of_gt some)
    rw [first.reached_eq] at unsettled
    exact nomatch unsettled
  have same : count = more := by
    have left := apart rounds others positive
    have right := apart others rounds sooner
    omega
  subst same
  exact ⟨rfl, congrArg Prod.snd (rounds.reached_eq.symm.trans others.reached_eq)⟩

theorem past_rested (rounds : Rounds context start count dirty state) {passes : Nat}
    (few : passes < count) : Past context start (rested context start passes) passes :=
  ⟨_, (rounds.earlier (Nat.le_of_lt few)).1, (rounds.earlier (Nat.le_of_lt few)).2 few⟩

theorem settling_rested (rounds : Rounds context start count dirty state)
    (unshared : context.body.Unshared) (settling : Settling context ∅ start) {passes : Nat}
    (few : passes ≤ count) :
    Settling context (reached context start passes).1 (rested context start passes) :=
  (rounds.earlier few).1.settling unshared settling

/-- One round leads from each of the states to the next one. -/
theorem round_rested (rounds : Rounds context start count dirty state) {passes : Nat}
    (few : passes < count) :
    round context (reached context start passes).1 (rested context start passes) =
      .ok (reached context start (passes + 1)).1 (rested context start (passes + 1)) := by
  have next := (rounds.earlier few).1
  generalize (reached context start (passes + 1)).1 = left at next ⊢
  generalize rested context start (passes + 1) = after at next ⊢
  cases next with
  | more earlier unsettled last =>
      rw [rested, earlier.reached_eq]
      exact last

theorem turn (rounds : Rounds context start count dirty state)
    (unshared : context.body.Unshared) (plain : context.config.has .usageVersions = false)
    (settling : Settling context ∅ start) {passes : Nat} (few : passes < count) :
    Turn context (rested context start passes) (rested context start (passes + 1)) :=
  turn_of_round unshared plain (rounds.settling_rested unshared settling (Nat.le_of_lt few))
    (rounds.round_rested few)

end Rounds

end RunM

/-! ## Versions are numbered -/

/-- The versions in the facts were numbered. -/
def RunState.Numbers (state : RunState) (facts : Facts) : Prop :=
  ∀ slot, ∀ version ∈ facts.reaching slot, version ≤ state.last slot

/-- The versions that entered from outside were numbered. -/
def RunState.NumbersSeeds (state : RunState) : Prop :=
  ∀ (node : NodeId) (slot : Slot), ∀ version ∈ state.tables.seeded node slot,
    version ≤ state.last slot

/-- All versions of variables that are written or stored were numbered. -/
structure Bounded (body : Body) (state : RunState) : Prop where
  written : ∀ node, ∀ place ∈ (body.course node).visits, ∀ target, place.site? = some target →
    0 ≤ target.slot → state.version target.expression ≤ state.last target.slot
  entering : ∀ node < body.graph.size, ∀ slot : Slot, 0 ≤ slot →
    ∀ version ∈ state.tables.entering node slot, version ≤ state.last slot
  seeded : state.NumbersSeeds

/-- A node that visits something is a node of the graph. -/
theorem Body.lt_size_of_visit {body : Body} {node : NodeId} {place : Visit}
    (inCourse : place ∈ (body.course node).visits) : node < body.graph.size := by
  unfold Body.course at inCourse
  cases found : body.graph.node? node with
  | none =>
      rw [found] at inCourse
      exact nomatch inCourse
  | some stored => exact (Array.getElem?_eq_some_iff.1 found).1

namespace Bounded

variable {context : Context} {before after : RunState} {dirty dirtyAfter : DirtyNodes}

/-- What an edge brings was numbered. -/
private theorem brought {state : RunState} (settling : Settling context dirty state)
    {source target : NodeId} {slot : Slot} (ordinary : 0 ≤ slot)
    (written : ∀ place ∈ (context.body.course source).visits, ∀ target,
      place.site? = some target → 0 ≤ target.slot →
        state.version target.expression ≤ state.last target.slot)
    (entering : ∀ version ∈ state.tables.entering source slot, version ≤ state.last slot)
    {version : Version}
    (brings : version ∈ state.tables.brought context.graph source target slot) :
    version ≤ state.last slot := by
  rcases settling.carry_of_brought ordinary brings with ⟨facts, stored, carries⟩
  rcases Course.written_of_carry carries with entered | ⟨place, inCourse, site, visits, rfl, rfl⟩
  · rw [← Tables.entering_of_stored stored] at entered
    exact entering version entered
  · exact written place inCourse site visits ordinary

/-- The sites of a node, one after the other. -/
private theorem written_of_entering (bounded : Bounded context.body before)
    (turn : Turn context before after) {node : NodeId} (known : node < context.graph.size)
    {facts : Facts} (stored : after.tables.inFacts[node]? = some facts) {slot : Slot}
    (ordinary : 0 ≤ slot) (entering : ∀ version ∈ facts.reaching slot, version ≤ after.last slot)
    {earlier later : List (Visit × VersionSet)}
    (split : (context.body.course node).arrivals after.version slot (facts.reaching slot) =
      earlier ++ later) :
    ∀ entry ∈ earlier, ∀ target, entry.1.site? = some target → target.slot = slot →
      after.version target.expression ≤ after.last slot := by
  induction earlier using List.reverseRecOn generalizing later with
  | nil => exact fun entry member => nomatch member
  | append_singleton earlier last induction =>
      rw [List.append_assoc, List.singleton_append] at split
      have before := induction split
      intro entry member target visits same
      rcases List.mem_append.1 member with member | here
      · exact before entry member target visits same
      · obtain rfl := List.mem_singleton.1 here
        subst same
        have arrives : entry ∈ (context.body.course node).arrivals after.version target.slot
            (facts.reaching target.slot) := by
          rw [split]
          exact List.mem_append_right _ List.mem_cons_self
        cases turn.renewal node known entry.1 target entry.2 ⟨facts, stored, arrives, visits⟩
          ordinary with
        | adopts only reads alone version =>
            have adopted : only ∈ entry.2 := by
              rw [alone]
              exact VersionSet.mem_singleton.2 rfl
            rw [version]
            rcases Course.written_of_arrival split adopted with
              entered | ⟨place, listed, other, otherVisits, otherSlot, written⟩
            · exact entering only entered
            · rcases List.mem_map.1 listed with ⟨first, firstMember, rfl⟩
              rw [← written]
              exact before first firstMember other otherVisits otherSlot
        | keeps owns versioned version =>
            have inCourse := Course.mem_visits_of_arrival arrives
            rw [version]
            exact Nat.le_trans (bounded.written node entry.1 inCourse target visits ordinary)
              (turn.last target.slot)
        | mints owns eligible fresh numbered => exact numbered

/-- The versions of a state without visited nodes are those that entered from outside. -/
private theorem of_unvisited {body : Body} {state : RunState} (unvisited : Unvisited state)
    (seeded : state.NumbersSeeds) : Bounded body state where
  written := by
    intro node place inCourse target visits ordinary
    rw [unvisited.version]
    exact Nat.zero_le _
  entering := by
    intro node known slot ordinary version member
    rcases Tables.mem_entering.1 member with ⟨facts, entering, -⟩
    exact absurd entering unvisited.not_entering
  seeded := seeded

/-- Versions stay numbered. -/
private theorem turn (bounded : Bounded context.body before) (turn : Turn context before after)
    (unshared : context.body.Unshared) (settlingBefore : Settling context dirty before)
    (settlingAfter : Settling context dirtyAfter after) : Bounded context.body after := by
  have seeded (node : NodeId) (slot : Slot) (version : Version)
      (member : version ∈ before.tables.seeded node slot) : version ≤ after.last slot :=
    Nat.le_trans (bounded.seeded node slot version member) (turn.last slot)
  have each (node : NodeId) (known : node < context.graph.size) :
      (∀ place ∈ (context.body.course node).visits, ∀ target, place.site? = some target →
        0 ≤ target.slot → after.version target.expression ≤ after.last target.slot) ∧
      ∀ slot : Slot, 0 ≤ slot →
        ∀ version ∈ after.tables.entering node slot, version ≤ after.last slot := by
    induction node using Nat.strongRecOn with
    | ind node induction =>
        rcases turn.joins node known with ⟨facts, stored, joins⟩
        have enters (slot : Slot) (ordinary : 0 ≤ slot) :
            ∀ version ∈ facts.reaching slot, version ≤ after.last slot := by
          intro version member
          rcases (joins slot version).1 member with ⟨source, edge, brings⟩ | seeds
          · have inside := unshared.built.lt_size_of_predecessor edge
            split at brings
            · next earlier =>
                have source := induction source earlier inside
                exact brought settlingAfter ordinary source.1 (source.2 slot ordinary) brings
            · have numbered := brought settlingBefore ordinary
                (bounded.written source) (bounded.entering source inside slot ordinary) brings
              exact Nat.le_trans numbered (turn.last slot)
          · exact seeded node slot version seeds
        refine ⟨fun place inCourse target visits ordinary => ?_, fun slot ordinary => ?_⟩
        · rcases Course.exists_arrival inCourse (facts.reaching target.slot) with
            ⟨arriving, arrives⟩
          exact written_of_entering bounded turn known stored ordinary (enters target.slot ordinary)
            (List.append_nil _).symm _ arrives target visits rfl
        · rw [Tables.entering_of_stored stored]
          exact enters slot ordinary
  refine ⟨?_, fun node known => (each node known).2, ?_⟩
  · intro node place inCourse
    exact (each node (Body.lt_size_of_visit inCourse)).1 place inCourse
  · unfold RunState.NumbersSeeds
    rw [turn.seeded]
    exact seeded

end Bounded

namespace RunM

variable {context : Context}

private theorem numbers_seedVersion {statement : StatementId} {facts result : Facts} {slot : Slot}
    {state final : RunState} (numbers : state.Numbers facts)
    (run : seedVersion context statement facts slot state = .ok result final) :
    final.Numbers result := by
  have quiet := quietly_seedVersion context statement facts slot state result final run
  have last : final.last slot = state.last slot + 1 := by
    cases run
    have minted := state.last_mint context.body.statements slot slot (some statement)
    rw [if_pos rfl] at minted
    exact minted
  have pinned : result = facts.pin slot (state.last slot + 1) := by
    cases run
    rfl
  intro other version member
  rw [pinned, Facts.reaching_pin] at member
  split at member
  · next here =>
      rw [here, last]
      exact Nat.le_of_eq (VersionSet.mem_singleton.1 member)
  · exact Nat.le_trans (numbers other version member) (quiet.last other)

/-- What the seeding lets enter was numbered. -/
theorem numbersSeeds_of_seeding {entry : NodeId} {state final : RunState}
    (empty : state.tables.seeds = ∅) (run : seeding context entry state = .ok () final) :
    final.NumbersSeeds := by
  have preserved : Preserves RunState.NumbersSeeds (seeding context entry) := by
    refine preserves_seeding RunState.Numbers ?_ ?_ ?_ entry
    · intro state _ slot version nowhere
      rw [Facts.reaching_empty] at nowhere
      exact absurd nowhere (VersionSet.not_mem_empty version)
    · intro statement facts slot state value final numbered good stepped
      have quiet := quietly_seedVersion context statement facts slot state value final stepped
      refine ⟨fun node other version member => ?_, numbers_seedVersion good stepped⟩
      have kept : final.tables.seeds = state.tables.seeds := congrArg Stores.seeds quiet.stores
      unfold Tables.seeded at member
      rw [kept] at member
      exact Nat.le_trans (numbered node other version member) (quiet.last other)
    · intro node facts state final numbered good stored other slot version member
      cases stored
      unfold Tables.seeded at member
      rw [ExtTreeMap.getElem?_insert] at member
      split at member
      · exact good slot version member
      · exact numbered other slot version member
  refine preserved state () final ?_ run
  intro node slot version member
  unfold Tables.seeded at member
  rw [empty, ExtTreeMap.getElem?_empty, Option.getD_none, Facts.reaching_empty] at member
  exact absurd member (VersionSet.not_mem_empty version)

theorem Rounds.bounded_rested {start state : RunState} {count : Nat} {dirty : DirtyNodes}
    (rounds : Rounds context start count dirty state) (unshared : context.body.Unshared)
    (plain : context.config.has .usageVersions = false) (unvisited : Unvisited start)
    (seeded : start.NumbersSeeds) {passes : Nat} (few : passes ≤ count) :
    Bounded context.body (rested context start passes) := by
  induction passes with
  | zero => exact .of_unvisited unvisited seeded
  | succ passes induction =>
      have before := induction (Nat.le_of_lt few)
      have settling : Settling context ∅ start := unvisited.settling
      exact before.turn (rounds.turn unshared plain settling few) unshared
        (rounds.settling_rested unshared settling (Nat.le_of_lt few))
        (rounds.settling_rested unshared settling few)

end RunM

end SlotVersioning
