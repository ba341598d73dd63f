import SlotVersioning.Proofs.Course.Relate
import SlotVersioning.Proofs.Pass.Sequence

/-!
# What passes retain

Without usage versions a pass can replace the version of a read, and with it what the read lets
through. Whatever is stored at nodes is nevertheless related to what was stored one pass before, by
any relation that joins respect and that holds between the versions of each site
(`RunM.retains_of_rounds`).
-/

namespace SlotVersioning

open Std

/-- What is stored after a node where its last test held. -/
def Tables.leaving (tables : Tables) (node : NodeId) (slot : Slot) : VersionSet :=
  ((tables.outFacts[node]?).getD ∅).reaching slot

/-- The versions of the sites of a slot are related at two times. -/
def RelatesVersions (body : Body) (related : VersionSet → VersionSet → Prop) (slot : Slot)
    (before after : RunState) : Prop :=
  ∀ node, ∀ place ∈ (body.course node).visits, ∀ target, place.site? = some target →
    target.slot = slot →
      related {before.version target.expression} {after.version target.expression}

/-- What is stored for a slot at the nodes is related at two times. -/
structure Retains (context : Context) (related : VersionSet → VersionSet → Prop) (slot : Slot)
    (before after : RunState) : Prop where
  entering : ∀ node < context.graph.size,
    related (before.tables.entering node slot) (after.tables.entering node slot)
  brought : ∀ source < context.graph.size, ∀ target,
    related (before.tables.brought context.graph source target slot)
      (after.tables.brought context.graph source target slot)

variable {context : Context} {related : VersionSet → VersionSet → Prop} {slot : Slot}
  {before middle after : RunState} {dirty dirtyAfter : DirtyNodes}

/-- Related sets at the visits of a node, from related sets that enter it. -/
theorem relatesSites {versions others : ExprId → Version} {node : NodeId}
    {reaching later : VersionSet}
    (sites : ∀ place ∈ (context.body.course node).visits, ∀ target, place.site? = some target →
      target.slot = slot → related {versions target.expression} {others target.expression}) :
    Course.RelatesSites related versions others slot
      ((context.body.course node).arrivals versions slot reaching)
      ((context.body.course node).arrivals others slot later) :=
  fun place _ _ member _ _ target visits same =>
    sites place (Course.mem_visits_of_arrival member) target visits same

namespace Turn

theorem entering_related (joinable : Joinable related) (first : Turn context before middle)
    (second : Turn context middle after) {node : NodeId} (known : node < context.graph.size)
    (seeds : related (before.tables.seeded node slot) (before.tables.seeded node slot))
    (each : ∀ source ∈ context.graph.predecessors node,
      related
        ((if source < node then middle.tables else before.tables).brought context.graph source node
          slot)
        ((if source < node then after.tables else middle.tables).brought context.graph source node
          slot)) :
    related (middle.tables.entering node slot) (after.tables.entering node slot) := by
  rcases first.joins node known with ⟨firstFacts, firstStored, firstJoins⟩
  rcases second.joins node known with ⟨secondFacts, secondStored, secondJoins⟩
  rw [Tables.entering_of_stored firstStored, Tables.entering_of_stored secondStored]
  apply joinable.joined seeds each (firstJoins slot)
  intro version
  rw [secondJoins slot version, first.seeded]

/-- What leaves a node is related when what enters it is. -/
theorem brought_related (joinable : Joinable related) (ordinary : 0 ≤ slot)
    (settlingBefore : Settling context dirty before)
    (settlingAfter : Settling context dirtyAfter after) {source target : NodeId} {facts later : Facts}
    (stored : before.tables.inFacts[source]? = some facts)
    (storedLater : after.tables.inFacts[source]? = some later)
    (entering : related (facts.reaching slot) (later.reaching slot))
    (sites : Course.RelatesSites related before.version after.version slot
      ((context.body.course source).arrivals before.version slot (facts.reaching slot))
      ((context.body.course source).arrivals after.version slot (later.reaching slot))) :
    related (before.tables.brought context.graph source target slot)
      (after.tables.brought context.graph source target slot) := by
  rw [(settlingBefore.carried source facts stored).brought target ordinary,
    (settlingAfter.carried source later storedLater).brought target ordinary]
  exact (Course.relates joinable entering sites).1 _

/-- What was retained over one pass is retained over the next. -/
private theorem retains (joinable : Joinable related) (reflexive : ∀ set, related set set)
    (ordinary : 0 ≤ slot) (unshared : context.body.Unshared) (first : Turn context before middle)
    (second : Turn context middle after) (settlingMiddle : Settling context dirty middle)
    (settlingAfter : Settling context dirtyAfter after)
    (retained : Retains context related slot before middle)
    (versions : RelatesVersions context.body related slot middle after) :
    Retains context related slot middle after := by
  have leaves (source : NodeId) (known : source < context.graph.size)
      (entering : related (middle.tables.entering source slot) (after.tables.entering source slot))
      (target : NodeId) :
      related (middle.tables.brought context.graph source target slot)
        (after.tables.brought context.graph source target slot) := by
    rcases first.joins source known with ⟨facts, stored, -⟩
    rcases second.joins source known with ⟨later, storedLater, -⟩
    rw [Tables.entering_of_stored stored, Tables.entering_of_stored storedLater] at entering
    exact brought_related joinable ordinary settlingMiddle settlingAfter stored storedLater entering
      (relatesSites (versions source))
  have enters (node : NodeId) (known : node < context.graph.size) :
      related (middle.tables.entering node slot) (after.tables.entering node slot) := by
    induction node using Nat.strongRecOn with
    | ind node induction =>
        apply first.entering_related joinable second known (reflexive _)
        intro source edge
        have inside := unshared.built.lt_size_of_predecessor edge
        split
        · next earlier => exact leaves source inside (induction source earlier inside) node
        · exact retained.brought source inside node
  exact ⟨enters, fun source known => leaves source known (enters source known)⟩

end Turn

/-- Before a node is visited nothing is stored at it. -/
private theorem retains_of_unvisited (unvisited : Unvisited before)
    (bottom : ∀ set, related ∅ set) :
    Retains context related slot before after where
  entering := by
    intro node known
    unfold Tables.entering
    rw [unvisited.inFacts, ExtTreeMap.getElem?_empty]
    exact Facts.reaching_empty slot ▸ bottom _
  brought := by
    intro source known target
    have nothing : before.tables.brought context.graph source target slot = ∅ := by
      unfold Tables.brought Tables.edgeFacts?
      rw [unvisited.outFacts, unvisited.negativeFacts, ExtTreeMap.getElem?_empty,
        ite_self]
      exact Facts.reaching_empty slot
    rw [nothing]
    exact bottom _

/-- What leaves a node where its last test held is related when what enters it is. -/
theorem Retains.leaving (retains : Retains context related slot before after)
    (joinable : Joinable related) (bottom : ∀ set, related ∅ set) (ordinary : 0 ≤ slot)
    (settlingBefore : Settling context dirty before)
    (settlingAfter : Settling context dirtyAfter after)
    (versions : RelatesVersions context.body related slot before after) {node : NodeId}
    (known : node < context.graph.size) {later : Facts}
    (entered : after.tables.inFacts[node]? = some later) :
    related (before.tables.leaving node slot) (after.tables.leaving node slot) := by
  unfold Tables.leaving
  cases stored : before.tables.inFacts[node]? with
  | none =>
      rw [(settlingBefore.unvisited node stored).1]
      exact Facts.reaching_empty slot ▸ bottom _
  | some facts =>
      have entering := retains.entering node known
      rw [Tables.entering_of_stored stored, Tables.entering_of_stored entered] at entering
      rcases (settlingBefore.carried node facts stored).onTrue with ⟨out, found, carries⟩
      rcases (settlingAfter.carried node later entered).onTrue with
        ⟨outLater, foundLater, carriesLater⟩
      rw [found, foundLater, Option.getD_some, Option.getD_some, carries slot ordinary,
        carriesLater slot ordinary]
      exact (Course.relates joinable entering (relatesSites (versions node))).1 true

namespace RunM

/-- What every pass so far retained is retained over the next pass. -/
theorem retains_of_rounds {start state : RunState} {count : Nat}
    (rounds : Rounds context start count dirty state) (joinable : Joinable related)
    (reflexive : ∀ set, related set set) (bottom : ∀ set, related ∅ set) (ordinary : 0 ≤ slot)
    (unshared : context.body.Unshared) (plain : context.config.has .usageVersions = false)
    (unvisited : Unvisited start)
    (history : ∀ earlier < count, RelatesVersions context.body related slot
      (rested context start earlier) (rested context start (earlier + 1)))
    (turn : Turn context state after) (settling : Settling context dirtyAfter after)
    (versions : RelatesVersions context.body related slot state after) :
    Retains context related slot state after := by
  induction rounds generalizing after dirtyAfter with
  | none => exact retains_of_unvisited unvisited bottom
  | @more count dirty dirtyMiddle before middle earlier unsettled last induction =>
      have settlingStart : Settling context ∅ start := unvisited.settling
      have settlingBefore := earlier.settling unshared settlingStart
      have whole := Rounds.more earlier unsettled last
      have settlingMiddle := whole.settling unshared settlingStart
      have first := turn_of_round unshared plain settlingBefore last
      have related := history count (Nat.lt_succ_self count)
      rw [earlier.rested_eq, whole.rested_eq] at related
      have retained := induction (fun passes less => history passes (Nat.lt_succ_of_lt less)) first
        settlingMiddle related
      exact first.retains joinable reflexive ordinary unshared turn settlingMiddle settling retained
        versions

end RunM

end SlotVersioning
