import SlotVersioning.Proofs.Ownership.Owners
import SlotVersioning.Proofs.Pass.Seeding

/-!
# Owners that enter

Parameters and handler variables enter in a fixed order, each with the next version of its slot. So
the version of an arrival is how often its slot arrived so far (`Arrived`), and after the seeding
the arrivals are all owners there are (`Entering.ledger`).
-/

namespace SlotVersioning

open Std VersionGraph

namespace Body

/-- The slots of the handlers of a statement, in the order in which they are seeded. -/
def handlerArrivals (body : Body) (statement : StatementId) : List Slot :=
  match (body.statements.get? statement).bind fun stored => stored.kind.handlerSlots? with
  | none => []
  | some slots =>
      ((body.statements.children statement).drop 1).zipIdx.flatMap fun handler =>
        (slots[handler.2]?).toList

/-- The slots of all that enters, in order. Nothing enters a graph without an entry. -/
def arrivals (body : Body) : List Slot :=
  if body.graph.entry.isNone then []
  else body.signature.arrivalSlots ++ body.statements.preorder.flatMap body.handlerArrivals

end Body

/-! ## Versions of arrivals -/

/-- The version belongs to an arrival of the slot. -/
def Arrived (arrivals : List Slot) (slot : Slot) (version : Nat) : Prop :=
  ∃ index, arrivals[index]? = some slot ∧ version = (arrivals.take (index + 1)).count slot

section

variable {arrivals more : List Slot} {slot : Slot} {version : Nat}

theorem count_take_succ {index : Nat} (found : arrivals[index]? = some slot) :
    (arrivals.take (index + 1)).count slot = (arrivals.take index).count slot + 1 := by
  rw [List.take_add_one, found, List.count_append]
  simp

private theorem count_take_le {first second : Nat} (ordered : first ≤ second) :
    (arrivals.take first).count slot ≤ (arrivals.take second).count slot :=
  ((List.take_prefix_take_left ordered).sublist).count_le slot

/-- Two arrivals of a slot have different versions. -/
private theorem index_unique {first second : Nat} (firstFound : arrivals[first]? = some slot)
    (secondFound : arrivals[second]? = some slot)
    (same : (arrivals.take (first + 1)).count slot = (arrivals.take (second + 1)).count slot) :
    first = second := by
  have apart {early late : Nat} (found : arrivals[late]? = some slot) (before : early < late) :
      (arrivals.take (early + 1)).count slot < (arrivals.take (late + 1)).count slot := by
    rw [count_take_succ found]
    exact Nat.lt_succ_of_le (count_take_le before)
  rcases Nat.lt_trichotomy first second with less | equal | greater
  · exact absurd same (Nat.ne_of_lt (apart secondFound less))
  · exact equal
  · exact absurd same (Nat.ne_of_gt (apart firstFound greater))

theorem arrived_bounds {index : Nat} (found : arrivals[index]? = some slot) :
    1 ≤ (arrivals.take (index + 1)).count slot ∧
      (arrivals.take (index + 1)).count slot ≤ arrivals.count slot := by
  rw [count_take_succ found]
  refine ⟨Nat.succ_pos _, ?_⟩
  rw [← count_take_succ found]
  exact (List.take_sublist _ _).count_le slot

theorem Arrived.append (arrived : Arrived arrivals slot version) (more : List Slot) :
    Arrived (arrivals ++ more) slot version := by
  rcases arrived with ⟨index, found, counted⟩
  have inside := (List.getElem?_eq_some_iff.1 found).1
  refine ⟨index, (List.getElem?_append_left inside).trans found, ?_⟩
  rw [List.take_append_of_le_length inside]
  exact counted

private theorem arrived_last (arrivals : List Slot) (slot : Slot) :
    Arrived (arrivals ++ [slot]) slot (arrivals.count slot + 1) := by
  refine ⟨arrivals.length, List.getElem?_concat_length, ?_⟩
  rw [count_take_succ List.getElem?_concat_length, List.take_left]

end

/-- All versions in the facts belong to arrivals. -/
def Facts.From (arrivals : List Slot) (facts : Facts) : Prop :=
  ∀ slot, ∀ version ∈ facts.reaching slot, Arrived arrivals slot version

theorem Facts.from_empty (arrivals : List Slot) : (∅ : Facts).From arrivals := by
  intro slot version member
  rw [Facts.reaching_empty] at member
  exact absurd member (VersionSet.not_mem_empty version)

theorem Facts.From.append {arrivals : List Slot} {facts : Facts} (enters : facts.From arrivals)
    (more : List Slot) : facts.From (arrivals ++ more) :=
  fun slot version member => (enters slot version member).append more

/-! ## Seeding -/

/-- Some arrivals entered, and nothing else happened. -/
structure Entering (arrivals : List Slot) (state : RunState) : Prop extends Unvisited state where
  last : ∀ slot, state.last slot = arrivals.count slot
  phantoms : ∀ key, state.tables.phantom? key = none
  inputs : ∀ key, ¬ state.tables.HasInput key
  live : ∀ graph facts, state.tables.graph = some graph → ¬ graph.Records facts
  seeds : ∀ (name : NodeId) (facts : Facts), state.tables.seeds[name]? = some facts →
    facts.From arrivals

theorem Versioner.entering_start (config : Config) (body : Body) :
    Entering [] (start config body) := by
  have bare (graph : VersionGraph) (stored : (start config body).tables.graph = some graph) :
      graph.nodes = #[] := by
    unfold start Tables.fresh Tables.renew at stored
    dsimp only at stored
    split at stored
    · cases stored
      rfl
    · exact nomatch stored
  refine ⟨unvisited_start config body, fun slot => ExtTreeMap.getD_empty, fun key => ?_, ?_, ?_, ?_⟩
  · unfold Tables.phantom? start Tables.fresh Tables.renew
    dsimp only
    split
    · exact ExtTreeMap.getElem?_empty
    · rfl
  · rintro key ⟨graph, stored, position, found⟩
    unfold identity? at found
    rw [bare graph stored] at found
    exact nomatch found
  · rintro graph facts stored ⟨position, node, found, -⟩
    rw [bare graph stored] at found
    exact nomatch found
  · intro name facts stored
    have none : (start config body).tables.seeds[name]? = none := ExtTreeMap.getElem?_empty
    rw [none] at stored
    exact nomatch stored

namespace RunM

variable {context : Context} {arrivals : List Slot} {state final : RunState}

theorem seedVersion_entering {statement : StatementId} {facts result : Facts} {slot : Slot}
    (entering : Entering arrivals state) (enters : facts.From arrivals)
    (run : seedVersion context statement facts slot state = .ok result final) :
    Entering (arrivals ++ [slot]) final ∧ result.From (arrivals ++ [slot]) := by
  have quiet := quietly_seedVersion context statement facts slot state result final run
  have unvisited := entering.toUnvisited.of_quiet quiet
  cases run
  have creates (graph : VersionGraph)
      (stored : (state.tables.graph.map fun graph =>
        (graph.ensure ⟨slot, state.last slot + 1⟩ .definition).1) = some graph) :
      ∃ old, state.tables.graph = some old ∧
        Creates [(⟨slot, state.last slot + 1⟩, .definition)] old graph := by
    rcases Option.map_eq_some_iff.1 stored with ⟨old, found, rfl⟩
    exact ⟨old, found, creates_ensure old _ _ _⟩
  refine ⟨⟨unvisited, fun other => ?_, entering.phantoms, ?_, ?_, ?_⟩, fun other version member => ?_⟩
  · refine (state.last_mint context.body.statements slot other (some statement)).trans ?_
    rw [List.count_append, entering.last, entering.last, List.count_singleton]
    by_cases same : slot = other
    · subst same
      simp
    · simp [same]
  · rintro key ⟨graph, stored, isInput⟩
    rcases creates graph stored with ⟨old, found, edited⟩
    rcases edited.nodes key .phiInput isInput with before | member
    · exact entering.inputs key ⟨old, found, before⟩
    · simp at member
  · intro graph facts stored recorded
    rcases creates graph stored with ⟨old, found, edited⟩
    exact entering.live old facts found (edited.records facts recorded)
  · exact fun name facts stored => (entering.seeds name facts stored).append [slot]
  · rw [Facts.reaching_pin] at member
    split at member
    · next same =>
        subst same
        rw [VersionSet.mem_singleton.1 member]
        change Arrived _ _ (state.last other + 1)
        rw [entering.last]
        exact arrived_last arrivals other
    · exact (enters.append [slot]) other version member

theorem storeSeeds_entering {node : NodeId} {facts : Facts} (entering : Entering arrivals state)
    (enters : facts.From arrivals) (run : storeSeeds node facts state = .ok () final) :
    Entering arrivals final := by
  have unvisited := entering.toUnvisited
  cases run
  refine ⟨⟨unvisited.inFacts, unvisited.outFacts, unvisited.negativeFacts, unvisited.version,
    unvisited.merged, ⟨unvisited.fields.next, unvisited.fields.given⟩⟩, entering.last,
    entering.phantoms, entering.inputs, entering.live, fun name stored found => ?_⟩
  simp only [ExtTreeMap.getElem?_insert] at found
  split at found
  · cases found
    exact enters
  · exact entering.seeds name stored found

private theorem seedParameters_entering {entry : NodeId} (entering : Entering [] state)
    (run : seedParameters context entry state = .ok () final) :
    Entering context.body.signature.arrivalSlots final := by
  rcases bind_ok run with ⟨facts, middle, minted, run⟩
  generalize context.body.signature.arrivalSlots = slots at minted ⊢
  have entered : Entering (slots.take (0 + slots.length)) middle ∧
      facts.From (slots.take (0 + slots.length)) := by
    refine foldlM_induction (motive := fun index facts state =>
      Entering (slots.take index) state ∧ facts.From (slots.take index)) 0 ?_ minted
      ⟨entering, Facts.from_empty []⟩
    intro index slot facts next before after found holds stepped
    rw [Nat.zero_add] at holds ⊢
    rw [List.take_add_one, found]
    exact seedVersion_entering holds.1 holds.2 stepped
  rw [Nat.zero_add, List.take_length] at entered
  exact storeSeeds_entering entered.1 entered.2 run

private theorem seedHandlers_entering {statement : StatementId} (entering : Entering arrivals state)
    (run : seedHandlers context statement state = .ok () final) :
    Entering (arrivals ++ context.body.handlerArrivals statement) final := by
  unfold Body.handlerArrivals
  rcases seedHandlers_ok run with ⟨handles, rfl⟩ | ⟨slots, handles, run⟩
  · simp only [handles]
    rw [List.append_nil]
    exact entering
  · simp only [handles]
    refine forM_appends run (fun handler done state final entering run => ?_) entering
    rcases seedHandler_ok run with ⟨slot, entry, facts, middle, listed, -, minted, stores⟩
    have enters := seedVersion_entering entering (Facts.from_empty done) minted
    simp only [listed]
    exact storeSeeds_entering enters.1 enters.2 stores

/-- After the seeding of a run its arrivals entered. -/
theorem seeding_entering {config : Config} {body : Body} {entry : NodeId} {seeded : RunState}
    (found : body.graph.entry = some entry)
    (seeds : seeding { config, body } entry (Versioner.start config body) = .ok () seeded) :
    Entering body.arrivals seeded := by
  rcases bind_ok seeds with ⟨_, middle, parameters, handlers⟩
  have first := seedParameters_entering (Versioner.entering_start config body) parameters
  have all := forM_appends handlers
    (fun _ _ _ _ entering run => seedHandlers_entering entering run) first
  unfold Body.arrivals
  rw [found]
  exact all

end RunM

/-! ## The first ledger -/

namespace Entering

variable {claimants : Claimants} {state : RunState}

theorem admitted (entering : Entering claimants.arrivals state) {facts : Facts}
    (enters : facts.From claimants.arrivals) : state.Admitted facts := by
  intro slot _ version member
  rcases enters slot version member with ⟨index, found, rfl⟩
  have bounds := arrived_bounds found
  refine ⟨bounds.1, ?_, entering.inputs _⟩
  rw [entering.last]
  exact bounds.2

/-- After the seeding only arrivals own versions. -/
private theorem owner (entering : Entering claimants.arrivals state) {owner : Owner}
    {key : VersionKey} (owns : claimants.Owns state owner key) : ∃ index, owner = .seed index := by
  cases owner with
  | seed index => exact ⟨index, rfl⟩
  | site expression => exact absurd (entering.version expression) owns.2.1
  | merged merged =>
      obtain ⟨-, known⟩ := owns
      rw [entering.merged merged] at known
      exact nomatch known
  | phantom incremented =>
      have found : state.tables.phantom? incremented = some key := owns
      rw [entering.phantoms incremented] at found
      exact nomatch found
  | input input => exact absurd owns.2 (entering.inputs input)

theorem ledger (entering : Entering claimants.arrivals state) : claimants.Ledger state where
  unique := by
    intro first second key firstOwns secondOwns
    rcases entering.owner firstOwns with ⟨left, rfl⟩
    rcases entering.owner secondOwns with ⟨right, rfl⟩
    rw [index_unique firstOwns.1 secondOwns.1 (firstOwns.2.symm.trans secondOwns.2)]
  numbered := by
    intro owner key owns
    rcases entering.owner owns with ⟨index, rfl⟩
    rw [owns.2, entering.last]
    exact arrived_bounds owns.1
  written := fun expression _ _ versioned => absurd (entering.version expression) versioned
  negative := entering.fields
  live := fun graph facts stored recorded => absurd recorded (entering.live graph facts stored)

end Entering

end SlotVersioning
