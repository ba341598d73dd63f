import SlotVersioning.Proofs.Fields.Slots
import SlotVersioning.Proofs.Fields.Trails
import SlotVersioning.Proofs.Rest.Passes

/-!
# Fields after runs

After a successful run every visited field access has a slot of its own, and the slots are the
numbers from minus one downwards. Stored facts know fields under these slots only, each in version
one. The slot is stored before a node exactly if its access is recalled there
(`Versioner.fieldsExact_of_run`).
-/

namespace SlotVersioning

open Std RunM

/-! ## Before the first round -/

section

variable {config : Config} {body : Body} {state : RunState}

/-- Seeding gives no slots to fields. -/
theorem Versioner.Begins.sameSlots (begins : Begins config body state) :
    (start config body).SameSlots state := by
  cases begins with
  | bare => exact .refl _
  | seeded isEntry seeds =>
      exact (RunState.SameSlots.indifferent (start config body)).seeding (fun _ _ same => same)
        _ _ _ _ _ (.refl _) seeds

variable (versioned : config.has .fieldVersions = true)

include versioned

theorem RunState.SameSlots.fields (same : (Versioner.start config body).SameSlots state) :
    state.tables.fields = some ∅ := by
  rw [same.2]
  unfold Versioner.start Tables.fresh Tables.renew
  rw [if_pos versioned]

/-- No slot was given before the first round. -/
private theorem FieldSlots.of_begins (begins : Versioner.Begins config body state) :
    FieldSlots body state := by
  have fields := begins.sameSlots.fields versioned
  have next : state.tables.nextFieldSlot = -1 := begins.sameSlots.1
  have given {expression : ExprId} {slot : Slot} :
      ¬ state.fieldSlot? expression = some slot := by
    unfold RunState.fieldSlot?
    rw [fields, Option.bind_some, ExtTreeMap.getElem?_empty]
    exact fun impossible => nomatch impossible
  refine ⟨?_, ?_, fun _ _ known => absurd known given, fun _ _ _ known => absurd known given,
    fun slot => ?_, fun graph stored facts recorded => ?_⟩
  · rw [fields]
    rfl
  · rw [next]
    exact (by decide : (-1 : Int) < 0)
  · rw [next]
    refine iff_of_false (fun ⟨_, known⟩ => given known) fun ⟨above, negative⟩ => ?_
    exact Int.not_le.2 negative (Int.add_one_le_of_lt above)
  · exact absurd recorded (begins.entering.live graph facts stored)

variable (begins : Versioner.Begins config body state)
  (ordinary : ∀ slot ∈ body.arrivals, 0 ≤ slot)

include begins ordinary

private theorem Versioner.Begins.keptFields :
    Kept { config, body } (FieldSlots body) RunState.FieldFacts Named 0 state :=
  .of_unvisited begins.entering.toUnvisited (.of_begins versioned begins)
    fun node facts stored _ negative _ member =>
      absurd ((begins.entering.seeds node facts stored).nonneg ordinary member)
        (Int.not_le.2 negative)

private theorem Versioner.Begins.trailed : Trailed { config, body } state := by
  refine ⟨begins.entering.balanced fun _ => ?_, fun node slot negative seeded => ?_,
    fun _ _ entering => absurd entering begins.entering.not_entering⟩
  · rw [begins.sameSlots.fields versioned]
    rfl
  · rcases Tables.mem_seeded.1 seeded with ⟨facts, stored, reaches⟩
    have entered := begins.entering.seeds node facts stored
    exact Int.not_le.2 negative (entered.nonneg ordinary reaches)

end

/-- The numbers between a bound and zero are those from some negative number to minus one. -/
private theorem exists_count {next : Int} (negative : next < 0) :
    ∃ count : Nat, ∀ slot : Int, next < slot ∧ slot < 0 ↔ -(count : Int) ≤ slot ∧ slot < 0 :=
  ⟨(-1 - next).toNat, fun slot => by omega⟩

/-! ## At rest -/

/-- When no node is dirty, the slot of an access that is recalled at a node is stored before it. -/
private theorem RunM.Resting.entering_of_recalled {context : Context} {state : RunState}
    (resting : Resting context ∅ state) (regular : context.body.Regular)
    (versioned : context.config.has .fieldVersions = true)
    (everywhere : ∀ name, name < context.graph.size →
      ∃ facts, state.tables.inFacts[name]? = some facts)
    {expression : ExprId} {slot : Slot} (given : state.fieldSlot? expression = some slot)
    (negative : slot < 0) {node : NodeId}
    (recalled : context.body.Recalled context.config expression node) :
    1 ∈ state.tables.entering node slot := by
  -- Both steps of a trail end with an edge that brings the slot to its target.
  have arrives {source target : NodeId} {visits : List Visit} {outcome : Bool}
      (walk : (context.body.course source).Walk visits outcome)
      (edge : target ∈ context.graph.successors source)
      (continues : outcome = context.graph.edgeOutcome source target)
      (holds : context.config.HoldsAt context.graph source)
      (known : state.Known slot (1 ∈ state.tables.entering source slot) visits) :
      1 ∈ state.tables.entering target slot := by
    have back := (regular.built.linked source target).1 edge
    rcases everywhere source (FlowGraph.lt_size_of_successor edge) with ⟨facts, stored⟩
    rcases everywhere target (FlowGraph.lt_size_of_entered back) with ⟨entering, found⟩
    have opened := Body.open_course (resting.unstuck source facts stored)
    rw [Tables.entering_of_stored stored] at known
    rw [Tables.entering_of_stored found]
    refine (resting.arrives target entering found ExtTreeSet.not_mem_empty slot 1).2
      (.inl ⟨source, back, ?_⟩)
    exact (resting.balanced.brings_field_iff regular versioned opened stored edge negative).2
      ⟨holds, visits, continues ▸ walk, known⟩
  rcases recalled with ⟨between, left, trail, spares⟩
  induction trail with
  | leave walk edge continues =>
      exact arrives walk edge continues (spares.holds _ List.mem_cons_self)
        (.inr ⟨expression, given, _, _, rfl, spares.unclobbered⟩)
  | onward before walk edge continues induction =>
      have clear := unclobbered_append.1 spares.unclobbered
      have holds := List.forall_mem_append.1 spares.holds
      exact arrives walk edge continues (holds.2 _ List.mem_cons_self)
        (.inl ⟨induction ⟨clear.1, holds.1⟩, clear.2⟩)

/-! ## Whole runs -/

namespace RunResult

/-- The slot that the run gave to a field access. -/
def fieldSlot? (result : RunResult) (expression : ExprId) : Option Slot :=
  result.versioner.tables.fields.bind fun fields => fields[expression]?

/-- The slots of fields, and the facts that know them. -/
structure FieldsExact (result : RunResult) (body : Body) : Prop where
  recorded : result.versioner.tables.fields.isSome
  /-- Just the visited field accesses have slots, each one its own. -/
  visited : ∀ expression, (result.fieldSlot? expression).isSome ↔ body.Places (.field expression)
  apart : ∀ first second slot, result.fieldSlot? first = some slot →
    result.fieldSlot? second = some slot → first = second
  /-- The slots are the numbers from minus one downwards. -/
  given : ∃ count : Nat, ∀ slot : Slot,
    (∃ expression, result.fieldSlot? expression = some slot) ↔ -(count : Int) ≤ slot ∧ slot < 0
  /-- Stored facts know fields under their slots, in version one. -/
  stored : ∀ facts, result.Stores facts → ∀ slot ∈ facts.slots, slot < 0 →
    (∃ expression, result.fieldSlot? expression = some slot) ∧
      facts.reaching slot = {1}
  /-- What is stored before a node knows the field accesses that are recalled there. -/
  entering : ∀ expression slot, result.fieldSlot? expression = some slot → ∀ node,
    slot ∈ ((result.versioner.tables.inFacts[node]?).getD ∅).slots ↔
      body.Recalled result.versioner.config expression node

end RunResult

/-- A loop that accesses a field, and another one after a call. -/
def Body.probing : Body where
  arena.exprs := #[.field none "first", .call none "probe" [], .field none "second"]
  graph.nodes := #[
    { kind := .direct, statement := 0, expressions := [0], predecessors := [1], successors := [1] },
    { kind := .direct, statement := 0, expressions := [1, 2], predecessors := [0]
      successors := [0] }]
  graph.entry := some 0
  signature.isStatic := true

private theorem Body.built_probing : probing.graph.Built := by
  have nodes : FlowGraph.Built _ := (FlowGraph.Built.empty.addNode .direct 0).addNode .direct 0
  have first := @FlowGraph.Built.appendExpression _ _ nodes 0 0 rfl
  have called := @FlowGraph.Built.appendExpression _ _ first 1 1 rfl
  have second := @FlowGraph.Built.appendExpression _ _ called 1 2 rfl
  have onward := @FlowGraph.Built.connect _ _ second 0 1 rfl
  exact @FlowGraph.Built.connect _ _ onward 1 0 rfl

private theorem Body.regular_probing : probing.Regular where
  built := built_probing
  usedOnce := by decide
  ordinary := ordinary_of_all rfl
  noShortPaths := fun _ => ExtTreeMap.getElem?_empty
  noExtraNodes := fun _ => ExtTreeSet.contains_empty

theorem Facts.mem_slots_iff {facts : Facts} {slot : Slot} :
    slot ∈ facts.slots ↔ ∃ version, version ∈ facts.reaching slot := by
  rw [mem_slots]
  constructor
  · intro known
    by_contra none
    refine known (VersionSet.ext fun version => ?_)
    exact iff_of_false (fun member => none ⟨version, member⟩) (VersionSet.not_mem_empty version)
  · rintro ⟨version, member⟩ empty
    rw [empty] at member
    exact VersionSet.not_mem_empty version member

private theorem RunState.FieldFacts.only {state : RunState} {facts : Facts}
    (fieldFacts : state.FieldFacts facts) {slot : Slot} (negative : slot < 0)
    (known : slot ∈ facts.slots) :
    (∃ expression, state.fieldSlot? expression = some slot) ∧ facts.reaching slot = {1} := by
  have each := fieldFacts slot negative
  rcases Facts.mem_slots_iff.1 known with ⟨version, member⟩
  refine ⟨(each version member).2, VersionSet.ext fun other => ?_⟩
  rw [VersionSet.mem_singleton]
  constructor
  · exact fun found => (each other found).1
  · rintro rfl
    exact (each version member).1 ▸ member

namespace Versioner

section

variable {versioner : Versioner} {body : Body}
  (versioned : versioner.config.has .fieldVersions = true) (regular : body.Regular)
  (success : (versioner.run body).outcome = .ok ())

include versioned regular success

/-- A field that is stored before a node is recalled there. -/
private theorem recalled_of_entering (ordinary : ∀ slot ∈ body.arrivals, 0 ≤ slot) {node : NodeId}
    {slot : Slot} (negative : slot < 0)
    (member : 1 ∈ (versioner.run body).versioner.tables.entering node slot) :
    ∃ expression, (versioner.run body).fieldSlot? expression = some slot ∧
      body.Recalled versioner.config expression node := by
  have regularBody : (Context.mk versioner.config body).body.Regular := regular
  rcases settled_of_begun regular success (invariant_trailed regularBody versioned)
    (fun _ begins => begins.trailed versioned ordinary) with ⟨final, -, trailed, result⟩
  rw [result] at member ⊢
  rcases Tables.mem_entering.1 member with ⟨facts, stored, reaches⟩
  exact trailed.recalls node facts stored slot negative reaches

/-- A field access that is recalled at a node is stored before it. -/
private theorem entering_of_recalled (valid : versioner.config.validate = .ok ())
    {expression : ExprId} {node : NodeId} {slot : Slot}
    (given : (versioner.run body).fieldSlot? expression = some slot) (negative : slot < 0)
    (recalled : body.Recalled versioner.config expression node) :
    1 ∈ (versioner.run body).versioner.tables.entering node slot := by
  have regularBody : (Context.mk versioner.config body).body.Regular := regular
  rcases run_ok success with ⟨-, validBody, -, -⟩
  have nodes : 0 < body.graph.size := by
    rcases recalled with ⟨between, left, trail, -⟩
    cases trail with
    | leave walk edge => exact Nat.zero_lt_of_lt (FlowGraph.lt_size_of_successor edge)
    | onward before walk edge => exact Nat.zero_lt_of_lt (FlowGraph.lt_size_of_successor edge)
  rcases FlowGraph.entry_lt_size validBody nodes with ⟨entry, isEntry, -⟩
  rcases resting_of_run valid regular success isEntry with ⟨final, resting, everywhere, result⟩
  rw [result] at given ⊢
  exact resting.entering_of_recalled regularBody versioned everywhere given negative recalled

end

/-- After a successful run of a regular body into which only variables enter, just the visited field
accesses have slots, stored facts know fields under these slots in version one, and a slot is stored
before a node exactly if its access is recalled there. -/
theorem fieldsExact_of_run {versioner : Versioner} {body : Body}
    (valid : versioner.config.validate = .ok ())
    (versioned : versioner.config.has .fieldVersions = true) (regular : body.Regular)
    (ordinary : ∀ slot ∈ body.arrivals, 0 ≤ slot)
    (success : (versioner.run body).outcome = .ok ()) :
    (versioner.run body).FieldsExact body := by
  have upholds := @upholds_fieldSlots versioner.config body versioned regular.ordinary
  rcases upheld_of_run upholds (fun _ begins => begins.keptFields versioned ordinary) success with
    ⟨final, result, kept⟩
  have slots := kept.holds
  have sameSlots : (versioner.run body).fieldSlot? = final.fieldSlot? := by
    rw [result]
    rfl
  have configured : (versioner.run body).versioner.config = versioner.config := by
    rw [result]
    rfl
  have stored (facts : Facts) (stores : (versioner.run body).Stores facts) :
      final.FieldFacts facts := by
    rw [result] at stores
    exact good_of_stores kept.storing slots.live stores
  have negative {expression : ExprId} {slot : Slot}
      (given : (versioner.run body).fieldSlot? expression = some slot) : slot < 0 := by
    rw [sameSlots] at given
    exact ((slots.given slot).1 ⟨expression, given⟩).2
  refine ⟨?_, fun expression => ⟨fun known => ?_, ?_⟩, ?_, ?_, ?_, ?_⟩
  · rw [result]
    exact slots.recorded
  · rcases Option.isSome_iff_exists.1 known with ⟨slot, given⟩
    rw [sameSlots] at given
    exact slots.placed expression slot given
  · rintro ⟨name, member⟩
    rw [sameSlots]
    exact kept.visited name (Body.lt_size_of_visits member) _ member expression rfl
  · rw [sameSlots]
    exact slots.apart
  · rw [sameSlots]
    rcases exists_count slots.next with ⟨count, counts⟩
    exact ⟨count, fun slot => (slots.given slot).trans (counts slot)⟩
  · rw [sameSlots]
    exact fun facts stores slot known below => (stored facts stores).only below known
  · intro expression slot given node
    rw [configured, Facts.mem_slots_iff]
    constructor
    · rintro ⟨version, member⟩
      -- What is stored is stored in version one, and recalled under its own slot.
      rcases Tables.mem_entering.1 member with ⟨facts, found, reaches⟩
      obtain rfl : version = 1 :=
        (stored facts (.inl ⟨node, .inl found⟩) slot (negative given) version reaches).1
      rcases recalled_of_entering versioned regular success ordinary (negative given) member with
        ⟨other, otherGiven, recalled⟩
      rw [sameSlots] at given otherGiven
      exact slots.apart other expression slot otherGiven given ▸ recalled
    · intro recalled
      exact ⟨1, entering_of_recalled versioned regular success valid given (negative given)
        recalled⟩

private theorem success_probing : (Config.usage.versioner.run .probing).outcome = .ok () := by
  decide +kernel

/-- In the loop of `probing` the call separates the two fields. -/
theorem fieldsExact_probing :
    (∀ slot ∈ Body.probing.arrivals, 0 ≤ slot) ∧
      (Config.usage.versioner.run .probing).FieldsExact .probing :=
  ⟨by decide, fieldsExact_of_run (by decide)
    (show Config.usage.versioner.config.has _ = true from rfl) Body.regular_probing
    (by decide) success_probing⟩

end Versioner

end SlotVersioning
