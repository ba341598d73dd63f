import SlotVersioning.Proofs.Flow.References
import SlotVersioning.Proofs.Ownership.Seeds
import SlotVersioning.Proofs.Statement.Trees

/-!
# Landings

Before the first round the parameters land at the entry, and after them the variable of each handler
lands where the handler starts. A slot lands with its next version. What lands at a node replaces
what landed there before, so that the seeds of a node are those of the last landing there
(`RunM.landed_of_seeding`).
-/

namespace SlotVersioning

open Std

/-- What enters a body from outside. -/
inductive Guest
  | parameters
  /-- The handler at this position among those of the statement. -/
  | handler (statement : StatementId) (position : Nat)
deriving DecidableEq, Repr

structure Landing where
  guest : Guest
  node : NodeId
  slots : List Slot
deriving DecidableEq, Repr

namespace Body

/-- The handler at a position of a statement, with its slot and the node where it starts. -/
structure Handles (body : Body) (statement : StatementId) (position : Nat) (slot : Slot)
    (node : NodeId) : Prop where
  slot : ∃ slots, ((body.statements.get? statement).bind fun stored => stored.kind.handlerSlots?) =
    some slots ∧ slots[position]? = some slot
  start : ∃ child, (body.statements.children statement)[position + 1]? = some child ∧
    body.graph.statementStart? child = some node

def handlerLanding (body : Body) (statement : StatementId) (slots : List Slot)
    (handler : StatementId × Nat) : List Landing :=
  match slots[handler.2]?, body.graph.statementStart? handler.1 with
  | some slot, some node => [⟨.handler statement handler.2, node, [slot]⟩]
  | _, _ => []

def handlerLandings (body : Body) (statement : StatementId) : List Landing :=
  match (body.statements.get? statement).bind fun stored => stored.kind.handlerSlots? with
  | none => []
  | some slots =>
      ((body.statements.children statement).drop 1).zipIdx.flatMap
        (body.handlerLanding statement slots)

/-- All landings in order. Nothing lands in a graph without an entry. -/
def landings (body : Body) : List Landing :=
  match body.graph.entry with
  | none => []
  | some entry =>
      ⟨.parameters, entry, body.signature.arrivalSlots⟩ ::
        body.statements.preorder.flatMap body.handlerLandings

theorem landings_of_entry {body : Body} {entry : NodeId} (isEntry : body.graph.entry = some entry) :
    body.landings = ⟨.parameters, entry, body.signature.arrivalSlots⟩ ::
      body.statements.preorder.flatMap body.handlerLandings := by
  unfold landings
  rw [isEntry]

end Body

/-- The version with which a slot lands: one more than it landed before. -/
def landedVersion (landings : List Landing) (index : Nat) (slot : Slot) : Version :=
  ((landings.take index).flatMap Landing.slots).count slot + 1

/-- Nothing lands later at the node of the landing. -/
def LandsLast (landings : List Landing) (index : Nat) (landing : Landing) : Prop :=
  ∀ later other, index < later → landings[later]? = some other → other.node ≠ landing.node

/-- The version is the one with which the slot landed last at the node. -/
def SeededLast (landings : List Landing) (node : NodeId) (slot : Slot) (version : Version) : Prop :=
  ∃ index landing, landings[index]? = some landing ∧ LandsLast landings index landing ∧
    landing.node = node ∧ slot ∈ landing.slots ∧ version = landedVersion landings index slot

/-- Just these landings happened so far. -/
structure Landed (landings : List Landing) (state : RunState) : Prop where
  last : ∀ slot, state.last slot = (landings.flatMap Landing.slots).count slot
  seeded : ∀ node slot version,
    version ∈ state.tables.seeded node slot ↔ SeededLast landings node slot version

/-! ## Versions of landings -/

section

variable {landings : List Landing} {landing : Landing} {node : NodeId} {slot : Slot}
  {version : Version}

/-- Slots that land twice land with different versions. -/
theorem landedVersion_injective {first second : Nat} {left right : Landing}
    (leftLands : landings[first]? = some left) (rightLands : landings[second]? = some right)
    (inLeft : slot ∈ left.slots) (inRight : slot ∈ right.slots)
    (same : landedVersion landings first slot = landedVersion landings second slot) :
    first = second := by
  have apart {early late : Nat} {landing : Landing} (lands : landings[early]? = some landing)
      (inside : slot ∈ landing.slots) (before : early < late) :
      landedVersion landings early slot < landedVersion landings late slot := by
    rcases List.take_prefix_take_left (l := landings) (Nat.succ_le_of_lt before) with ⟨rest, split⟩
    have counted : 0 < landing.slots.count slot := List.count_pos_iff.2 inside
    unfold landedVersion
    rw [← split, List.take_add_one, lands, List.flatMap_append, List.flatMap_append,
      List.count_append, List.count_append, Option.toList_some, List.flatMap_singleton]
    change (_ : Nat) < _
    omega
  rcases Nat.lt_trichotomy first second with less | equal | greater
  · exact absurd same (Nat.ne_of_lt (apart leftLands inLeft less))
  · exact equal
  · exact absurd same (Nat.ne_of_gt (apart rightLands inRight greater))

theorem landedVersion_le {index : Nat} (lands : landings[index]? = some landing)
    (inside : slot ∈ landing.slots) :
    landedVersion landings index slot ≤ (landings.flatMap Landing.slots).count slot := by
  have counted : 0 < landing.slots.count slot := List.count_pos_iff.2 inside
  unfold landedVersion
  conv_rhs => rw [← List.take_append_drop (index + 1) landings]
  rw [List.take_add_one, lands, List.flatMap_append, List.flatMap_append, List.count_append,
    List.count_append, Option.toList_some, List.flatMap_singleton]
  change (_ : Nat) ≤ _
  omega

theorem landedVersion_append {index : Nat} (inside : index ≤ landings.length)
    (more : List Landing) :
    landedVersion (landings ++ more) index slot = landedVersion landings index slot := by
  unfold landedVersion
  rw [List.take_append_of_le_length inside]

theorem getElem?_concat {index : Nat} {other : Landing} :
    (landings ++ [landing])[index]? = some other ↔
      landings[index]? = some other ∨ index = landings.length ∧ other = landing := by
  rcases Nat.lt_trichotomy index landings.length with inside | last | outside
  · rw [List.getElem?_append_left inside]
    exact ⟨.inl, fun found => found.resolve_right fun last => absurd last.1 (Nat.ne_of_lt inside)⟩
  · rw [last, List.getElem?_concat_length, List.getElem?_eq_none (Nat.le_refl _)]
    simp [eq_comm]
  · rw [List.getElem?_eq_none (by simp; omega), List.getElem?_eq_none (Nat.le_of_lt outside)]
    simp [Nat.ne_of_gt outside]

/-- At the node of the last landing just its slots are seeded. -/
private theorem seededLast_concat_self :
    SeededLast (landings ++ [landing]) landing.node slot version ↔
      slot ∈ landing.slots ∧ version = (landings.flatMap Landing.slots).count slot + 1 := by
  have newest : landedVersion (landings ++ [landing]) landings.length slot =
      (landings.flatMap Landing.slots).count slot + 1 := by
    rw [landedVersion_append (Nat.le_refl _), landedVersion, List.take_length]
  constructor
  · rintro ⟨index, other, lands, landsLast, here, inside, rfl⟩
    rcases getElem?_concat.1 lands with earlier | ⟨rfl, rfl⟩
    · have before := (List.getElem?_eq_some_iff.1 earlier).1
      exact absurd here.symm
        (landsLast _ landing before (getElem?_concat.2 (.inr ⟨rfl, rfl⟩)))
    · exact ⟨inside, newest⟩
  · rintro ⟨inside, rfl⟩
    refine ⟨landings.length, landing, getElem?_concat.2 (.inr ⟨rfl, rfl⟩),
      fun later other after lands => ?_, rfl, inside, newest.symm⟩
    rcases getElem?_concat.1 lands with earlier | ⟨rfl, -⟩
    · have before := (List.getElem?_eq_some_iff.1 earlier).1
      omega
    · exact absurd after (Nat.lt_irrefl _)

/-- At other nodes nothing changes. -/
private theorem seededLast_concat_other (different : node ≠ landing.node) :
    SeededLast (landings ++ [landing]) node slot version ↔
      SeededLast landings node slot version := by
  have last {index : Nat} {other : Landing} (here : other.node = node) :
      LandsLast (landings ++ [landing]) index other ↔ LandsLast landings index other := by
    constructor
    · exact fun landsLast later next after lands =>
        landsLast later next after (getElem?_concat.2 (.inl lands))
    · intro landsLast later next after lands
      rcases getElem?_concat.1 lands with earlier | ⟨-, rfl⟩
      · exact landsLast later next after earlier
      · rw [here]
        exact Ne.symm different
  constructor
  · rintro ⟨index, other, lands, landsLast, here, inside, rfl⟩
    rcases getElem?_concat.1 lands with earlier | ⟨-, rfl⟩
    · have before := (List.getElem?_eq_some_iff.1 earlier).1
      exact ⟨index, other, earlier, (last here).1 landsLast, here, inside,
        landedVersion_append (Nat.le_of_lt before) _⟩
    · exact absurd here.symm different
  · rintro ⟨index, other, lands, landsLast, here, inside, rfl⟩
    have before := (List.getElem?_eq_some_iff.1 lands).1
    exact ⟨index, other, getElem?_concat.2 (.inl lands), (last here).2 landsLast, here, inside,
      (landedVersion_append (Nat.le_of_lt before) _).symm⟩

end

/-! ## Seeding -/

/-- The seeds of a landing replace those at its node. -/
theorem Landed.concat {landings : List Landing} {landing : Landing} {facts : Facts}
    {before after : RunState} (landed : Landed landings before)
    (seeds : after.tables.seeds = before.tables.seeds.insert landing.node facts)
    (last : ∀ slot, after.last slot = before.last slot + landing.slots.count slot)
    (lands : ∀ slot, facts.reaching slot =
      if slot ∈ landing.slots then {before.last slot + 1} else ∅) :
    Landed (landings ++ [landing]) after where
  last := fun slot => by
    rw [last, landed.last, List.flatMap_append, List.count_append, List.flatMap_singleton]
  seeded := by
    intro node slot version
    unfold Tables.seeded
    rw [seeds, ExtTreeMap.getElem?_insert]
    by_cases here : node = landing.node
    · subst here
      rw [if_pos (Std.compare_eq_iff_eq.2 rfl), Option.getD_some, lands, seededLast_concat_self,
        landed.last]
      split
      · next inside => simp [inside]
      · next outside => simp [outside]
    · rw [if_neg fun same => here (Std.compare_eq_iff_eq.1 same).symm, seededLast_concat_other here]
      exact landed.seeded node slot version

theorem landed_start (config : Config) (body : Body) : Landed [] (Versioner.start config body) where
  last := fun slot => ExtTreeMap.getD_empty
  seeded := by
    intro node slot version
    have nothing : (Versioner.start config body).tables.seeds[node]? = none :=
      ExtTreeMap.getElem?_empty
    unfold Tables.seeded
    rw [nothing, Option.getD_none, Facts.reaching_empty]
    constructor
    · exact fun member => absurd member (VersionSet.not_mem_empty version)
    · rintro ⟨index, landing, lands, -⟩
      exact nomatch lands

theorem Signature.layout_above {start : Nat} {widths : List SlotWidth} {slot : Slot}
    (member : slot ∈ layout start widths) : (start : Int) ≤ slot := by
  induction widths generalizing start with
  | nil => exact nomatch member
  | cons width rest induction =>
      rcases List.mem_cons.1 member with rfl | later
      · exact Int.le_refl _
      · have above := induction later
        omega

private theorem Signature.nodup_layout (start : Nat) (widths : List SlotWidth) :
    (layout start widths).Nodup := by
  induction widths generalizing start with
  | nil => exact List.nodup_nil
  | cons width rest induction =>
      refine List.nodup_cons.2 ⟨fun member => ?_, induction _⟩
      have above := layout_above member
      have wide : 0 < width.slots := by cases width <;> decide
      omega

/-- Values arrive in different slots. -/
private theorem Signature.nodup_arrivalSlots (signature : Signature) :
    signature.arrivalSlots.Nodup := by
  unfold arrivalSlots
  split <;> exact nodup_layout _ _

theorem Signature.nonneg_arrivalSlots (signature : Signature) :
    ∀ slot ∈ signature.arrivalSlots, 0 ≤ slot := by
  intro slot member
  unfold arrivalSlots at member
  split at member <;> exact layout_above member

namespace RunM

variable {context : Context} {landings : List Landing} {state final : RunState}

theorem seedVersion_lands {statement : StatementId} {facts result : Facts} {slot : Slot}
    (run : seedVersion context statement facts slot state = .ok result final) :
    result = facts.pin slot (state.last slot + 1) ∧
      (∀ other, final.last other = state.last other + if slot = other then 1 else 0) ∧
      final.tables.seeds = state.tables.seeds := by
  cases run
  refine ⟨rfl, fun other => ?_, rfl⟩
  refine (state.last_mint context.body.statements slot other (some statement)).trans ?_
  split
  · next same => rw [same]
  · rfl

/-- Different slots land each with its next version. -/
private theorem seedVersions_land {statement : StatementId} {slots : List Slot} (once : slots.Nodup)
    {facts : Facts}
    (run : slots.foldlM (seedVersion context statement) ∅ state = .ok facts final) :
    final.tables.seeds = state.tables.seeds ∧
      (∀ slot, final.last slot = state.last slot + slots.count slot) ∧
      ∀ slot, facts.reaching slot = if slot ∈ slots then {state.last slot + 1} else ∅ := by
  have landed : ∀ (begun : Facts) (middle : RunState),
      slots.foldlM (seedVersion context statement) begun middle = .ok facts final →
      final.tables.seeds = middle.tables.seeds ∧
        (∀ slot, final.last slot = middle.last slot + slots.count slot) ∧
        ∀ slot, facts.reaching slot =
          if slot ∈ slots then {middle.last slot + 1} else begun.reaching slot := by
    clear run
    induction slots with
    | nil =>
        intro begun middle run
        rcases pure_ok run with ⟨rfl, rfl⟩
        exact ⟨rfl, fun _ => rfl, fun _ => rfl⟩
    | cons head tail induction =>
        intro begun middle run
        rcases bind_ok run with ⟨next, later, first, run⟩
        rcases seedVersion_lands first with ⟨rfl, last, seeds⟩
        rcases induction (List.nodup_cons.1 once).2 _ _ run with ⟨tailSeeds, tailLast, lands⟩
        have absent := (List.nodup_cons.1 once).1
        refine ⟨tailSeeds.trans seeds, fun slot => ?_, fun slot => ?_⟩
        · rw [tailLast, last, List.count_cons]
          simp only [beq_iff_eq]
          omega
        · rw [lands, last, Facts.reaching_pin]
          by_cases isHead : head = slot
          · subst isHead
            simp [absent]
          · simp [isHead, Ne.symm isHead]
  have all := landed ∅ state run
  refine ⟨all.1, all.2.1, fun slot => ?_⟩
  rw [all.2.2, Facts.reaching_empty]

theorem seedHandler_landed {statement : StatementId} {slots : List Slot}
    {handler : StatementId × Nat} (landed : Landed landings state)
    (run : seedHandler context statement slots handler state = .ok () final) :
    Landed (landings ++ context.body.handlerLanding statement slots handler) final := by
  rcases seedHandler_ok run with ⟨slot, node, facts, middle, listed, start, minted, stores⟩
  have startBody : context.body.graph.statementStart? handler.1 = some node := start
  rcases seedVersion_lands minted with ⟨rfl, last, seeds⟩
  unfold Body.handlerLanding
  simp only [listed, startBody]
  cases stores
  refine landed.concat (congrArg (ExtTreeMap.insert · node _) seeds) (fun other => ?_) fun other => ?_
  · refine (last other).trans ?_
    rw [List.count_singleton]
    simp
  · rw [Facts.reaching_pin, Facts.reaching_empty]
    simp only [List.mem_singleton]
    split
    · next same => rw [same]
    · rfl

private theorem seedHandlers_landed {statement : StatementId} (landed : Landed landings state)
    (run : seedHandlers context statement state = .ok () final) :
    Landed (landings ++ context.body.handlerLandings statement) final := by
  unfold Body.handlerLandings
  rcases seedHandlers_ok run with ⟨handles, rfl⟩ | ⟨slots, handles, run⟩
  · simp only [handles]
    rw [List.append_nil]
    exact landed
  · simp only [handles]
    exact forM_appends run (fun _ _ _ _ landed run => seedHandler_landed landed run) landed

/-- The parameters land first. -/
theorem seedParameters_landed {config : Config} {body : Body} {entry : NodeId}
    (run : seedParameters { config, body } entry (Versioner.start config body) = .ok () final) :
    Landed [⟨.parameters, entry, body.signature.arrivalSlots⟩] final := by
  rcases bind_ok run with ⟨facts, minted, mints, stores⟩
  rcases seedVersions_land body.signature.nodup_arrivalSlots mints with ⟨same, last, lands⟩
  cases stores
  exact (landed_start config body).concat (congrArg (ExtTreeMap.insert · entry _) same) last lands

/-- After the seeding of a run all landings happened. -/
theorem landed_of_seeding {config : Config} {body : Body} {entry : NodeId} {seeded : RunState}
    (isEntry : body.graph.entry = some entry)
    (seeds : seeding { config, body } entry (Versioner.start config body) = .ok () seeded) :
    Landed body.landings seeded := by
  rcases bind_ok seeds with ⟨_, middle, parameters, handlers⟩
  have first := seedParameters_landed parameters
  have all := forM_appends handlers (fun _ _ _ _ landed run => seedHandlers_landed landed run) first
  rw [Body.landings_of_entry isEntry]
  exact all

/-! ## Handlers land -/

end RunM

namespace Body

variable {body : Body} {statement : StatementId} {landing : Landing}

/-- What lands for a statement are its handlers. -/
theorem handles_of_landing (member : landing ∈ body.handlerLandings statement) :
    ∃ position slot node, body.Handles statement position slot node ∧
      landing = ⟨.handler statement position, node, [slot]⟩ := by
  unfold handlerLandings at member
  split at member
  · exact nomatch member
  · next slots handles =>
      rcases List.mem_flatMap.1 member with ⟨⟨child, position⟩, isHandler, lands⟩
      rw [List.mem_zipIdx_iff_getElem?, List.getElem?_drop, Nat.add_comm] at isHandler
      unfold handlerLanding at lands
      split at lands
      · next slot node listed start =>
          exact ⟨position, slot, node, ⟨⟨slots, handles, listed⟩, child, isHandler, start⟩,
            List.mem_singleton.1 lands⟩
      · exact nomatch lands

theorem Handles.unique {position : Nat} {slot other : Slot} {node start : NodeId}
    (left : body.Handles statement position slot node)
    (right : body.Handles statement position other start) : slot = other ∧ node = start := by
  rcases left.slot with ⟨slots, handles, listed⟩
  rcases right.slot with ⟨others, handlesToo, listedToo⟩
  rcases left.start with ⟨child, isHandler, starts⟩
  rcases right.start with ⟨otherChild, isHandlerToo, startsToo⟩
  rw [handles] at handlesToo
  cases handlesToo
  rw [isHandler] at isHandlerToo
  cases isHandlerToo
  exact ⟨Option.some.inj (listed.symm.trans listedToo), Option.some.inj (starts.symm.trans startsToo)⟩

/-- Landings are at nodes of a valid graph. -/
theorem landing_lt_size (valid : body.validate = .ok ()) (nodes : 0 < body.graph.size)
    (member : landing ∈ body.landings) : landing.node < body.graph.size := by
  rcases FlowGraph.entry_lt_size valid nodes with ⟨entry, isEntry, inside⟩
  rw [landings_of_entry isEntry] at member
  rcases List.mem_cons.1 member with rfl | handled
  · exact inside
  · rcases List.mem_flatMap.1 handled with ⟨statement, -, lands⟩
    rcases handles_of_landing lands with ⟨position, slot, node, handles, rfl⟩
    rcases handles.start with ⟨child, -, start⟩
    exact FlowGraph.start_lt_size valid nodes start

end Body

namespace RunM

variable {state final : RunState}

/-- After the seeding every handler has a slot and a start, and landed there. -/
theorem handler_lands {config : Config} {body : Body} (grown : body.statements.Grown)
    {entry : NodeId} {seeded : RunState} (isEntry : body.graph.entry = some entry)
    (seeds : seeding { config, body } entry (Versioner.start config body) = .ok () seeded)
    {statement child : StatementId} {position : Nat} {slots : List Slot}
    (handles : ((body.statements.get? statement).bind fun stored => stored.kind.handlerSlots?) =
      some slots)
    (isHandler : (body.statements.children statement)[position + 1]? = some child) :
    ∃ slot node, body.Handles statement position slot node ∧
      ⟨.handler statement position, node, [slot]⟩ ∈ body.landings := by
  rcases bind_ok seeds with ⟨_, middle, -, handlers⟩
  have known : statement < body.statements.size := by
    rcases Option.bind_eq_some_iff.1 handles with ⟨stored, found, -⟩
    exact StatementTree.lt_size_of_get? found
  have walked := StatementTree.mem_preorder grown known
  have handlerIn : (child, position) ∈ ((body.statements.children statement).drop 1).zipIdx := by
    rw [List.mem_zipIdx_iff_getElem?, List.getElem?_drop, Nat.add_comm]
    exact isHandler
  rcases forM_each handlers walked with ⟨before, after, seedsStatement⟩
  unfold seedHandlers at seedsStatement
  simp only [handles] at seedsStatement
  rcases forM_each seedsStatement handlerIn with ⟨_, _, seedsHandler⟩
  rcases seedHandler_ok seedsHandler with ⟨slot, node, -, -, listed, start, -, -⟩
  refine ⟨slot, node, ⟨⟨slots, handles, listed⟩, child, isHandler, start⟩, ?_⟩
  rw [Body.landings_of_entry isEntry]
  refine List.mem_cons_of_mem _ (List.mem_flatMap.2 ⟨statement, walked, ?_⟩)
  unfold Body.handlerLandings
  rw [handles]
  refine List.mem_flatMap.2 ⟨(child, position), handlerIn, ?_⟩
  have startBody : body.graph.statementStart? child = some node := start
  unfold Body.handlerLanding
  rw [listed, startBody]
  exact List.mem_singleton.2 rfl

end RunM

end SlotVersioning
