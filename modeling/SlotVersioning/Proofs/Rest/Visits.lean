import SlotVersioning.Proofs.Course.Needs
import SlotVersioning.Proofs.Rest.Idle
import SlotVersioning.Proofs.Run.Transfer

/-!
# Visits at rest

A place rests when what its visit would write is there already (`Visit.Rests`): its version, what is
merged into it, its phantom, its copy and its field slot. A visit of a place at rest is idle and
transfers the facts as before (`Visit.act_idle`).
-/

namespace SlotVersioning

open Std VersionGraph

/-- All that a visit would write is there, when these versions of its variable reach it. -/
structure Visit.Rests (config : Config) (place : Visit) (reaching : VersionSet)
    (state : RunState) : Prop where
  versioned : ∀ expression ∈ place.written, state.version expression ≠ 0
  stable : ∀ target, place.site? = some target →
    Stable config state.version state.tables.merged? place.isRead target reaching
  gathers : config.has .usageVersions = true → place.isRead = true →
    ∀ target, place.site? = some target → 2 ≤ reaching.cardinality →
      state.Gathers ⟨target.slot, state.version target.expression⟩ reaching
  phantom : ∀ target, place = .increment target → state.tables.phantoms.isSome →
    (state.tables.phantom? ⟨target.slot, state.version target.expression⟩).isSome
  copied : ∀ target value, place = .assign target value → state.tables.copies.isSome →
    ∀ source, value.copied? state = some source →
      state.tables.copy? ⟨target.slot, state.version target.expression⟩ = some source
  named : ∀ expression, .field expression ∈ place :: place.needs →
    config.has .fieldVersions = true → (state.fieldSlot? expression).isSome

/-- What keeps a place at rest while other places are visited. -/
structure Visit.Undisturbed (config : Config) (place : Visit) (before after : RunState) : Prop where
  version : ∀ expression ∈ place.touched, after.version expression = before.version expression
  grows : Grows before after
  books : KeepsBooks before after
  fields : KeepsFields before after
  gathers : config.has .usageVersions = true → ∀ target, place.site? = some target → ∀ reaching,
    before.Gathers ⟨target.slot, before.version target.expression⟩ reaching →
      after.Gathers ⟨target.slot, before.version target.expression⟩ reaching
  copied : ∀ target value, place = .assign target value →
    after.tables.copy? ⟨target.slot, before.version target.expression⟩ =
      before.tables.copy? ⟨target.slot, before.version target.expression⟩

/-- A place stays at rest while it is undisturbed. -/
theorem Visit.Rests.undisturbed {config : Config} {place : Visit} {reaching : VersionSet}
    {before after : RunState} (rests : place.Rests config reaching before)
    (undisturbed : place.Undisturbed config before after)
    (opened : before.tables.fields.isSome → config.has .fieldVersions = true) :
    place.Rests config reaching after := by
  have written (target : VariableSite) (visits : place.site? = some target) :
      after.version target.expression = before.version target.expression :=
    undisturbed.version _ (List.mem_append_left _ (mem_written_of_site visits))
  refine ⟨fun expression member => ?_, fun target visits => ?_, fun usage reads target visits => ?_,
    ?_, ?_, fun expression member versioned => ?_⟩
  · rw [undisturbed.version expression (List.mem_append_left _ member)]
    exact rests.versioned expression member
  · exact (rests.stable target visits).of_grows (written target visits) undisturbed.grows
  · intro several
    rw [written target visits]
    exact undisturbed.gathers usage target visits _ (rests.gathers usage reads target visits several)
  · rintro target rfl on
    rw [undisturbed.books.phantoms] at on
    rcases Option.isSome_iff_exists.1 (rests.phantom target rfl on) with ⟨phantom, known⟩
    rw [written target rfl, undisturbed.books.phantom _ phantom known]
    rfl
  · rintro target value rfl on source found
    rw [undisturbed.books.copies] at on
    rw [written target rfl, undisturbed.copied target value rfl]
    refine rests.copied target value rfl on source ?_
    cases value with
    | «variable» other =>
        have same : after.version other.expression = before.version other.expression := by
          apply undisturbed.version
          simp [touched, needs, Visit.written, site?]
        rw [Term.copied?, same] at found
        exact found
    | field expression receiver =>
        -- The field that was copied had a slot, and it still has this slot.
        rcases Option.map_eq_some_iff.1 found with ⟨slot, given, rfl⟩
        have recorded : before.tables.fields.isSome := by
          rw [← undisturbed.books.fields]
          rcases Option.bind_eq_some_iff.1 given with ⟨fields, stored, -⟩
          rw [stored]
          rfl
        have named := rests.named expression (by simp [needs]) (opened recorded)
        rcases Option.isSome_iff_exists.1 named with ⟨earlier, known⟩
        rw [undisturbed.fields.fieldSlot expression earlier known] at given
        cases given
        rw [Term.copied?, known]
        rfl
    | _ => simp [Term.copied?] at found
  · rcases Option.isSome_iff_exists.1 (rests.named expression member versioned) with ⟨slot, given⟩
    rw [undisturbed.fields.fieldSlot expression slot given]
    rfl

/-- With usage versions the version graph is shaped. -/
def RunState.ShapedFor (config : Config) (state : RunState) : Prop :=
  config.has .usageVersions = true → ∃ reads, state.Shaped reads

theorem Idle.shapedFor {live : Bool} {config : Config} {before after : RunState}
    (idle : Idle live before after) (shaped : before.ShapedFor config) :
    after.ShapedFor config := fun usage =>
  (shaped usage).imp fun _ shapedThen => idle.shaped shapedThen

private theorem Idle.gathers {live : Bool} {before after : RunState} (idle : Idle live before after)
    {key : VersionKey} {reaching : VersionSet} (gathers : before.Gathers key reaching) :
    after.Gathers key reaching := by
  rcases gathers with ⟨graph, position, stored, gathers⟩
  rcases idle.graph stored with ⟨next, nextStored, similar⟩
  refine ⟨next, position, nextStored, ?_⟩
  rw [show after.phantom? key = before.phantom? key from
    idle.same (fun tables => (tables.phantom? key).map VersionKey.version) fun _ => rfl]
  exact gathers.of_similar similar

/-- A place is undisturbed while the versions, the books and the links of the graph are the same. -/
theorem Visit.Undisturbed.of_books {before after : RunState}
    (versions : after.versions = before.versions) (phi : after.tables.phi = before.tables.phi)
    (books : after.Books before.tables)
    (graphs : ∀ graph, before.tables.graph = some graph →
      ∃ next, after.tables.graph = some next ∧ Similar graph next)
    (config : Config) (place : Visit) : place.Undisturbed config before after where
  version := fun expression _ => by
    unfold RunState.version
    rw [versions]
  grows := .of_phi phi
  books := .of_books books
  fields := .of_fields books.fields
  gathers := by
    rintro _ target _ reaching ⟨graph, position, stored, gathers⟩
    rcases graphs graph stored with ⟨next, nextStored, similar⟩
    refine ⟨next, position, nextStored, ?_⟩
    unfold RunState.phantom? Tables.phantom?
    rw [books.phantoms]
    exact gathers.of_similar similar
  copied := fun target value _ => by
    unfold Tables.copy?
    rw [books.copies]

/-- What is idle disturbs nothing. -/
theorem Idle.undisturbed {live : Bool} {before after : RunState} (idle : Idle live before after)
    (config : Config) (place : Visit) : place.Undisturbed config before after :=
  .of_books idle.versions (idle.same Tables.phi fun _ => rfl) idle.books
    (fun _ stored => idle.graph stored) config place

namespace RunM

variable {site : Site} {target : VariableSite} {facts : Facts} {state : RunState}

/-! ## Definitions and reads -/

/-- The action changes nothing, and its site's version is the only one of its slot afterwards. -/
def PinsIdly (site : Site) (target : VariableSite) (facts : Facts) (state : RunState)
    (action : RunM Facts) : Prop :=
  ∃ final, action state = .ok (facts.pin target.slot (state.version target.expression)) final ∧
    Idle site.live state final

section

variable (versioned : state.version target.expression ≠ 0)

include versioned

theorem define_idle : PinsIdly site target facts state (define site target facts) := by
  rcases recordLive_idle site ⟨target.slot, state.version target.expression⟩ facts state with
    ⟨final, recorded, idle⟩
  refine ⟨final, ?_, idle⟩
  unfold define
  rw [bind_eq (versionOf_apply _ _), if_neg versioned, bind_eq recorded]
  rfl

private theorem splitRead_idle (source : Version) :
    PinsIdly site target facts state (splitRead site target source facts) := by
  rcases recordLive_idle site ⟨target.slot, state.version target.expression⟩ facts state with
    ⟨final, recorded, idle⟩
  refine ⟨final, ?_, idle⟩
  unfold splitRead
  rw [bind_eq (versionOf_apply _ _), if_neg versioned, bind_eq recorded]
  rfl

private theorem mergeRead_idle {reads : VersionKey → Prop} {reaching : VersionSet}
    (shaped : state.Shaped reads) (several : 2 ≤ reaching.cardinality)
    (gathers : state.Gathers ⟨target.slot, state.version target.expression⟩ reaching) :
    PinsIdly site target facts state (mergeRead site target reaching facts) := by
  rcases recordLive_idle site ⟨target.slot, state.version target.expression⟩ facts state with
    ⟨final, recorded, idle⟩
  refine ⟨final, ?_, idle⟩
  have merges : mergeInto site ⟨target.slot, state.version target.expression⟩ reaching final =
      .ok () final :=
    mergeInto_same (idle.shaped shaped) (idle.gathers gathers) several
  unfold mergeRead
  rw [bind_eq (versionOf_apply _ _), if_neg versioned, bind_eq recorded, pure_bind]
  exact bind_eq merges

/-- What is merged already is recorded again without a change. -/
private theorem tabulateRead_idle {reaching sources : VersionSet}
    (merged : state.tables.merged? ⟨target.slot, state.version target.expression⟩ = some sources)
    (subset : ∀ version ∈ reaching, version ∈ sources) :
    PinsIdly site target facts state (tabulateRead site target reaching facts) := by
  rcases Option.bind_eq_some_iff.1 merged with ⟨phi, stored, found⟩
  have known : phi.contains ⟨target.slot, state.version target.expression⟩ = true := by
    rw [ExtTreeMap.contains_eq_isSome_getElem?, found]
    rfl
  have union : sources ∪ reaching = sources := by
    refine VersionSet.ext fun version => ?_
    rw [VersionSet.mem_union]
    exact ⟨fun member => member.elim id (subset version), .inl⟩
  have same : phi.insert ⟨target.slot, state.version target.expression⟩
      (phi.getD ⟨target.slot, state.version target.expression⟩ ∅ ∪ reaching) = phi := by
    rw [ExtTreeMap.getD_eq_getD_getElem?, found, Option.getD_some, union]
    exact insert_stored found
  refine ⟨state, ?_, .refl _ _⟩
  unfold tabulateRead
  rw [bind_eq (tables_apply _)]
  simp only [stored]
  rw [bind_eq (versionOf_apply _ _), if_pos ⟨versioned, known⟩, bind_eq (editTables_apply _ _), same,
    ← stored]
  rfl

end

private theorem versions_stored {expression : ExprId} (versioned : state.version expression ≠ 0) :
    state.versions[expression]? = some (state.version expression) := by
  unfold RunState.version at versioned ⊢
  rw [ExtTreeMap.getD_eq_getD_getElem?] at versioned ⊢
  cases written : state.versions[expression]? with
  | none =>
      rw [written] at versioned
      exact absurd rfl versioned
  | some version => rfl

/-- A read at rest is idle. -/
private theorem read_idle (versioned : state.version target.expression ≠ 0)
    (shaped : state.ShapedFor site.config)
    (stable : Stable site.config state.version state.tables.merged? true target
      (facts.reaching target.slot))
    (gathers : site.config.has .usageVersions = true →
      2 ≤ (facts.reaching target.slot).cardinality →
      state.Gathers ⟨target.slot, state.version target.expression⟩ (facts.reaching target.slot)) :
    PinsIdly site target facts state (read site target facts) := by
  have size := VersionSet.cardinality_eq (facts.reaching target.slot)
  unfold read
  rcases members : (facts.reaching target.slot).toList with _ | ⟨only, _ | ⟨other, rest⟩⟩
  · simp only [members]
    exact define_idle versioned
  · simp only [members]
    split
    · exact splitRead_idle versioned only
    · next plain =>
        have reached := VersionSet.eq_singleton_of_toList members
        have adopted := stable.adopted (Bool.eq_false_iff.2 plain) rfl only reached
        have pinned : facts.pin target.slot (state.version target.expression) = facts := by
          refine Facts.ext fun slot => ?_
          rw [Facts.reaching_pin]
          split
          · next same => rw [same, reached, adopted]
          · rfl
        refine ⟨{ state with versions := state.versions.insert target.expression only }, ?_,
          .of_tables ?_ rfl⟩
        · rw [pinned]
          rfl
        · apply insert_stored
          rw [← adopted]
          exact versions_stored versioned
  · have several : 2 ≤ (facts.reaching target.slot).cardinality := by
      rw [size, members, List.length_cons, List.length_cons]
      omega
    simp only [members]
    split
    · next usage =>
        rcases shaped usage with ⟨reads, shaped⟩
        exact mergeRead_idle versioned shaped several (gathers usage several)
    · next plain =>
        rcases stable.joined (Bool.eq_false_iff.2 plain) rfl several with
          ⟨-, sources, merged, subset⟩
        exact tabulateRead_idle versioned merged subset

/-! ## Increments, copies and fields -/

private theorem incrementVariable_idle
    (pinned : facts.pin target.slot (state.version target.expression) = facts)
    (phantom : state.tables.phantoms.isSome →
      (state.tables.phantom? ⟨target.slot, state.version target.expression⟩).isSome) :
    ∃ final, incrementVariable site target facts state = .ok facts final ∧
      Idle site.live state final := by
  unfold incrementVariable
  rw [bind_eq (tables_apply _)]
  cases on : state.tables.phantoms with
  | none => exact ⟨state, rfl, .refl _ _⟩
  | some phantoms =>
      rw [on] at phantom
      rcases recordLive_idle site ⟨target.slot, state.version target.expression⟩ facts state with
        ⟨final, recorded, idle⟩
      refine ⟨final, ?_, idle⟩
      have ensured : ensurePhantom site ⟨target.slot, state.version target.expression⟩ state =
          .ok () state := by
        unfold ensurePhantom
        rw [bind_eq (tables_apply _), if_neg]
        · rfl
        · rw [Option.isNone_iff_eq_none]
          exact Option.ne_none_iff_isSome.2 (phantom rfl)
      rw [if_neg (by simp), bind_eq (versionOf_apply _ _), bind_eq ensured, bind_eq recorded,
        pinned]
      rfl

private theorem recordCopy_idle (live : Bool) {value : Term}
    (copied : state.tables.copies.isSome → ∀ source, value.copied? state = some source →
      state.tables.copy? ⟨target.slot, state.version target.expression⟩ = some source) :
    ∃ final, recordCopy target value state = .ok () final ∧ Idle live state final := by
  cases on : state.tables.copies.isSome with
  | false =>
      exact ⟨state, recordCopy_off (Option.not_isSome_iff_eq_none.1 (Bool.eq_false_iff.1 on)),
        .refl _ _⟩
  | true =>
      refine ⟨_, recordCopy_on on, ?_⟩
      cases found : value.copied? state with
      | none => exact .refl _ _
      | some source => exact .of_tables rfl (withCopy_same (copied on source found))

private theorem slotOfField_same {expression : ExprId} {slot : Slot}
    (given : state.fieldSlot? expression = some slot) :
    slotOfField expression state = .ok slot state := by
  unfold RunState.fieldSlot? at given
  rw [slotOfField_apply]
  unfold Tables.slotOfField
  rw [given]

end RunM

/-! ## Every visit -/

namespace Visit

open RunM

variable {site : Site} {place : Visit} {facts : Facts} {reaching : VersionSet} {state : RunState}

/-- The visit of a place at rest is idle. -/
theorem act_idle (rests : place.Rests site.config reaching state)
    (reached : ∀ target, place.site? = some target → reaching = facts.reaching target.slot)
    (shaped : state.ShapedFor site.config) :
    ∃ final, place.act site facts state = .ok (place.transfer site.config state facts) final ∧
      Idle site.live state final := by
  cases place with
  | read target =>
      obtain rfl := reached target rfl
      exact read_idle (rests.versioned _ (mem_written_of_site rfl)) shaped (rests.stable target rfl)
        fun usage => rests.gathers usage rfl target rfl
  | define target => exact define_idle (rests.versioned _ (mem_written_of_site rfl))
  | assign target value =>
      rcases define_idle (rests.versioned _ (mem_written_of_site rfl)) with ⟨middle, run, idle⟩
      have copied : middle.tables.copies.isSome → ∀ source, value.copied? middle = some source →
          middle.tables.copy? ⟨target.slot, middle.version target.expression⟩ = some source := by
        intro on source found
        rw [idle.books.copies] at on
        rw [idle.version, idle.same (fun tables => tables.copy? _) fun _ => rfl]
        apply rests.copied target value rfl on
        cases value with
        | «variable» other =>
            rw [Term.copied?, idle.version] at found
            exact found
        | field expression receiver =>
            rw [Term.copied?, idle.fieldSlot] at found
            exact found
        | _ => simp [Term.copied?] at found
      rcases recordCopy_idle site.live copied with ⟨final, copies, later⟩
      refine ⟨final, ?_, idle.trans later⟩
      change (RunM.define site target facts >>= _) state = _
      rw [bind_eq run, bind_eq copies]
      rfl
  | increment target =>
      obtain rfl := reached target rfl
      have reads : PinsIdly site target facts state (RunM.read site target facts) :=
        read_idle (rests.versioned _ (mem_written_of_site rfl)) shaped (rests.stable target rfl)
          fun usage => rests.gathers usage rfl target rfl
      rcases reads with ⟨middle, run, idle⟩
      have increments : ∃ final, incrementVariable site target
          (facts.pin target.slot (state.version target.expression)) middle =
            .ok (facts.pin target.slot (state.version target.expression)) final ∧
          Idle site.live middle final := by
        apply incrementVariable_idle
        · rw [idle.version, Facts.pin_pin]
        · intro on
          rw [idle.books.phantoms] at on
          rw [idle.version, idle.same (fun tables => tables.phantom? _) fun _ => rfl]
          exact rests.phantom target rfl on
      rcases increments with ⟨final, increments, later⟩
      refine ⟨final, ?_, idle.trans later⟩
      change (RunM.read site target facts >>= _) state = _
      rw [bind_eq run, increments]
      rfl
  | field expression =>
      simp only [act, transfer]
      by_cases versioned : site.config.has .fieldVersions = true
      · have named := rests.named expression List.mem_cons_self versioned
        rcases Option.isSome_iff_exists.1 named with ⟨slot, given⟩
        rw [if_pos versioned, if_pos versioned, bind_eq (slotOfField_same given), given]
        exact ⟨state, rfl, .refl _ _⟩
      · rw [if_neg versioned, if_neg versioned]
        exact ⟨state, rfl, .refl _ _⟩
  | clobber => exact ⟨state, rfl, .refl _ _⟩

end Visit

end SlotVersioning
