import SlotVersioning.Proofs.Rest.Idle
import SlotVersioning.Proofs.Run.Drawing

/-!
# What reads gather

With usage versions a read that several versions reach gathers them, and a phantom of its own does
not count. It goes on doing so while other sites are visited (`act_gathers`), because a visit wires
its own version only.
-/

namespace SlotVersioning

open Std VersionGraph

namespace VersionGraph

variable {graph next : VersionGraph} {key other : VersionKey} {reaching : VersionSet}
  {position : Nat}

private theorem Gathers.plain {phantom : Option Version}
    (gathers : graph.Gathers phantom key reaching position) : graph.Plain key := by
  rcases gathers.found with ⟨origin, found, noInput⟩
  exact ⟨origin, ⟨position, found⟩, noInput⟩

private theorem Gathers.of_spares {phantom : Option Version}
    (gathers : graph.Gathers phantom key reaching position) (spares : Spares key graph next) :
    next.Gathers phantom key reaching position := by
  rcases gathers.found with ⟨origin, found, noInput⟩
  have flows := spares.flows position origin found
  exact ⟨⟨origin, spares.identity position origin found, noInput⟩,
    fun version member => (flows _).2 (gathers.flows version member),
    fun source flowing => gathers.flowed source ((flows source).1 flowing)⟩

/-- What was merged into a node is gathered there. -/
private theorem Gathers.of_merged {phantom : Option Version} {origin : VersionOrigin}
    (merged : RunM.Merged key position reaching phantom graph next)
    (found : graph.identity? position = some (key, origin)) (noInput : origin ≠ .phiInput) :
    next.Gathers phantom key reaching position where
  found := ⟨origin, merged.rewires.identity position _ found, noInput⟩
  flows := merged.flows
  flowed := fun source flows => (merged.flowed source flows).2.imp_right And.left

/-- A phantom may join what is gathered. -/
private theorem Gathers.of_haunts {before phantom after : Option Version} {target : Nat}
    {origin : VersionOrigin} (gathers : graph.Gathers before key reaching position)
    (haunts : RunM.Haunts key target phantom graph next) (sound : graph.Sound)
    (found : graph.identity? target = some (key, origin))
    (kept : ∀ version, before = some version → after = some version)
    (joins : ∀ version, phantom = some version → after = some version) :
    next.Gathers after key reaching position := by
  rcases gathers.found with ⟨created, there, noInput⟩
  obtain rfl : position = target :=
    Option.some.inj ((sound.indexed _ _ _ there).symm.trans (sound.indexed _ _ _ found))
  refine ⟨⟨created, haunts.rewires.identity position _ there, noInput⟩,
    fun version member => haunts.flows _ (gathers.flows version member), fun source flows => ?_⟩
  rcases haunts.flowed source flows with ⟨-, haunting⟩ | flowing
  · exact .inr (joins _ haunting)
  · exact (gathers.flowed source flowing).imp_right (kept _)

/-- A node that was chained to another one changes nothing for the others. -/
private theorem Chained.spares {source : VersionKey} {origin : VersionOrigin} {place way : Nat}
    (chained : Chained source key origin place way graph next) (sound : graph.Sound)
    (unknown : graph.position? key = none) (different : other ≠ key) :
    Spares other graph next := by
  refine (chained.rewires key).spares sound (fun isInput => ?_) different
  rcases sound.position?_of_has isInput with ⟨position, placed⟩
  exact nomatch unknown.symm.trans placed

theorem Plain.of_spares (plain : graph.Plain key) (spares : Spares key graph next) :
    next.Plain key :=
  plain.imp fun _ holds => ⟨spares.has _ _ holds.1, holds.2⟩

end VersionGraph

namespace RunM

variable {site : Site} {target : VariableSite} {facts result : Facts} {state final : RunState}
  {graph : VersionGraph}

section

variable (charted : Charted state graph) (ordinary : 0 ≤ target.slot)
  (again : state.version target.expression ≠ 0 →
    graph.Plain ⟨target.slot, state.version target.expression⟩)

include charted ordinary again

/-- A definition spares all other versions. -/
theorem define_spares (run : define site target facts state = .ok result final) :
    ∃ next, Charted final next ∧ (∀ other, Spares other graph next) ∧
      next.Plain ⟨target.slot, final.version target.expression⟩ := by
  rcases define_charts run charted ordinary with
    ⟨next, chartedNext, ⟨unknown, added⟩ | ⟨versioned, kept, similar⟩⟩
  · refine ⟨next, chartedNext, added.spares unknown charted.sound, .definition, ⟨graph.size, ?_⟩,
      nofun⟩
    rw [added.identity, if_pos rfl]
  · rw [kept]
    exact ⟨next, chartedNext, similar.spares, (again versioned).of_spares (similar.spares _)⟩

/-- A read gathers what reaches it, and spares all other versions. -/
private theorem read_gathers (usage : site.config.has .usageVersions = true)
    (sources : ∀ version ∈ facts.reaching target.slot, graph.Plain ⟨target.slot, version⟩)
    (run : read site target facts state = .ok result final) :
    ∃ next, Charted final next ∧
      (∀ other, other ≠ ⟨target.slot, final.version target.expression⟩ → Spares other graph next) ∧
      next.Plain ⟨target.slot, final.version target.expression⟩ ∧
      (2 ≤ (facts.reaching target.slot).cardinality →
        final.Gathers ⟨target.slot, final.version target.expression⟩
          (facts.reaching target.slot)) := by
  cases read_ok run with
  | undefined unreached run =>
      rcases define_spares charted ordinary again run with ⟨next, chartedNext, spares, plain⟩
      refine ⟨next, chartedNext, fun other _ => spares other, plain, fun several => ?_⟩
      rw [unreached, VersionSet.cardinality_empty] at several
      exact absurd several (by decide)
  | adopting only plain reached => exact absurd (plain.symm.trans usage) Bool.false_ne_true
  | splitting source _ reached run =>
      have known := sources source (reached ▸ VersionSet.mem_singleton.2 rfl)
      have single : ¬ 2 ≤ (facts.reaching target.slot).cardinality := by
        rw [reached, VersionSet.cardinality_singleton]
        decide
      rcases splitRead_charts run charted ordinary (known.imp fun _ plain => plain.1) with
        ⟨next, chartedNext, ⟨unknown, place, way, chained⟩ | ⟨versioned, kept, similar⟩⟩
      · exact ⟨next, chartedNext, fun other => chained.spares charted.sound unknown,
          ⟨.use, ⟨way, chained.found⟩, nofun⟩, fun several => absurd several single⟩
      · rw [kept]
        exact ⟨next, chartedNext, fun other _ => similar.spares other,
          (again versioned).of_spares (similar.spares _), fun several => absurd several single⟩
  | merging _ several run =>
      have phantoms := ((indifferent_books state.tables).mergeRead _ _ _ _ (books_refl state)
        run).phantoms
      rcases mergeRead_charts run charted ordinary
        (fun version member => (sources version member).imp fun _ plain => plain.1) again with
        ⟨begun, next, position, origin, chartedNext, sound, spares, found, noInput, -, merged⟩
      have gathers := Gathers.of_merged merged found noInput
      refine ⟨next, chartedNext, fun other different => ?_, gathers.plain, fun _ =>
        ⟨next, position, chartedNext.stored, ?_⟩⟩
      · exact (spares other).trans
          (merged.rewires.spares sound (sound.not_phiInput found noInput) different)
      · unfold RunState.phantom? Tables.phantom?
        rw [phantoms]
        exact gathers
  | tabulating plain several run => exact absurd (plain.symm.trans usage) Bool.false_ne_true

/-- An increment lets a phantom join what its read gathers, and spares all other versions. -/
private theorem incrementVariable_gathers (versioned : state.version target.expression ≠ 0)
    (run : incrementVariable site target facts state = .ok result final) :
    ∃ next, Charted final next ∧
      (∀ other, other ≠ ⟨target.slot, state.version target.expression⟩ →
        Spares other graph next) ∧
      ∀ reaching, state.Gathers ⟨target.slot, state.version target.expression⟩ reaching →
        final.Gathers ⟨target.slot, state.version target.expression⟩ reaching := by
  have books := incrementVariable_books run
  rcases incrementVariable_charts run charted ordinary (again versioned) with
    ⟨haunted, next, position, origin, phantom, chartedNext, found, noInput, haunts, similar,
      recorded⟩
  refine ⟨next, chartedNext, fun other different => ?_, ?_⟩
  · exact (haunts.rewires.spares charted.sound (charted.sound.not_phiInput found noInput)
      different).trans (similar.spares other)
  · rintro reaching ⟨stored, place, same, gathers⟩
    obtain rfl : graph = stored := Option.some.inj (charted.stored.symm.trans same)
    refine ⟨next, place, chartedNext.stored, Gathers.of_similar ?_ similar⟩
    refine gathers.of_haunts haunts charted.sound found (fun version known => ?_)
      fun version haunting => ?_
    · exact books.1.phantomVersion known
    · rcases recorded version haunting with ⟨on, joined⟩
      exact joined (books.1.phantoms.trans on)

end

/-- What a version gathers stays while its node is spared. -/
private theorem gathers_of_spares {next : VersionGraph} {other : VersionKey} {reaching : VersionSet}
    (gathers : state.Gathers other reaching) (charted : Charted state graph)
    (chartedNext : Charted final next) (spares : Spares other graph next)
    (books : KeepsBooks state final) : final.Gathers other reaching := by
  rcases gathers with ⟨stored, position, same, gathers⟩
  obtain rfl : graph = stored := Option.some.inj (charted.stored.symm.trans same)
  exact ⟨next, position, chartedNext.stored,
    (gathers.of_spares spares).of_phantom fun version => books.phantomVersion⟩

/-- A place gathers what reaches it, and all others go on gathering. -/
theorem act_gathers {place : Visit} (run : place.act site facts state = .ok result final)
    (usage : site.config.has .usageVersions = true) (negative : state.FieldsNegative)
    (charted : Charted state graph)
    (ordinary : ∀ target, place.site? = some target → 0 ≤ target.slot)
    (sources : ∀ target, place.site? = some target →
      ∀ version ∈ facts.reaching target.slot, graph.Plain ⟨target.slot, version⟩)
    (again : ∀ target, place.site? = some target → state.version target.expression ≠ 0 →
      graph.Plain ⟨target.slot, state.version target.expression⟩) :
    (∀ other reaching, (∀ target, place.site? = some target →
        other ≠ ⟨target.slot, final.version target.expression⟩) →
      state.Gathers other reaching → final.Gathers other reaching) ∧
    (∀ target, place.site? = some target → place.isRead = true →
      2 ≤ (facts.reaching target.slot).cardinality →
        final.Gathers ⟨target.slot, final.version target.expression⟩
          (facts.reaching target.slot)) := by
  have books := act_keepsBooks run
  cases act_ok run with
  | @read target _ _ reading =>
      rcases read_gathers charted (ordinary target rfl) (again target rfl) usage
        (sources target rfl) reading with ⟨next, chartedNext, spares, -, gathers⟩
      refine ⟨fun other reaching elsewhere gathered => gathers_of_spares gathered charted
        chartedNext (spares other (elsewhere target rfl)) books, ?_⟩
      rintro _ ⟨⟩ -
      exact gathers
  | @define target _ _ definition =>
      rcases define_spares charted (ordinary target rfl) (again target rfl) definition with
        ⟨next, chartedNext, spares, -⟩
      exact ⟨fun other reaching _ gathered => gathers_of_spares gathered charted chartedNext
        (spares other) books, fun _ _ reads => nomatch reads⟩
  | @assign target _ _ middle _ definition copy =>
      rcases define_spares charted (ordinary target rfl) (again target rfl) definition with
        ⟨next, chartedNext, spares, -⟩
      rcases recordCopy_ok copy with ⟨copies, events, rfl⟩
      exact ⟨fun other reaching _ gathered => gathers_of_spares gathered charted
        (chartedNext.of_last rfl fun _ => Nat.le_refl _) (spares other) books,
        fun _ _ reads => nomatch reads⟩
  | @increment target _ _ middle _ reading increases =>
      have version := (incrementVariable_ok increases).1.version target.expression
      rcases read_gathers charted (ordinary target rfl) (again target rfl) usage
        (sources target rfl) reading with ⟨between, chartedBetween, spares, plain, gathers⟩
      have versioned : middle.version target.expression ≠ 0 :=
        ((read_ok reading).stamps usage).ne_zero
      rcases incrementVariable_gathers chartedBetween (ordinary target rfl) (fun _ => plain)
        versioned increases with ⟨next, chartedNext, later, keeps⟩
      refine ⟨fun other reaching elsewhere gathered => ?_, ?_⟩
      · have different := elsewhere target rfl
        rw [version] at different
        exact gathers_of_spares gathered charted chartedNext
          ((spares other different).trans (later other different)) books
      · rintro _ ⟨⟩ - several
        rw [version]
        exact keeps _ (gathers several)
  | field request =>
      rcases slotOfField_draws request charted negative with ⟨next, chartedNext, spares⟩
      exact ⟨fun other reaching _ gathered => gathers_of_spares gathered charted chartedNext
        (spares other) books, fun _ visits => nomatch visits⟩
  | unversionedField | clobber =>
      exact ⟨fun _ _ _ gathers => gathers, fun _ visits => nomatch visits⟩

end RunM

end SlotVersioning
