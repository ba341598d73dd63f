import Mathlib.Logic.Function.Basic
import SlotVersioning.Proofs.Rest.Books
import SlotVersioning.Proofs.Run.Recording

/-!
# Live facts of a visit

A live visit of a site that has a version records the facts that reach it, before it makes its
version the current one. The target of an increment is recorded again when phantoms are, this time
with its own version. Besides that, visits change no live facts (`RunM.act_shows`).
-/

namespace SlotVersioning

open Std VersionGraph RunM

namespace VersionGraph

/-- What the graph records, and versions that it has nodes for. -/
structure Shows (known : VersionKey → Prop) (live : VersionKey → Option Facts)
    (graph : VersionGraph) : Prop where
  placed : graph.Placed
  known : ∀ key, known key → (graph.position? key).isSome
  recorded : ∀ key, graph.recorded? key = live key

namespace Shows

variable {known : VersionKey → Prop} {live : VersionKey → Option Facts} {graph after : VersionGraph}
  {key : VersionKey} {facts : Facts}

private theorem creates {created : List (VersionKey × VersionOrigin)}
    (shows : graph.Shows known live) (creates : Creates created graph after) :
    after.Shows known live where
  placed := creates.placed shows.placed
  known := fun key isKnown => creates.known key (shows.known key isKnown)
  recorded := fun key => (creates.recorded key).trans (shows.recorded key)

/-- Facts are recorded at a version that has a node, and nowhere else. -/
private theorem withLive (shows : graph.Shows known live) (isKnown : known key) :
    (graph.withLive key facts).Shows known (Function.update live key (some facts)) := by
  rcases Option.isSome_iff_exists.1 (shows.known key isKnown) with ⟨position, indexed⟩
  rcases shows.placed key position indexed with ⟨origin, identity⟩
  rcases Option.map_eq_some_iff.1 identity with ⟨node, stored, -⟩
  have similar := similar_withLive graph key facts
  refine ⟨fun other place found => ?_, fun other isKnown => ?_, fun other => ?_⟩
  · rw [similar.position] at found
    rw [similar.identity]
    exact shows.placed other place found
  · rw [similar.position]
    exact shows.known other isKnown
  · have edited : graph.withLive key facts =
        graph.editAt position fun node => { node with live := some facts } := by
      unfold VersionGraph.withLive
      rw [indexed]
    rw [Function.update_apply, ← shows.recorded, edited]
    unfold recorded? node?
    change ((graph.position? other).bind fun place => _).bind _ = _
    by_cases same : other = key
    · rw [if_pos same, same, indexed, Option.bind_some, getElem?_editAt, if_pos rfl, stored]
      rfl
    · rw [if_neg same]
      cases found : graph.position? other with
      | none => rfl
      | some place =>
          rw [Option.bind_some, getElem?_editAt, if_neg]
          · rfl
          · -- The index finds one key at a position.
            rintro rfl
            rcases shows.placed other position found with ⟨made, others⟩
            exact same (congrArg Prod.fst (Option.some.inj (others.symm.trans identity)))

end Shows

end VersionGraph

/-- What the graph of the state records. -/
def RunState.Shows (state : RunState) (known : VersionKey → Prop)
    (live : VersionKey → Option Facts) : Prop :=
  ∃ graph, state.tables.graph = some graph ∧ graph.Shows known live

/-- What a live visit records of the facts that reach it, when its site has this version. -/
def Visit.liveFacts (tracking : Bool) (version : Version) (facts : Facts) : Visit → Facts
  | increment target => if tracking then facts.pin target.slot version else facts
  | _ => facts

/-- Where a live visit records facts, and which. -/
def Visit.snapshot (tracking : Bool) (version : ExprId → Version) (facts : Facts)
    (place : Visit) : Option (VersionKey × Facts) :=
  place.site?.map fun target => (⟨target.slot, version target.expression⟩,
    place.liveFacts tracking (version target.expression) facts)

/-- Live facts after something was recorded. -/
def record (live : VersionKey → Option Facts) :
    Option (VersionKey × Facts) → VersionKey → Option Facts
  | none => live
  | some (key, facts) => Function.update live key (some facts)

namespace RunM

variable {known : VersionKey → Prop} {live : VersionKey → Option Facts} {site : Site}
  {target : VariableSite} {place : Visit} {facts result : Facts} {state final : RunState}
  {key : VersionKey}

theorem unmoved_shows (known : VersionKey → Prop) (live : VersionKey → Option Facts) :
    Unmoved fun graph? => ∃ graph, graph? = some graph ∧ graph.Shows known live := by
  rintro created before after creates ⟨graph, stored, shows⟩
  cases stored
  exact ⟨after, rfl, shows.creates creates⟩

/-- A visit that is not live records nothing. -/
theorem act_shows_dead (shows : state.Shows known live) (dead : site.live = false)
    (run : place.act site facts state = .ok result final) : final.Shows known live := by
  have nothing (facts : Facts) : Bearable (fun graph? =>
      ∃ graph, graph? = some graph ∧ graph.Shows known live) site facts :=
    fun isLive => nomatch dead.symm.trans isLive
  exact act_bears (unmoved_shows known live) (nothing _) (fun _ _ _ => nothing _) state result final
    shows run

section

variable (isLive : site.live = true) (isKnown : known key)

include isLive isKnown

theorem recordLive_shows (shows : state.Shows known live)
    (run : recordLive site key facts state = .ok () final) :
    final.Shows known (Function.update live key (some facts)) := by
  rcases shows with ⟨graph, stored, shows⟩
  unfold recordLive at run
  rw [if_pos isLive] at run
  cases run
  exact ⟨_, congrArg (Option.map _) stored, shows.withLive isKnown⟩

end

section

variable (isLive : site.live = true) (versioned : state.version target.expression ≠ 0)
  (isKnown : known ⟨target.slot, state.version target.expression⟩) (shows : state.Shows known live)

include isLive versioned isKnown shows

theorem define_shows (run : define site target facts state = .ok result final) :
    final.Shows known (Function.update live ⟨target.slot, state.version target.expression⟩
      (some facts)) := by
  cases define_stamping run with
  | first unversioned => exact absurd unversioned versioned
  | later _ recorded => exact recordLive_shows isLive isKnown shows recorded

private theorem splitRead_shows {source : Version}
    (run : splitRead site target source facts state = .ok result final) :
    final.Shows known (Function.update live ⟨target.slot, state.version target.expression⟩
      (some facts)) := by
  cases splitRead_stamping run with
  | first unversioned => exact absurd unversioned versioned
  | later _ recorded => exact recordLive_shows isLive isKnown shows recorded

private theorem mergeRead_shows {reaching : VersionSet}
    (run : mergeRead site target reaching facts state = .ok result final) :
    final.Shows known (Function.update live ⟨target.slot, state.version target.expression⟩
      (some facts)) := by
  rcases mergeRead_stamping run with ⟨middle, stamping, merges⟩
  refine bears_mergeInto (unmoved_shows known _) _ _ _ _ _ ?_ merges
  cases stamping with
  | first unversioned => exact absurd unversioned versioned
  | later _ recorded => exact recordLive_shows isLive isKnown shows recorded

private theorem read_shows (usage : site.config.has .usageVersions = true)
    (run : read site target facts state = .ok result final) :
    final.Shows known (Function.update live ⟨target.slot, state.version target.expression⟩
      (some facts)) := by
  cases read_ok run with
  | undefined unreached run => exact define_shows isLive versioned isKnown shows run
  | adopting only plain reached => exact absurd (plain.symm.trans usage) Bool.false_ne_true
  | splitting source _ reached run => exact splitRead_shows isLive versioned isKnown shows run
  | merging _ several run => exact mergeRead_shows isLive versioned isKnown shows run
  | tabulating plain several run => exact absurd (plain.symm.trans usage) Bool.false_ne_true

omit versioned in
/-- When phantoms are recorded, the target of an increment is recorded again. -/
private theorem incrementVariable_shows
    (run : incrementVariable site target facts state = .ok result final) :
    final.Shows known (if state.tables.phantoms.isSome then
      Function.update live ⟨target.slot, state.version target.expression⟩ (some facts)
      else live) := by
  cases incrementVariable_cases run with
  | unrecorded off =>
      rw [off]
      exact shows
  | recorded on phantom records =>
      rw [if_pos on]
      exact recordLive_shows isLive isKnown
        (bears_ensurePhantom (unmoved_shows known live) _ _ _ _ shows phantom) records

end

/-- A live visit of a site with a version records there what reaches it. -/
theorem act_shows (isLive : site.live = true) (usage : site.config.has .usageVersions = true)
    (versioned : ∀ target, place.site? = some target → state.version target.expression ≠ 0 ∧
      known ⟨target.slot, state.version target.expression⟩)
    (shows : state.Shows known live) (run : place.act site facts state = .ok result final) :
    final.Shows known
      (record live (place.snapshot state.tables.phantoms.isSome state.version facts)) := by
  cases act_ok run with
  | read reading =>
      exact read_shows isLive (versioned _ rfl).1 (versioned _ rfl).2 shows usage reading
  | define definition =>
      exact define_shows isLive (versioned _ rfl).1 (versioned _ rfl).2 shows definition
  | @assign target value _ middle _ definition copy =>
      have defined := define_shows isLive (versioned _ rfl).1 (versioned _ rfl).2 shows definition
      rcases recordCopy_ok copy with ⟨copies, events, rfl⟩
      exact defined
  | @increment target picked _ middle _ reading increases =>
      have begun := read_shows isLive (versioned _ rfl).1 (versioned _ rfl).2 shows usage reading
      have kept : middle.version target.expression = state.version target.expression :=
        ((read_ok reading).stamps usage).kept (versioned _ rfl).1
      have pins : picked = facts.pin target.slot (state.version target.expression) := by
        have visited : (Visit.read target).act site facts state = .ok picked middle := reading
        rw [← kept]
        exact act_pins visited rfl
      have books :=
        ((indifferent_books state.tables).read _ _ _ (books_refl state) reading).phantoms
      have increased := incrementVariable_shows isLive (kept.symm ▸ (versioned _ rfl).2) begun
        increases
      rw [kept, books, pins] at increased
      simp only [Visit.snapshot, Visit.site?, Option.map_some, record, Visit.liveFacts]
      split
      · next recorded =>
          rw [if_pos recorded, Function.update_idem] at increased
          exact increased
      · next unrecorded =>
          rw [if_neg unrecorded] at increased
          exact increased
  | field request => exact bears_slotOfField (unmoved_shows known live) _ _ _ _ shows request
  | unversionedField | clobber => exact shows

end RunM

end SlotVersioning
