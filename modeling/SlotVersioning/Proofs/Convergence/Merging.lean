import Mathlib.Data.Finset.Card
import Mathlib.Data.Finset.Range
import Mathlib.Data.Nat.Init
import SlotVersioning.Proofs.Convergence.History

/-!
# Merged versions that last

In a graph whose cycles go back once, a version that comes to be alone at a site came from a read
that became a merged version under it, no more passes ago than there are nodes, or it is as old as
the run (`History.begun_of_site`). So from some pass on reads with merged versions stay such
(`History.merged_lasts`), and there are fewer reads without after each pass in which one becomes a
merged version.
-/

namespace SlotVersioning

open Std

/-- In this pass the version may come to be alone somewhere without having been so elsewhere. -/
def AloneBegins (body : Body) (states : Nat → RunState) (slot : Slot) (version : Version)
    (time : Nat) : Prop :=
  time = 0 ∨ MergesUnder body (states time) (states (time + 1)) slot version

private theorem MergesUnder.merged {body : Body} {before after : RunState} {slot : Slot}
    {version : Version} (merges : MergesUnder body before after slot version) :
    version ≠ 0 ∧ after.tables.merged? ⟨slot, version⟩ ≠ none := by
  rcases merges with ⟨node, place, target, reads, rfl, rfl, -, merged⟩
  exact ⟨merged.versioned, merged.merged⟩

theorem Body.Reads.unique {body : Body} {left right : NodeId} {first second : Visit}
    {leftSite rightSite : VariableSite} (leftReads : body.Reads left first leftSite)
    (rightReads : body.Reads right second rightSite)
    (same : leftSite.expression = rightSite.expression) : leftSite = rightSite := by
  have leftFound := body.sitesIn_course left first leftReads.inCourse leftSite leftReads.visits
  have rightFound := body.sitesIn_course right second rightReads.inCourse rightSite
    rightReads.visits
  rw [same, rightFound] at leftFound
  exact (Option.some.inj leftFound).symm

private theorem Body.Reads.lt_size {body : Body} {node : NodeId} {place : Visit}
    {target : VariableSite} (reads : body.Reads node place target) :
    target.expression < body.arena.size := by
  have found := body.sitesIn_course node place reads.inCourse target reads.visits
  rcases Option.map_eq_some_iff.1 found with ⟨access, stored, -⟩
  rcases Option.bind_eq_some_iff.1 stored with ⟨expr, present, -⟩
  exact (Array.getElem?_eq_some_iff.1 present).1

namespace History

variable {context : Context} {states : Nat → RunState} {count : Nat}

/-- That a version comes to be alone spreads. -/
private theorem spreads_heldAlone (history : History context states count) {slot : Slot}
    (ordinary : 0 ≤ slot) (version : Version) :
    Spreads context states count (HeldAlone version) slot
      (AloneBegins context.body states slot version) where
  joinable := .heldAlone version
  reflexive := fun _ _ => rfl
  initially := .inl rfl
  leaves := by
    intro time less notBegun source known entering target
    rcases not_or.1 notBegun with ⟨later, noMerges⟩
    rcases history.settling time (Nat.le_of_lt less) with ⟨dirty, settling⟩
    rcases history.settling (time + 1) less with ⟨dirtyAfter, settlingAfter⟩
    rcases history.stored known later (Nat.le_of_lt less) with ⟨facts, stored⟩
    rcases history.stored known (Nat.succ_ne_zero time) less with ⟨after, storedAfter⟩
    rw [Tables.entering_of_stored stored, Tables.entering_of_stored storedAfter] at entering
    exact Turn.brought_related (.heldAlone version) ordinary settling settlingAfter stored
      storedAfter entering (relatesSites_heldAlone history.regular history.plain
        (history.turn time less) settling settlingAfter noMerges stored storedAfter)
  once := by
    intro node known time less
    by_cases held : HeldAlone version ((states time).tables.entering node slot)
      ((states (time + 1)).tables.entering node slot)
    · exact .inl held
    · exact .inr (.of_changed held
        (history.inhabited time (Nat.lt_of_succ_lt less) node known slot ordinary)
        (history.inhabited (time + 1) less node known slot ordinary))

/-- A version that comes to be alone at a site began to spread no more passes ago than there are
nodes. -/
theorem begun_of_site (history : History context states count)
    (goesBack : context.graph.GoesBackOnce) {time : Nat} (less : time < count) {node : NodeId}
    {place : Visit} {target : VariableSite} {left right : VersionSet}
    (before : ReachesAt context.body (states time).tables (states time).version node place target
      left)
    (now : ReachesAt context.body (states (time + 1)).tables (states (time + 1)).version node place
      target right) {version : Version} (differs : ¬ HeldAlone version left right) :
    ∃ begun, AloneBegins context.body states target.slot version begun ∧ begun ≤ time ∧
      time ≤ begun + context.graph.size := by
  have known : node < context.graph.size := Body.lt_size_of_visit now.mem_visits
  have ordinary := history.regular.ordinary_of_visit now.mem_visits now.visits
  by_cases merges : MergesUnder context.body (states time) (states (time + 1)) target.slot version
  · exact ⟨time, .inr merges, Nat.le_refl time, Nat.le_add_right time _⟩
  · apply history.begun (history.spreads_heldAlone ordinary version) goesBack known less
    intro entering
    rcases history.settling time (Nat.le_of_lt less) with ⟨dirty, settling⟩
    rcases history.settling (time + 1) less with ⟨dirtyAfter, settlingAfter⟩
    have here := now
    rcases before with ⟨facts, stored, arrives, visits⟩
    rcases now with ⟨later, storedLater, -, -⟩
    rw [Tables.entering_of_stored stored, Tables.entering_of_stored storedLater] at entering
    have arrivals := (Course.relates (.heldAlone version) entering
      (relatesSites_heldAlone history.regular history.plain (history.turn time less) settling
        settlingAfter merges stored storedLater)).2
    rcases exists_of_forall₂ arrivals arrives with ⟨⟨other, reaching⟩, listed, same, held⟩
    obtain rfl : place = other := same
    have found : ReachesAt context.body (states (time + 1)).tables (states (time + 1)).version node
        place target reaching := ⟨later, storedLater, listed, visits⟩
    rw [found.unique history.regular.unshared here rfl rfl] at held
    exact differs held

/-- What is merged stays merged. -/
private theorem merged_later (history : History context states count) {earlier later : Nat}
    (order : earlier ≤ later) (few : later ≤ count) {key : VersionKey}
    (found : (states earlier).tables.merged? key ≠ none) :
    (states later).tables.merged? key ≠ none := by
  induction later, order using Nat.le_induction with
  | base => exact found
  | succ later order induction =>
      have before := induction (Nat.le_of_lt few)
      exact fun absent => before ((history.turn later few).grows.none_of_none absent)

/-- Something reaches every site of a visited node. -/
private theorem exists_reaching (history : History context states count) {node : NodeId}
    {place : Visit} {target : VariableSite} (inCourse : place ∈ (context.body.course node).visits)
    (visits : place.site? = some target) {time : Nat} (positive : time ≠ 0) (few : time ≤ count) :
    ∃ reaching, ReachesAt context.body (states time).tables (states time).version node place target
      reaching := by
  rcases history.stored (Body.lt_size_of_visit inCourse) positive few with ⟨facts, stored⟩
  rcases Course.exists_arrival inCourse (facts.reaching target.slot) with ⟨reaching, arrives⟩
  exact ⟨reaching, facts, stored, arrives, visits⟩

/-- After more passes than there are nodes, a site with another version than before adopted a merged
version or became one. -/
theorem version_cases (history : History context states count)
    (goesBack : context.graph.GoesBackOnce) {time : Nat} (late : context.graph.size < time)
    (less : time < count) {node : NodeId} {place : Visit} {target : VariableSite}
    (inCourse : place ∈ (context.body.course node).visits) (visits : place.site? = some target) :
    (states (time + 1)).version target.expression = (states time).version target.expression ∨
      ∃ begun, begun ≤ time ∧ time ≤ begun + context.graph.size ∧
        MergesUnder context.body (states begun) (states (begun + 1)) target.slot
          ((states (time + 1)).version target.expression) := by
  have positive : time ≠ 0 := Nat.ne_of_gt (Nat.zero_lt_of_lt late)
  rcases history.exists_reaching inCourse visits positive (Nat.le_of_lt less) with ⟨left, before⟩
  rcases history.exists_reaching inCourse visits (Nat.succ_ne_zero time) less with ⟨right, now⟩
  by_cases held : HeldAlone ((states (time + 1)).version target.expression) left right
  · rcases history.settling time (Nat.le_of_lt less) with ⟨dirty, settling⟩
    rcases history.settling (time + 1) less with ⟨dirtyAfter, settlingAfter⟩
    rcases version_of_heldAlone history.regular history.plain (history.turn time less) settling
      settlingAfter before now held with kept | ⟨reads, unmerged, merged⟩
    · exact .inl kept
    · exact .inr ⟨time, Nat.le_refl time, Nat.le_add_right time _, node, place, target,
        ⟨inCourse, visits, reads⟩, rfl, rfl, unmerged, merged⟩
  · rcases history.begun_of_site goesBack less before now held with
      ⟨begun, rfl | merges, early, recent⟩
    · omega
    · exact .inr ⟨begun, early, recent, merges⟩

/-- After more passes than there are nodes, merged versions last. -/
theorem merged_lasts (history : History context states count)
    (goesBack : context.graph.GoesBackOnce) {time : Nat} (late : context.graph.size < time)
    (less : time < count) {node : NodeId} {place : Visit} {target : VariableSite}
    (inCourse : place ∈ (context.body.course node).visits) (visits : place.site? = some target)
    (merged : (states time).Merged target) : (states (time + 1)).Merged target := by
  rcases history.version_cases goesBack late less inCourse visits with
    kept | ⟨begun, early, -, merges⟩
  · refine ⟨kept ▸ merged.versioned, ?_⟩
    rw [kept]
    exact history.merged_later (Nat.le_succ time) less merged.merged
  · exact ⟨merges.merged.1, history.merged_later (Nat.succ_le_succ early) less merges.merged.2⟩

end History

/-! ## Reads without merged versions -/

open Classical in
/-- The reads that have no merged version. -/
noncomputable def Body.unmerged (body : Body) (state : RunState) : Finset ExprId :=
  (Finset.range body.arena.size).filter fun expression =>
    ∃ node place target, body.Reads node place target ∧ target.expression = expression ∧
      ¬ state.Merged target

theorem Body.mem_unmerged {body : Body} {state : RunState} {expression : ExprId} :
    expression ∈ body.unmerged state ↔ ∃ node place target, body.Reads node place target ∧
      target.expression = expression ∧ ¬ state.Merged target := by
  classical
  unfold unmerged
  rw [Finset.mem_filter, Finset.mem_range]
  refine ⟨And.right, fun found => ⟨?_, found⟩⟩
  rcases found with ⟨node, place, target, reads, rfl, -⟩
  exact reads.lt_size

theorem Body.card_unmerged_le (body : Body) (state : RunState) :
    (body.unmerged state).card ≤ body.arena.size := by
  classical
  unfold unmerged
  apply Nat.le_trans (Finset.card_filter_le _ _)
  rw [Finset.card_range]

theorem Body.Reads.mem_unmerged {body : Body} {state : RunState} {node : NodeId} {place : Visit}
    {target : VariableSite} (reads : body.Reads node place target) :
    target.expression ∈ body.unmerged state ↔ ¬ state.Merged target := by
  rw [Body.mem_unmerged]
  constructor
  · rintro ⟨other, visit, site, listed, same, lacks⟩
    rw [← listed.unique reads same]
    exact lacks
  · exact fun lacks => ⟨node, place, target, reads, rfl, lacks⟩

namespace History

variable {context : Context} {states : Nat → RunState} {count : Nat}

private theorem unmerged_subset (history : History context states count)
    (goesBack : context.graph.GoesBackOnce) {earlier later : Nat}
    (late : context.graph.size < earlier) (order : earlier ≤ later) (few : later ≤ count) :
    context.body.unmerged (states later) ⊆ context.body.unmerged (states earlier) := by
  induction later, order using Nat.le_induction with
  | base => exact Finset.Subset.refl _
  | succ later order induction =>
      apply Finset.Subset.trans ?_ (induction (Nat.le_of_lt few))
      intro expression member
      rcases Body.mem_unmerged.1 member with ⟨node, place, target, reads, rfl, lacks⟩
      rw [reads.mem_unmerged]
      exact fun merged => lacks (history.merged_lasts goesBack (Nat.lt_of_lt_of_le late order) few
        reads.inCourse reads.visits merged)

/-- There are fewer reads without merged versions after a pass in which one becomes merged. -/
theorem card_unmerged_lt (history : History context states count)
    (goesBack : context.graph.GoesBackOnce) {earlier time later : Nat}
    (late : context.graph.size < earlier) (after : earlier ≤ time) (before : time < later)
    (few : later ≤ count) {slot : Slot} {version : Version}
    (merges : MergesUnder context.body (states time) (states (time + 1)) slot version) :
    (context.body.unmerged (states later)).card <
      (context.body.unmerged (states earlier)).card := by
  have lateNow : context.graph.size < time := Nat.lt_of_lt_of_le late after
  have lateThen : context.graph.size < time + 1 := Nat.lt_succ_of_lt lateNow
  apply Finset.card_lt_card
  rw [Finset.ssubset_iff_of_subset
    (history.unmerged_subset goesBack late (Nat.le_trans after (Nat.le_of_lt before)) few)]
  rcases merges with ⟨node, place, target, reads, -, -, unmerged, merged⟩
  refine ⟨target.expression, ?_, fun member => ?_⟩
  · apply history.unmerged_subset goesBack late after (Nat.le_trans (Nat.le_of_lt before) few)
    exact reads.mem_unmerged.2 unmerged
  · have gone := history.unmerged_subset goesBack lateThen before few member
    exact reads.mem_unmerged.1 gone merged

end History

end SlotVersioning
