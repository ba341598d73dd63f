import SlotVersioning.Proofs.Convergence.Merging
import SlotVersioning.Proofs.Convergence.Shrinking
import SlotVersioning.Proofs.Pass.Tireless
import SlotVersioning.Proofs.Pass.Verdicts

/-!
# Convergence without usage versions

Without usage versions the passes over a graph whose cycles go back once come to an end
(`Versioner.plain_converges`). As long as no read becomes a merged version, the names at all sites
are kept after some passes (`History.keepsAt`), then what enters the nodes is kept
(`History.entering_same`), and then nothing is new. And after more passes than there are nodes reads
become merged versions no more often than there are expressions.

On other graphs the passes need not come to an end: two versions can circle round a cycle that goes
back twice for ever (`Versioner.circles`). For what a pass does to a slot depends on nothing but what
the state shows of it, so what is shown again after two passes is shown again after any two.
-/

namespace SlotVersioning

open Std Course

/-- In the passes from the first on no read becomes a merged version. -/
def Calm (body : Body) (states : Nat → RunState) (first count : Nat) : Prop :=
  ∀ time, first ≤ time → time < count → ∀ slot version,
    ¬ MergesUnder body (states time) (states (time + 1)) slot version

namespace History

variable {context : Context} {states : Nat → RunState} {count first : Nat}

/-- In calm passes the names at all sites are kept, after as many passes as there are nodes. -/
theorem keepsAt (history : History context states count)
    (goesBack : context.graph.GoesBackOnce) (late : context.graph.size < first)
    (calm : Calm context.body states first count) {time : Nat}
    (after : first + context.graph.size ≤ time) (less : time < count) (node : NodeId) :
    KeepsAt (context.body.course node).sites (states time) (states (time + 1)) := by
  refine ⟨history.keepsFields time less, fun expression listed => ?_⟩
  rcases Course.mem_sites.1 listed with ⟨place, inCourse, target, visits, rfl⟩
  rcases history.version_cases goesBack (by omega) less inCourse visits with
    kept | ⟨begun, early, recent, merges⟩
  · exact kept
  · exact absurd merges (calm begun (by omega) (by omega) target.slot _)

/-- While names are kept, an edge brings a version again when its source was brought it again. -/
theorem brought_subsetAt (history : History context states count) {time : Nat}
    (positive : time ≠ 0) (less : time < count) {source : NodeId}
    (known : source < context.graph.size)
    (kept : KeepsAt (context.body.course source).sites (states time) (states (time + 1)))
    (target : NodeId) {slot : Slot} {version : Version} :
    ((version ∈ (states time).tables.entering source slot →
        version ∈ (states (time + 1)).tables.entering source slot) →
      version ∈ (states time).tables.brought context.graph source target slot →
        version ∈ (states (time + 1)).tables.brought context.graph source target slot) ∧
    ((version ∈ (states (time + 1)).tables.entering source slot →
        version ∈ (states time).tables.entering source slot) →
      version ∈ (states (time + 1)).tables.brought context.graph source target slot →
        version ∈ (states time).tables.brought context.graph source target slot) := by
  rcases history.stored known positive (Nat.le_of_lt less) with ⟨facts, stored⟩
  rcases history.stored known (Nat.succ_ne_zero time) less with ⟨later, storedLater⟩
  have now : KeepsAt (context.body.course source).sites (states (time + 1)) (states (time + 1)) :=
    ⟨.refl _, fun _ _ => rfl⟩
  rw [Tables.entering_of_stored stored, Tables.entering_of_stored storedLater,
    (history.balanced time (Nat.le_of_lt less)).brought stored kept,
    (history.balanced (time + 1) less).brought storedLater now]
  constructor
  · intro subset
    have carried := @RunM.transferred_subsetAt context (states (time + 1)) source slot version facts
      later subset
    split
    · exact carried.2
    · exact carried.1
  · intro subset
    have carried := @RunM.transferred_subsetAt context (states (time + 1)) source slot version later
      facts subset
    split
    · exact carried.2
    · exact carried.1

/-- While names are kept, what is lost spreads. -/
private theorem spreads_lost (history : History context states count) (positive : first ≠ 0)
    (kept : ∀ time, first ≤ time → time < count → ∀ node,
      KeepsAt (context.body.course node).sites (states time) (states (time + 1)))
    (slot : Slot) (version : Version) :
    Spreads context states count (fun before after => version ∈ before → version ∈ after) slot
      (· < first) where
  joinable := .member version
  reflexive := fun _ member => member
  initially := Nat.pos_of_ne_zero positive
  leaves := by
    intro time less begun source known subset target
    have later : first ≤ time := Nat.le_of_not_lt begun
    exact (history.brought_subsetAt (by omega) less known (kept time later less source) target).1
      subset
  once := by
    intro node _ time _
    by_cases inside : version ∈ (states (time + 1)).tables.entering node slot
    · exact .inl fun _ => inside
    · exact .inr fun member => absurd member inside

/-- While names are kept, what is new spreads. -/
private theorem spreads_new (history : History context states count) (positive : first ≠ 0)
    (kept : ∀ time, first ≤ time → time < count → ∀ node,
      KeepsAt (context.body.course node).sites (states time) (states (time + 1)))
    (slot : Slot) (version : Version) :
    Spreads context states count (fun before after => version ∈ after → version ∈ before) slot
      (· < first) where
  joinable := (Joinable.member version).flip
  reflexive := fun _ member => member
  initially := Nat.pos_of_ne_zero positive
  leaves := by
    intro time less begun source known subset target
    have later : first ≤ time := Nat.le_of_not_lt begun
    exact (history.brought_subsetAt (by omega) less known (kept time later less source) target).2
      subset
  once := by
    intro node _ time _
    by_cases inside : version ∈ (states (time + 1)).tables.entering node slot
    · exact .inr fun _ => inside
    · exact .inl fun member => absurd member inside

/-- After as many passes again the same enters the nodes. -/
theorem entering_same (history : History context states count)
    (goesBack : context.graph.GoesBackOnce) (positive : first ≠ 0)
    (kept : ∀ time, first ≤ time → time < count → ∀ node,
      KeepsAt (context.body.course node).sites (states time) (states (time + 1)))
    {time : Nat} (after : first + context.graph.size ≤ time) (less : time < count) {node : NodeId}
    (known : node < context.graph.size) :
    (states (time + 1)).tables.inFacts[node]? = (states time).tables.inFacts[node]? := by
  rcases history.stored known (by omega) (Nat.le_of_lt less) with ⟨facts, stored⟩
  rcases history.stored known (Nat.succ_ne_zero time) less with ⟨later, storedLater⟩
  rw [stored, storedLater]
  apply congrArg some
  apply Facts.ext
  intro slot
  apply VersionSet.ext
  intro version
  rw [← Tables.entering_of_stored stored, ← Tables.entering_of_stored storedLater]
  constructor
  · by_contra differs
    rcases history.begun (history.spreads_new positive kept slot version) goesBack known less
      differs with ⟨begun, before, -, recent⟩
    omega
  · by_contra differs
    rcases history.begun (history.spreads_lost positive kept slot version) goesBack known less
      differs with ⟨begun, before, -, recent⟩
    omega

/-- In calm passes nothing new is stored any more, after twice as many as there are nodes. -/
private theorem sameLeaving (history : History context states count)
    (goesBack : context.graph.GoesBackOnce) (late : context.graph.size < first)
    (calm : Calm context.body states first count) {time : Nat}
    (after : first + context.graph.size + context.graph.size ≤ time) (less : time < count)
    {node : NodeId} (known : node < context.graph.size) :
    RunM.SameLeaving node (states time) (states (time + 1)) := by
  have kept (time : Nat) (after : first + context.graph.size ≤ time) (less : time < count) :=
    history.keepsAt goesBack late calm after less
  have entering := history.entering_same goesBack (by omega) kept after less known
  have keeps := kept time (by omega) less node
  have now : KeepsAt (context.body.course node).sites (states (time + 1)) (states (time + 1)) :=
    ⟨.refl _, fun _ _ => rfl⟩
  have before := history.balanced time (Nat.le_of_lt less)
  have next := history.balanced (time + 1) less
  rcases history.stored known (Nat.succ_ne_zero time) less with ⟨facts, storedLater⟩
  have stored := storedLater
  rw [entering] at stored
  constructor
  · rw [before.onTrue node facts stored _ keeps, next.onTrue node facts storedLater _ now]
  · cases branch : context.graph.negativeBranch? node with
    | none => rw [before.noBranch node branch, next.noBranch node branch]
    | some target =>
        have isSome : (context.graph.negativeBranch? node).isSome := by
          rw [branch]
          rfl
        rw [before.onFalse node facts stored isSome _ keeps,
          next.onFalse node facts storedLater isSome _ now]

end History

/-! ## Runs -/

namespace RunM.Rounds

variable {context : Context} {start state : RunState} {count : Nat} {dirty : DirtyNodes}

/-- When rounds follow, some read becomes a merged version in as many rounds as it takes to go twice
round the graph. -/
private theorem not_calm (rounds : Rounds context start count dirty state)
    (regular : context.body.Regular) (plain : context.config.has .usageVersions = false)
    (valid : context.body.validate = .ok ()) (goesBack : context.graph.GoesBackOnce)
    (unvisited : Unvisited start) (balanced : Balanced context start) {first : Nat}
    (late : context.graph.size < first) (fits : first + 2 * (context.graph.size + 1) ≤ count) :
    ¬ Calm context.body (rested context start) first
      (first + 2 * (context.graph.size + 1)) := by
  intro calm
  have unshared := regular.unshared
  have settling : Settling context ∅ start := unvisited.settling
  have history := (rounds.history regular plain unvisited balanced).upTo fits
  obtain ⟨time, last⟩ : ∃ time, time = first + context.graph.size + context.graph.size := ⟨_, rfl⟩
  have less : time < count := by omega
  have early : time < first + 2 * (context.graph.size + 1) := by omega
  have same (node : NodeId) (known : node < context.graph.size) :
      SameLeaving node (rested context start time) (rested context start (time + 1)) :=
    history.sameLeaving goesBack late calm (Nat.le_of_eq last.symm) early known
  have before := (rounds.earlier (Nat.le_of_lt less)).1
  have empty := (isEmpty_of_round unshared valid
    (rounds.settling_rested unshared settling (Nat.le_of_lt less))
    (history.balanced time (Nat.le_of_lt early))
    (before.inside unshared valid settling balanced) (rounds.round_rested less)).2 same
  have left := (rounds.earlier less).2 (by omega) (Nat.succ_ne_zero time)
  rw [empty] at left
  exact Bool.noConfusion left

/-- Each time there are fewer reads without merged versions. -/
private theorem card_unmerged_add_le (rounds : Rounds context start count dirty state)
    (regular : context.body.Regular) (plain : context.config.has .usageVersions = false)
    (valid : context.body.validate = .ok ()) (goesBack : context.graph.GoesBackOnce)
    (unvisited : Unvisited start) (balanced : Balanced context start) (times : Nat)
    (fits : (2 * times + 1) * (context.graph.size + 1) ≤ count) :
    (context.body.unmerged
        (rested context start ((2 * times + 1) * (context.graph.size + 1)))).card + times ≤
      context.body.arena.size := by
  induction times with
  | zero => exact context.body.card_unmerged_le _
  | succ times induction =>
      have before : (2 * times + 1) * (context.graph.size + 1) + 2 * (context.graph.size + 1) =
          (2 * (times + 1) + 1) * (context.graph.size + 1) := by
        rw [← Nat.add_mul]
        rfl
      rw [← before] at fits ⊢
      have fewer := induction (by omega)
      have late : context.graph.size < (2 * times + 1) * (context.graph.size + 1) := by
        rw [Nat.add_mul]
        omega
      generalize (2 * times + 1) * (context.graph.size + 1) = first at fits fewer late ⊢
      have restless := rounds.not_calm regular plain valid goesBack unvisited balanced late fits
      have history := rounds.history regular plain unvisited balanced
      by_contra many
      apply restless
      intro time after early slot version merges
      have lost := history.card_unmerged_lt goesBack late after early fits merges
      omega

/-- So the rounds come to an end. -/
private theorem few (rounds : Rounds context start count dirty state)
    (regular : context.body.Regular) (plain : context.config.has .usageVersions = false)
    (valid : context.body.validate = .ok ()) (goesBack : context.graph.GoesBackOnce)
    (unvisited : Unvisited start) (balanced : Balanced context start) :
    count < (2 * context.body.arena.size + 3) * (context.graph.size + 1) := by
  by_contra many
  have fewer := rounds.card_unmerged_add_le regular plain valid goesBack unvisited balanced
    (context.body.arena.size + 1) (Nat.le_of_not_lt many)
  omega

end RunM.Rounds

namespace Versioner

variable {versioner : Versioner} {body : Body}

/-- Without usage versions the passes over a graph whose cycles go back once come to an end: in as
many passes as it takes to go twice round the graph, one more read gets a merged version for good,
or nothing new is stored any more. So a run makes no more passes than as many for each expression,
and a few to begin and to end with, and when these are allowed it never fails to converge. -/
theorem plain_converges (plain : versioner.config.has .usageVersions = false)
    (regular : body.Regular) (goesBack : body.graph.GoesBackOnce) :
    (∀ count before after, versioner.Passes body count before after →
      count < (2 * body.arena.size + 3) * (body.graph.size + 1)) ∧
    ((2 * body.arena.size + 3) * (body.graph.size + 1) ≤ versioner.config.maxPasses →
      ∀ passes, (versioner.run body).outcome ≠ .error (.notConverged passes)) := by
  have few {entry : NodeId} {seeded state : RunState} {count : Nat} {dirty : DirtyNodes}
      (valid : body.validate = .ok ())
      (seeds : RunM.seeding { config := versioner.config, body } entry
        (start versioner.config body) = .ok () seeded)
      (rounds : RunM.Rounds { config := versioner.config, body } seeded count dirty state) :
      count < (2 * body.arena.size + 3) * (body.graph.size + 1) :=
    rounds.few regular plain valid goesBack (RunM.unvisited_seeded seeds)
      (RunM.balanced_seeded seeds)
  constructor
  · intro count before after passes
    cases passes with
    | round valid entered seeds rounds unsettled allowed last =>
        exact Nat.lt_of_succ_lt (few valid seeds (rounds.more unsettled last))
    | live valid entered seeds rounds positive allowed asked last =>
        exact few valid seeds rounds
  · intro many passes exhausted
    rcases exhausted_of_run exhausted with
      ⟨entry, seeded, dirty, last, valid, -, seeds, rounds, -⟩
    exact absurd (few valid seeds rounds) (Nat.not_lt.2 many)

/-- The loop of `rereading` goes back once, and 33 passes are enough. -/
theorem plain_converges_rereading :
    Body.rereading.graph.GoesBackOnce ∧
      (∀ count before after,
        (Config.plain.versioner.limitedTo 33).Passes .rereading count before after → count < 33) ∧
      ∀ passes, ((Config.plain.versioner.limitedTo 33).run .rereading).outcome ≠
        .error (.notConverged passes) := by
  have goesBack : Body.rereading.graph.GoesBackOnce := by
    apply @FlowGraph.goesBackOnce_of_head _ 0
    intro source target edge back
    match target, edge, back with
    | 0, _, _ => rfl
    | 1, edge, back =>
        rw [List.mem_singleton.1 edge] at back
        exact absurd back (by decide)
  have plain : (Config.plain.versioner.limitedTo 33).config.has .usageVersions = false := by
    decide
  have enough : (2 * Body.rereading.arena.size + 3) * (Body.rereading.graph.size + 1) = 33 := by
    decide
  have converges := plain_converges plain Body.regular_rereading goesBack
  rw [enough] at converges
  exact ⟨goesBack, converges.1, converges.2 (Nat.le_refl 33)⟩

end Versioner

/-! ## Versions that circle -/

/-- Where a slot never comes to rest, every number of rounds leaves dirty nodes. -/
private theorem RunM.rounds_of_not_joined {view : SlotView} {context : Context} {start : RunState}
    (matching : context.Matches view context) (unshared : context.body.Unshared)
    (free : (context.body.roots.findSome? fun root =>
      (context.body.arena.term root).course.stuck?) = none)
    (unvisited : Unvisited start) (founded : start.Founded context.config)
    (restless : ∀ total settled, PassesTo view context start total settled →
      ¬ view.Joined context.graph settled) (count : Nat) :
    ∃ dirty last, last.Founded context.config ∧ Rounds context start count dirty last ∧
      (count ≠ 0 → dirty.isEmpty = false) := by
  have same : view.Same context.graph start start :=
    .of_unvisited unvisited (matching.configured ▸ founded)
  induction count with
  | zero => exact ⟨∅, start, founded, .none, fun positive => absurd rfl positive⟩
  | succ count induction =>
      rcases induction with ⟨dirty, state, founded, earlier, unsettled⟩
      have next := @round_concludes context state dirty matching.noShortPaths founded
      rw [free] at next
      rcases next with ⟨dirtyAfter, after, last, founded⟩
      have rounds := earlier.more unsettled last
      refine ⟨dirtyAfter, after, founded, rounds, fun _ => Bool.eq_false_iff.2 fun empty => ?_⟩
      rw [ExtTreeSet.isEmpty_iff.1 empty] at rounds
      exact restless _ after (rounds.passesTo matching same)
        (rounds.joined unshared unvisited (Nat.succ_pos count))

namespace Body

/-- Three reads round a cycle that goes back twice. -/
def rotating : Body where
  arena.exprs := #[.variable { slot := 0 }, .variable { slot := 0 }, .variable { slot := 0 }]
  graph.nodes := #[
    { kind := .direct, statement := 0, expressions := [0], predecessors := [1], successors := [2] },
    { kind := .direct, statement := 0, expressions := [1], predecessors := [2], successors := [0] },
    { kind := .direct, statement := 0, expressions := [2], predecessors := [0], successors := [1] }]
  graph.entry := some 0
  signature.isStatic := true

private theorem built_rotating : rotating.graph.Built := by
  have nodes : FlowGraph.Built _ :=
    ((FlowGraph.Built.empty.addNode .direct 0).addNode .direct 0).addNode .direct 0
  have first := @FlowGraph.Built.appendExpression _ _ nodes 0 0 rfl
  have second := @FlowGraph.Built.appendExpression _ _ first 1 1 rfl
  have third := @FlowGraph.Built.appendExpression _ _ second 2 2 rfl
  have back := @FlowGraph.Built.connect _ _ third 2 1 rfl
  have further := @FlowGraph.Built.connect _ _ back 1 0 rfl
  exact @FlowGraph.Built.connect _ _ further 0 2 rfl

theorem regular_rotating : rotating.Regular where
  built := built_rotating
  usedOnce := by decide
  ordinary := ordinary_of_all rfl
  noShortPaths := fun _ => Std.ExtTreeMap.getElem?_empty
  noExtraNodes := fun _ => Std.ExtTreeSet.contains_empty

end Body

namespace Rotation

def context : Context := ⟨.plain, .rotating⟩

def view : SlotView := Body.rotating.view .plain 0 (Int.le_refl 0)

def seeded : RunState :=
  let state := Versioner.start .plain .rotating
  { state with tables := { state.tables with seeds := state.tables.seeds.insert 0 ∅ } }

theorem seeds :
    RunM.seeding context 0 (Versioner.start .plain .rotating) = .ok () seeded := by
  with_unfolding_all rfl

theorem matching : context.Matches view context := by
  have same : Body.rotating.VariesBeside 0 .rotating :=
    ⟨rfl, rfl, rfl, List.forall₂_same.2 fun expr _ => .same expr⟩
  refine .of_arenas (same.arenas .plain (Int.le_refl 0)) rfl
    Body.regular_rotating.noShortPaths fun name known => ?_
  have course : Body.rotating.course name = .visit (.read ⟨name, 0, none⟩) := by
    match name, known with
    | 0, _ | 1, _ | 2, _ => rfl
  rw [course]
  trivial

theorem unvisited : Unvisited seeded := RunM.unvisited_seeded seeds

theorem founded : seeded.Founded .plain :=
  RunM.founded_seeding 0 _ _ _ (Versioner.founded_start rfl .rotating) seeds

/-- The state after a number of passes. -/
def passed (count : Nat) : RunState :=
  match RunM.passes context count seeded with
  | .ok _ state | .error _ state => state

private theorem passesTo_passed (count : Nat) :
    RunM.PassesTo view context seeded count (passed count) := by
  have begun : RunM.PassesTo view context seeded 0 seeded := .pure (.of_unvisited unvisited founded)
  rcases begun.recurs matching begun count with ⟨state, reached, -⟩
  rw [Nat.zero_add] at reached
  refine reached.congr ?_
  rcases reached with ⟨_, _, run, same⟩
  unfold passed
  rw [run]
  exact same.symm

/-- After four passes everything is as after two. -/
private theorem aside_passed : Aside (passed 2) (passed 4) := by
  have same : ((passed 2).tables.graph.isNone ∧ (passed 4).tables.graph.isNone) ∧
      (passed 4).versions = (passed 2).versions ∧
      (passed 4).tables.lastVersions = (passed 2).tables.lastVersions ∧
      (passed 4).tables.nextFieldSlot = (passed 2).tables.nextFieldSlot ∧
      (passed 4).tables.phi = (passed 2).tables.phi ∧
      (passed 4).tables.fields = (passed 2).tables.fields ∧
      (passed 4).tables.phantoms = (passed 2).tables.phantoms ∧
      (passed 4).tables.copies = (passed 2).tables.copies ∧
      (passed 4).tables.ranges = (passed 2).tables.ranges ∧
      (passed 4).tables.seeds = (passed 2).tables.seeds ∧
      (passed 4).tables.inFacts = (passed 2).tables.inFacts ∧
      (passed 4).tables.outFacts = (passed 2).tables.outFacts ∧
      (passed 4).tables.negativeFacts = (passed 2).tables.negativeFacts := by
    decide +kernel
  rw [Option.isNone_iff_eq_none, Option.isNone_iff_eq_none] at same
  rcases same with ⟨⟨noGraph, noneAfter⟩, versions, lastVersions, nextFieldSlot, phi, fields, phantoms,
    copies, ranges, seeds, inFacts, outFacts, negativeFacts⟩
  refine ⟨⟨versions, seeds, phi, lastVersions, nextFieldSlot, fields, phantoms, copies, ranges,
    fun stored present => (nomatch noGraph.symm.trans present), by rw [noGraph, noneAfter]⟩, ?_⟩
  unfold RunState.stores
  rw [inFacts, outFacts, negativeFacts, seeds]

/-- The third pass makes the versions 1 and 2 change places, and the fourth makes them return. -/
private theorem restless (total : Nat) (settled : RunState)
    (reached : RunM.PassesTo view context seeded total settled) :
    ¬ view.Joined context.graph settled := by
  have valid : Config.plain.validate = .ok () := rfl
  have entered : Body.rotating.graph.entry = some 0 := rfl
  have resting : RunM.Resting context ∅ seeded := RunM.resting_seeded valid entered seeds
  have second := passesTo_passed 2
  have fourth := (passesTo_passed 4).congr ((second.same second).aside aside_passed)
  refine second.not_joined Body.regular_rotating matching resting (passesTo_passed 3) fourth
    (fun same => ?_) reached
  exact absurd (same.stores.outFacts 0).getD (by decide +kernel)

end Rotation

/-- There are graphs over which the passes never come to an end. -/
theorem Versioner.circles :
    ¬ ∀ (versioner : Versioner) (body : Body), versioner.config.validate = .ok () →
      versioner.config.has .usageVersions = false → body.Regular → body.validate = .ok () →
      ∃ passes, ∀ counted, ((versioner.limitedTo passes).run body).outcome ≠
        .error (.notConverged counted) := by
  intro claim
  have valid : Body.rotating.validate = .ok () := rfl
  have entered : Body.rotating.graph.entry = some 0 := rfl
  rcases claim Config.plain.versioner .rotating rfl rfl Body.regular_rotating valid with
    ⟨passes, converges⟩
  have free : (Body.rotating.roots.findSome? fun root =>
      (Body.rotating.arena.term root).course.stuck?) = none := rfl
  rcases RunM.rounds_of_not_joined Rotation.matching Body.regular_rotating.unshared free
    Rotation.unvisited Rotation.founded Rotation.restless passes with
    ⟨dirty, last, -, rounds, unsettled⟩
  have exhausted := @run_of_rounds Config.plain.versioner .rotating 0 _ _ _ _ valid entered
    Rotation.seeds rounds unsettled
  exact converges _ (congrArg RunResult.outcome exhausted)

end SlotVersioning
