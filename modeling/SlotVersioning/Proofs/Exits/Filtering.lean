import SlotVersioning.Proofs.Exits.Depth

/-!
# What an exit lets through

Towards a node an exit lets through what its edge has and a path that leads to the node brings, or
no path brings that leads elsewhere, or the node knew already. An exit for a monitor or an exception
lets only the first through towards any node but its own, and does not look at its edge. `Filtered`
says this version by version.

Paths are only asked for their facts, so their order and their number do not matter
(`exitFacts_samePaths`).
-/

namespace SlotVersioning

namespace FlowGraph

/-- The exit of a copy for a monitor or an exception continues to another node. -/
def MonitorsOther (graph : FlowGraph) (exit node : NodeId) : Prop :=
  ∃ other, graph.monitorExit? exit = some other ∧ other ≠ node

/-- The graphs have the same paths at every exit, perhaps in another order or more than once, and
agree on where tests and exits continue. -/
structure SamePaths (graph other : FlowGraph) : Prop where
  negativeBranch : ∀ node, other.negativeBranch? node = graph.negativeBranch? node
  monitorExit : ∀ exit, other.monitorExit? exit = graph.monitorExit? exit
  exits : ∀ exit, (other.shortPaths? exit).isSome = (graph.shortPaths? exit).isSome
  short : ∀ exit path, path ∈ (other.shortPaths? exit).getD [] ↔
    path ∈ (graph.shortPaths? exit).getD []
  long : ∀ exit path, path ∈ other.longPathsOf exit ↔ path ∈ graph.longPathsOf exit

namespace SamePaths

variable {graph other : FlowGraph} (same : graph.SamePaths other)

include same

theorem mem_iff {exit : NodeId} {paths others : List FinallyPath}
    (listed : graph.shortPaths? exit = some paths) (relisted : other.shortPaths? exit = some others)
    (path : FinallyPath) : path ∈ others ↔ path ∈ paths := by
  have members := same.short exit path
  rw [listed, relisted] at members
  exact members

private theorem matching_iff {exit node destination : NodeId} {path : FinallyPath} :
    other.Matching exit node destination path ↔ graph.Matching exit node destination path := by
  unfold Matching
  simp only [same.exits, same.long]

end SamePaths

end FlowGraph

namespace Tables

/-- What is left of `facts` at an exit whose paths bring what `source` says. -/
structure Filtered (tables : Tables) (graph : FlowGraph) (destination node exit : NodeId)
    (source : FinallyPath → Except Fault (Option Facts)) (paths : List FinallyPath)
    (facts result : Facts) : Prop where
  resolved : ∀ path ∈ paths, ∃ brought, source path = .ok brought
  monitored : graph.MonitorsOther exit node → ∀ slot version,
    version ∈ result.reaching slot ↔
      ∃ path ∈ paths, graph.Matching exit node destination path ∧ Brings source path slot version
  restricted : ¬graph.MonitorsOther exit node → ∀ slot version,
    version ∈ result.reaching slot ↔
      version ∈ facts.reaching slot ∧
        ((∃ path ∈ paths, graph.Matching exit node destination path ∧
            Brings source path slot version) ∨
          (∀ path ∈ paths, ¬graph.Matching exit node destination path →
            ¬Brings source path slot version) ∨
          version ∈ ((tables.inFacts[node]?).getD ∅).reaching slot)

variable {tables : Tables} {graph other : FlowGraph} {config : Config} {destination : NodeId}
  {depth : Nat} {node exit : NodeId} {facts result : Facts} {paths : List FinallyPath}

section Gathered

variable {source : FinallyPath → Except Fault (Option Facts)} {collected : PathFacts}
  {slot : Slot} {version : Version}

theorem mem_leading_gathered
    (gathers : gather source (leadsElsewhere graph exit node destination) paths {} =
      .ok collected) :
    version ∈ collected.leading.reaching slot ↔
      ∃ path ∈ paths, graph.Matching exit node destination path ∧
        Brings source path slot version := by
  rw [mem_leading_gather gathers]
  simp only [Facts.reaching_empty, VersionSet.not_mem_empty, false_or, leadsElsewhere_eq_false_iff]

private theorem absent_elsewhere_gathered
    (gathers : gather source (leadsElsewhere graph exit node destination) paths {} =
      .ok collected) :
    (∀ facts ∈ collected.elsewhere, version ∉ facts.reaching slot) ↔
      ∀ path ∈ paths, ¬graph.Matching exit node destination path →
        ¬Brings source path slot version := by
  constructor
  · intro absent path listed apart brings
    rcases brings with ⟨facts, brought, member⟩
    rw [← leadsElsewhere_eq_false_iff, Bool.not_eq_false] at apart
    exact absent facts ((mem_elsewhere_gather gathers).2 (.inr ⟨path, listed, apart, brought⟩))
      member
  · intro absent facts member present
    rcases (mem_elsewhere_gather gathers).1 member with gone | ⟨path, listed, apart, brought⟩
    · cases gone
    · rw [← Bool.not_eq_false, leadsElsewhere_eq_false_iff] at apart
      exact absent path listed apart ⟨facts, brought, present⟩

end Gathered

theorem exitFacts_filtered (listed : graph.shortPaths? exit = some paths)
    (edge : (tables.edgeFacts? graph exit node).getD ∅ = facts) (present : facts ≠ ∅)
    (found : tables.exitFacts graph config destination (depth + 1) node exit = .ok result) :
    tables.Filtered graph destination node exit (tables.sourceFacts graph config destination depth)
      paths facts result := by
  rw [exitFacts_succ listed edge present] at found
  cases gathers : gather (tables.sourceFacts graph config destination depth)
      (leadsElsewhere graph exit node destination) paths {} with
  | error fault =>
      rw [gathers] at found
      cases found
  | ok collected =>
      rw [gathers] at found
      cases found
      have monitors : (graph.monitorExit? exit).any (· != node) = true ↔
          graph.MonitorsOther exit node := by
        unfold FlowGraph.MonitorsOther
        cases graph.monitorExit? exit <;> simp
      constructor
      · exact gather_ok_iff.1 ⟨collected, gathers⟩
      · intro other slot version
        rw [letThrough, if_pos (monitors.2 other)]
        exact mem_leading_gathered gathers
      · intro own slot version
        rw [letThrough, if_neg fun other => own (monitors.1 other), mem_passing,
          mem_leading_gathered gathers, absent_elsewhere_gathered gathers]

/-! ## Order and repetition -/

/-- What is left does not depend on the order and the number of the paths. -/
private theorem Filtered.eq {source : FinallyPath → Except Fault (Option Facts)}
    {others : List FinallyPath} {left : Facts} (same : graph.SamePaths other)
    (members : ∀ path, path ∈ others ↔ path ∈ paths)
    (filtered : tables.Filtered graph destination node exit source paths facts result)
    (again : tables.Filtered other destination node exit source others facts left) :
    left = result := by
  have monitors : other.MonitorsOther exit node ↔ graph.MonitorsOther exit node := by
    unfold FlowGraph.MonitorsOther
    rw [same.monitorExit]
  apply Facts.ext
  intro slot
  apply VersionSet.ext
  intro version
  by_cases monitored : graph.MonitorsOther exit node
  · rw [filtered.monitored monitored, again.monitored (monitors.2 monitored)]
    simp only [members, same.matching_iff]
  · rw [filtered.restricted monitored, again.restricted fun holds => monitored (monitors.1 holds)]
    simp only [members, same.matching_iff]

theorem edgeFacts?_samePaths (same : graph.SamePaths other) :
    tables.edgeFacts? other = tables.edgeFacts? graph := by
  funext source target
  unfold edgeFacts?
  rw [same.negativeBranch]

/-- Two graphs with the same paths find the same facts, when their paths bring the same. -/
private theorem exitFacts_eq_of_sources {left : Facts} (same : graph.SamePaths other)
    (sources : tables.sourceFacts other config destination depth =
      tables.sourceFacts graph config destination depth)
    (found : tables.exitFacts graph config destination (depth + 1) node exit = .ok result)
    (again : tables.exitFacts other config destination (depth + 1) node exit = .ok left) :
    left = result := by
  have edges : tables.edgeFacts? other = tables.edgeFacts? graph := edgeFacts?_samePaths same
  by_cases free : graph.shortPaths? exit = none ∨ (tables.edgeFacts? graph exit node).getD ∅ = ∅
  · have unlisted : other.shortPaths? exit = none ∨
        (tables.edgeFacts? other exit node).getD ∅ = ∅ := by
      rw [← Option.not_isSome_iff_eq_none, same.exits, Option.not_isSome_iff_eq_none, edges]
      exact free
    rw [exitFacts_unrestricted free] at found
    rw [exitFacts_unrestricted unlisted, edges] at again
    exact Except.ok.inj (again.symm.trans found)
  · rw [not_or, ← ne_eq, Option.ne_none_iff_exists'] at free
    rcases free with ⟨⟨paths, listed⟩, present⟩
    have known : (other.shortPaths? exit).isSome := by
      rw [same.exits, listed]
      rfl
    rcases Option.isSome_iff_exists.1 known with ⟨others, relisted⟩
    have filtered := exitFacts_filtered listed rfl present found
    have refiltered := exitFacts_filtered relisted rfl (by rw [edges]; exact present) again
    rw [sources, edges] at refiltered
    exact filtered.eq same (same.mem_iff listed relisted) refiltered

/-- Graphs with the same paths let the same facts through, or refuse the same exits. -/
theorem exitFacts_samePaths (same : graph.SamePaths other) :
    tables.exitFacts other config destination depth node exit =
      tables.exitFacts graph config destination depth node exit := by
  induction depth generalizing node exit with
  | zero => rfl
  | succ depth induction =>
      have sources : tables.sourceFacts other config destination depth =
          tables.sourceFacts graph config destination depth := by
        funext path
        unfold sourceFacts
        rw [same.exits, induction, edgeFacts?_samePaths same]
      have refused : tables.exitFacts other config destination (depth + 1) node exit =
            .error (.recursionLimit config.maxFinallyDepth) ↔
          tables.exitFacts graph config destination (depth + 1) node exit =
            .error (.recursionLimit config.maxFinallyDepth) := by
        simp only [exitFacts_succ_refused_iff, edgeFacts?_samePaths same, same.short, same.exits,
          induction]
      cases found : tables.exitFacts graph config destination (depth + 1) node exit with
      | error fault =>
          have fails := (exitFacts_ok_or_refused (depth + 1) node exit).resolve_left
            (by rw [found]; rintro ⟨facts, found⟩; cases found)
          rw [← found, fails, refused.2 fails]
      | ok result =>
          rcases exitFacts_ok_or_refused (depth + 1) node exit with ⟨left, again⟩ | fails
          · rw [again, exitFacts_eq_of_sources same sources found again]
          · rw [refused.1 fails] at found
            cases found

/-- Facts that are found at an exit are, version by version, those that `Filtered` tells; the paths
may be listed in another order or repeated. What comes over a path out of another exit is found with
one more exit resolved. -/
theorem exitFactsAt_filtered {level : Nat} (listed : graph.shortPaths? exit = some paths)
    (stored : tables.edgeFacts? graph exit node = some facts) (present : facts ≠ ∅)
    (found : tables.exitFactsAt graph config destination level node exit = .ok result) :
    tables.Filtered graph destination node exit
        (fun path => if (graph.shortPaths? path.source).isSome then
            some <$> tables.exitFactsAt graph config destination (level + 1) path.entry path.source
          else .ok (tables.edgeFacts? graph path.source path.entry))
        paths facts result ∧
      ∀ other, graph.SamePaths other →
        tables.exitFactsAt other config destination level node exit = .ok result := by
  have edge : (tables.edgeFacts? graph exit node).getD ∅ = facts := by rw [stored]; rfl
  constructor
  · unfold exitFactsAt at found
    cases left : config.maxFinallyDepth + 1 - level with
    | zero =>
        rw [left] at found
        cases found
    | succ depth =>
        rw [left] at found
        have deeper : config.maxFinallyDepth + 1 - (level + 1) = depth := by omega
        have filtered := exitFacts_filtered listed edge present found
        unfold exitFactsAt
        rw [deeper]
        exact filtered
  · intro other same
    unfold exitFactsAt at found ⊢
    rw [exitFacts_samePaths same, found]

/-- Two copies of a block share the exit `3`: one was entered at `2` from `0` and continues at `4`,
the other was entered from `1` and continues at `5`. -/
def sharedExit : FlowGraph where
  shortPaths := Std.ExtTreeMap.empty.insert 3 [⟨0, 4, 2⟩, ⟨1, 5, 2⟩]
  longPaths := Std.ExtTreeMap.empty.insert 3 [⟨0, 4, 2⟩, ⟨1, 5, 2⟩]

/-- A different version of the slot `0` comes from either side, and the block defines the slot
`1`. -/
def sharedFacts : Tables where
  outFacts := ((Std.ExtTreeMap.empty.insert 0 (.ofList [(0, .ofList [1])])).insert 1
    (.ofList [(0, .ofList [2])])).insert 3 (.ofList [(0, .ofList [1, 2]), (1, .ofList [1])])

theorem exitFactsAt_filtered_shared :
    sharedExit.shortPaths? 3 = some [⟨0, 4, 2⟩, ⟨1, 5, 2⟩] ∧
      sharedFacts.edgeFacts? sharedExit 3 4 =
        some (.ofList [(0, .ofList [1, 2]), (1, .ofList [1])]) ∧
      Facts.ofList [(0, .ofList [1, 2]), (1, .ofList [1])] ≠ ∅ ∧
      sharedFacts.exitFactsAt sharedExit .plain 4 0 4 3 =
        .ok (.ofList [(0, .ofList [1]), (1, .ofList [1])]) ∧
      ∀ other, sharedExit.SamePaths other → sharedFacts.exitFactsAt other .plain 4 0 4 3 =
        .ok (.ofList [(0, .ofList [1]), (1, .ofList [1])]) := by
  have listed : sharedExit.shortPaths? 3 = some [⟨0, 4, 2⟩, ⟨1, 5, 2⟩] := by decide
  have stored : sharedFacts.edgeFacts? sharedExit 3 4 =
      some (.ofList [(0, .ofList [1, 2]), (1, .ofList [1])]) := by decide
  have present : Facts.ofList [(0, .ofList [1, 2]), (1, .ofList [1])] ≠ ∅ := by decide
  have found : sharedFacts.exitFactsAt sharedExit .plain 4 0 4 3 =
      .ok (.ofList [(0, .ofList [1]), (1, .ofList [1])]) := by decide
  exact ⟨listed, stored, present, found, (exitFactsAt_filtered listed stored present found).2⟩

end Tables

end SlotVersioning
