import SlotVersioning.Proofs.Exits.Paths

/-!
# Exits that nest too deep

Resolving an exit is refused exactly when exits nest deeper than the limit allows: when a chain of
exits with facts on their edges is longer than what is left of the limit (`exitFactsAt_refused_iff`).
The paths may lead back to an exit that is already being resolved. Without such a chain the exit is
resolved, so nothing else is ever refused.
-/

namespace SlotVersioning

namespace Tables

variable {tables : Tables} {graph : FlowGraph} {config : Config} {destination : NodeId}

/-! ## One step -/

/-- The limit is the only reason to refuse an exit. -/
theorem exitFacts_ok_or_refused (depth : Nat) (node exit : NodeId) :
    (∃ facts, tables.exitFacts graph config destination depth node exit = .ok facts) ∨
      tables.exitFacts graph config destination depth node exit =
        .error (.recursionLimit config.maxFinallyDepth) := by
  induction depth generalizing node exit with
  | zero => exact .inr rfl
  | succ depth induction =>
      cases listed : graph.shortPaths? exit with
      | none => exact .inl ⟨_, exitFacts_unrestricted (.inl listed)⟩
      | some paths =>
          by_cases present : (tables.edgeFacts? graph exit node).getD ∅ = ∅
          · exact .inl ⟨_, exitFacts_unrestricted (.inr present)⟩
          · rw [exitFacts_succ listed rfl present]
            cases gathers : gather (tables.sourceFacts graph config destination depth)
                (leadsElsewhere graph exit node destination) paths {} with
            | ok collected => exact .inl ⟨_, rfl⟩
            | error fault =>
                rcases gather_error gathers with ⟨path, -, fails⟩
                right
                unfold sourceFacts at fails
                split at fails
                · rcases induction path.entry path.source with ⟨facts, found⟩ | refused
                  · rw [found] at fails
                    cases fails
                  · rw [refused] at fails
                    cases fails
                    rfl
                · cases fails

private theorem exitFacts_refused_iff {depth : Nat} {node exit : NodeId} :
    tables.exitFacts graph config destination depth node exit =
        .error (.recursionLimit config.maxFinallyDepth) ↔
      ¬∃ facts, tables.exitFacts graph config destination depth node exit = .ok facts := by
  constructor
  · intro refused found
    rcases found with ⟨facts, found⟩
    rw [refused] at found
    cases found
  · exact (exitFacts_ok_or_refused depth node exit).resolve_left

/-- What a path brings is refused when it comes out of an exit that is refused. -/
private theorem sourceFacts_ok_iff {depth : Nat} {path : FinallyPath} :
    (∃ facts, tables.sourceFacts graph config destination depth path = .ok facts) ↔
      ((graph.shortPaths? path.source).isSome → ∃ facts,
        tables.exitFacts graph config destination depth path.entry path.source = .ok facts) := by
  unfold sourceFacts
  split
  · next nested =>
      cases tables.exitFacts graph config destination depth path.entry path.source <;>
        simp [nested, Functor.map, Except.map]
  · next stored => simp [stored]

/-- An exit is refused when its edge has facts and one of its paths comes out of an exit that is
refused with less depth. -/
theorem exitFacts_succ_refused_iff {depth : Nat} {node exit : NodeId} :
    tables.exitFacts graph config destination (depth + 1) node exit =
        .error (.recursionLimit config.maxFinallyDepth) ↔
      (tables.edgeFacts? graph exit node).getD ∅ ≠ ∅ ∧
        ∃ path ∈ (graph.shortPaths? exit).getD [], (graph.shortPaths? path.source).isSome ∧
          tables.exitFacts graph config destination depth path.entry path.source =
            .error (.recursionLimit config.maxFinallyDepth) := by
  cases listed : graph.shortPaths? exit with
  | none => simp [exitFacts_unrestricted (.inl listed)]
  | some paths =>
      by_cases present : (tables.edgeFacts? graph exit node).getD ∅ = ∅
      · simp [exitFacts_unrestricted (.inr present), present]
      · have resolved : (∃ facts,
            tables.exitFacts graph config destination (depth + 1) node exit = .ok facts) ↔
            ∀ path ∈ paths, ∃ facts,
              tables.sourceFacts graph config destination depth path = .ok facts := by
          rw [exitFacts_succ listed rfl present, ← gather_ok_iff]
          cases gather (tables.sourceFacts graph config destination depth)
            (leadsElsewhere graph exit node destination) paths {} <;>
            simp [Functor.map, Except.map]
        simp only [exitFacts_refused_iff, resolved, sourceFacts_ok_iff]
        simp [present]

/-! ## Chains -/

/-- Exits that are followed one out of the other, starting with the edge of the first one into its
entry: each next one is the source of a path of the one before, over which the path was entered. All
but the last have facts on their edge. -/
structure Nesting (tables : Tables) (graph : FlowGraph) (length : Nat)
    (exits entries : Nat → NodeId) : Prop where
  listed : ∀ index ≤ length, (graph.shortPaths? (exits index)).isSome
  path : ∀ index < length, ∃ path ∈ (graph.shortPaths? (exits index)).getD [],
    path.source = exits (index + 1) ∧ path.entry = entries (index + 1)
  brings : ∀ index < length,
    (tables.edgeFacts? graph (exits index) (entries index)).getD ∅ ≠ ∅

/-- A sequence with one more node in front. -/
def inFront (first : NodeId) (rest : Nat → NodeId) : Nat → NodeId
  | 0 => first
  | index + 1 => rest index

namespace Nesting

variable {length : Nat} {exits entries : Nat → NodeId}

/-- The chain without its first exit. -/
private theorem inner (nesting : tables.Nesting graph (length + 1) exits entries) :
    tables.Nesting graph length (exits <| · + 1) (entries <| · + 1) where
  listed := fun index bound => nesting.listed (index + 1) (Nat.succ_le_succ bound)
  path := fun index bound => nesting.path (index + 1) (Nat.succ_lt_succ bound)
  brings := fun index bound => nesting.brings (index + 1) (Nat.succ_lt_succ bound)

/-- The chain with one more exit in front. -/
private theorem extend {node exit : NodeId} {path : FinallyPath}
    (nesting : tables.Nesting graph length exits entries)
    (present : (tables.edgeFacts? graph exit node).getD ∅ ≠ ∅)
    (listed : path ∈ (graph.shortPaths? exit).getD []) (source : path.source = exits 0)
    (entry : path.entry = entries 0) :
    tables.Nesting graph (length + 1) (inFront exit exits) (inFront node entries) where
  listed := by
    intro index bound
    cases index with
    | zero =>
        cases paths : graph.shortPaths? exit with
        | none => simp [paths] at listed
        | some paths => simp [inFront, paths]
    | succ index => exact nesting.listed index (Nat.le_of_succ_le_succ bound)
  path := by
    intro index bound
    cases index with
    | zero => exact ⟨path, listed, source, entry⟩
    | succ index => exact nesting.path index (Nat.lt_of_succ_lt_succ bound)
  brings := by
    intro index bound
    cases index with
    | zero => exact present
    | succ index => exact nesting.brings index (Nat.lt_of_succ_lt_succ bound)

end Nesting

/-- An exit is refused exactly when exits nest as deep as it may be resolved. -/
private theorem exitFacts_refused_iff_nesting {depth : Nat} {node exit : NodeId}
    (listed : (graph.shortPaths? exit).isSome) :
    tables.exitFacts graph config destination depth node exit =
        .error (.recursionLimit config.maxFinallyDepth) ↔
      ∃ exits entries, exits 0 = exit ∧ entries 0 = node ∧
        tables.Nesting graph depth exits entries := by
  induction depth generalizing node exit with
  | zero =>
      constructor
      · intro _
        refine ⟨fun _ => exit, fun _ => node, rfl, rfl, ?_⟩
        exact ⟨fun _ _ => listed, fun _ => nofun, fun _ => nofun⟩
      · exact fun _ => rfl
  | succ depth induction =>
      rw [exitFacts_succ_refused_iff]
      constructor
      · rintro ⟨present, path, member, known, refused⟩
        rcases (induction known).1 refused with ⟨exits, entries, source, entry, nesting⟩
        exact ⟨_, _, rfl, rfl, nesting.extend present member source.symm entry.symm⟩
      · rintro ⟨exits, entries, rfl, rfl, nesting⟩
        rcases nesting.path 0 (Nat.succ_pos depth) with ⟨path, member, source, entry⟩
        have known : (graph.shortPaths? path.source).isSome := by
          rw [source]
          exact nesting.listed 1 (Nat.succ_le_succ (Nat.zero_le depth))
        refine ⟨nesting.brings 0 (Nat.succ_pos depth), path, member, known, ?_⟩
        exact (induction known).2 ⟨_, _, source.symm, entry.symm, nesting.inner⟩

/-- With `level` exits resolved on the way, an exit is refused exactly when there is a chain of as
many more exits as the limit leaves, and one. Otherwise it is resolved. -/
theorem exitFactsAt_refused_iff (tables : Tables) (graph : FlowGraph) (config : Config)
    (destination node exit : NodeId) {level : Nat} (within : level ≤ config.maxFinallyDepth) :
    (tables.exitFactsAt graph config destination level node exit =
        .error (.recursionLimit config.maxFinallyDepth) ↔
      ∃ exits entries, exits 0 = exit ∧ entries 0 = node ∧
        tables.Nesting graph (config.maxFinallyDepth - level + 1) exits entries) ∧
      ((¬∃ exits entries, exits 0 = exit ∧ entries 0 = node ∧
          tables.Nesting graph (config.maxFinallyDepth - level + 1) exits entries) →
        ∃ facts, tables.exitFactsAt graph config destination level node exit = .ok facts) := by
  have left : config.maxFinallyDepth + 1 - level = config.maxFinallyDepth - level + 1 := by omega
  have refused : tables.exitFactsAt graph config destination level node exit =
        .error (.recursionLimit config.maxFinallyDepth) ↔
      ∃ exits entries, exits 0 = exit ∧ entries 0 = node ∧
        tables.Nesting graph (config.maxFinallyDepth - level + 1) exits entries := by
    unfold exitFactsAt
    rw [left]
    cases listed : graph.shortPaths? exit with
    | some paths => exact exitFacts_refused_iff_nesting (by simp [listed])
    | none =>
        rw [exitFacts_unrestricted (.inl listed)]
        constructor
        · exact nofun
        · rintro ⟨exits, entries, rfl, rfl, nesting⟩
          have known := nesting.listed 0 (Nat.zero_le _)
          simp [listed] at known
  refine ⟨refused, fun shallow => ?_⟩
  apply (exitFacts_ok_or_refused _ node exit).resolve_right
  exact fun fails => shallow (refused.1 fails)

/-- The exit `3` has two paths; one of them comes out of the exit itself. -/
def circularExit : FlowGraph where
  shortPaths := Std.ExtTreeMap.empty.insert 3 [⟨1, 5, 2⟩, ⟨3, 4, 3⟩]

/-- Facts on the edges out of the exit `3`. -/
def circularFacts : Tables where
  outFacts := Std.ExtTreeMap.empty.insert 3 (.ofList [(0, .ofList [1])])

theorem exitFactsAt_refused_circular :
    1 ≤ Config.plain.maxFinallyDepth ∧
      circularFacts.exitFactsAt circularExit .plain 4 1 4 3 =
        .error (.recursionLimit Config.plain.maxFinallyDepth) := by
  have within : 1 ≤ Config.plain.maxFinallyDepth := by decide
  refine ⟨within, (exitFactsAt_refused_iff _ _ _ 4 4 3 within).1.2 ?_⟩
  refine ⟨fun _ => 3, inFront 4 fun _ => 3, rfl, rfl, ?_, ?_, ?_⟩
  · intro index _
    simp [FlowGraph.shortPaths?, circularExit]
  · intro index _
    exact ⟨⟨3, 4, 3⟩, by simp [FlowGraph.shortPaths?, circularExit], rfl, rfl⟩
  · intro index _
    have stored : circularFacts.edgeFacts? circularExit 3 (inFront 4 (fun _ => 3) index) =
        some (.ofList [(0, .ofList [1])]) := by
      simp [edgeFacts?, FlowGraph.negativeBranch?, circularExit, circularFacts]
    rw [stored]
    decide

end Tables

end SlotVersioning
