import SlotVersioning.Proofs.Run.Inversion

/-!
# Loops

What holds of a loop when something holds of each of its steps: of a plain loop, of one whose steps
may fail, and of one in a run. A loop of a run over a list keeps a value in step with the entries
that are done (`RunM.forM_accumulates`); often the value is a list that grows with them
(`RunM.forM_appends`).
-/

namespace SlotVersioning

variable {α β : Type}

/-! ## Plain loops -/

/-- What relates the entries that are left to the value is kept until none is left. -/
theorem foldl_pending {step : β → α → β} {motive : List α → β → Prop}
    (each : ∀ head tail value, motive (head :: tail) value → motive tail (step value head))
    {list : List α} {start : β} (begin : motive list start) : motive [] (list.foldl step start) := by
  induction list generalizing start with
  | nil => exact begin
  | cons head tail induction => exact induction (each head tail start begin)

/-! ## Steps that may fail -/

namespace Fault

/-- A block that did not fail at its first step did not fail at the others. -/
theorem bind_ok {first : Except Fault α} {next : α → Except Fault β} {result : β}
    (run : first >>= next = .ok result) :
    ∃ value, first = .ok value ∧ next value = .ok result := by
  cases first with
  | error fault => exact nomatch run
  | ok value => exact ⟨value, rfl, run⟩

/-- A block fails at its first step or later. -/
theorem bind_error {first : Except Fault α} {next : α → Except Fault β} {fault : Fault}
    (fails : first >>= next = .error fault) :
    first = .error fault ∨ ∃ value, next value = .error fault := by
  cases first with
  | error early =>
      cases fails
      exact .inl rfl
  | ok value => exact .inr ⟨value, fails⟩

/-- A block succeeds when its steps do, in the same way as others. -/
theorem bind_recurs {first second : Except Fault α} {next other : α → Except Fault β} {result : β}
    (recurs : ∀ value, first = .ok value → second = .ok value)
    (later : ∀ value, next value = .ok result → other value = .ok result)
    (run : first >>= next = .ok result) : second >>= other = .ok result := by
  rcases bind_ok run with ⟨value, begun, run⟩
  rw [recurs value begun]
  exact later value run

variable {step other : β → α → Except Fault β} {list : List α} {start result : β}

/-- What every step keeps is kept by a loop that does not fail. -/
theorem foldlM_ok {motive : β → Prop}
    (each : ∀ value entry next, motive value → step value entry = .ok next → motive next)
    (begin : motive start) (run : list.foldlM step start = .ok result) : motive result := by
  induction list generalizing start with
  | nil =>
      cases run
      exact begin
  | cons head tail induction =>
      rw [List.foldlM_cons] at run
      rcases bind_ok run with ⟨next, stepped, rest⟩
      exact induction (each start head next begin stepped) rest

/-- A loop fails at one of its steps. -/
theorem foldlM_error {fault : Fault} (fails : list.foldlM step start = .error fault) :
    ∃ value entry, step value entry = .error fault := by
  induction list generalizing start with
  | nil => exact nomatch fails
  | cons head tail induction =>
      rw [List.foldlM_cons] at fails
      rcases bind_error fails with here | ⟨next, later⟩
      · exact ⟨start, head, here⟩
      · exact induction later

/-- A loop succeeds when its steps do, in the same way as others. -/
theorem foldlM_recurs
    (recurs : ∀ value entry next, step value entry = .ok next → other value entry = .ok next)
    (run : list.foldlM step start = .ok result) : list.foldlM other start = .ok result := by
  induction list generalizing start with
  | nil => exact run
  | cons head tail induction =>
      rw [List.foldlM_cons] at run ⊢
      exact bind_recurs (recurs start head) (fun _ => induction) run

end Fault

/-! ## Steps of a run -/

namespace RunM

variable {state final : RunState}

/-- What every step carries from one position to the next is carried to the end of a loop. -/
theorem foldlM_induction {step : β → α → RunM β} {motive : Nat → β → RunState → Prop}
    {list : List α} (first : Nat) {start result : β}
    (each : ∀ index entry value next before after, list[index]? = some entry →
      motive (first + index) value before → step value entry before = .ok next after →
        motive (first + index + 1) next after)
    (run : list.foldlM step start state = .ok result final) (begin : motive first start state) :
    motive (first + list.length) result final := by
  induction list generalizing first start state with
  | nil =>
      rcases pure_ok run with ⟨rfl, rfl⟩
      exact begin
  | cons head tail induction =>
      rw [List.foldlM_cons] at run
      rcases bind_ok run with ⟨next, middle, stepped, run⟩
      have once := each 0 head start next state middle rfl begin stepped
      have rest : motive (first + 1 + tail.length) result final := by
        refine induction (first + 1) (fun index entry value next before after found => ?_) run once
        have shifted := each (index + 1) entry value next before after found
        rw [Nat.add_comm index, ← Nat.add_assoc first] at shifted
        exact shifted
      rw [Nat.add_right_comm] at rest
      exact rest

section

variable {action : α → RunM Unit} {list : List α} (run : list.forM action state = .ok () final)

include run

/-- An action that is done for all entries of a list is done for each. -/
theorem forM_each {value : α} (member : value ∈ list) :
    ∃ before after, action value before = .ok () after := by
  induction list generalizing state with
  | nil => exact nomatch member
  | cons head tail induction =>
      rcases bind_ok run with ⟨_, middle, first, run⟩
      rcases List.mem_cons.1 member with rfl | later
      · exact ⟨state, middle, first⟩
      · exact induction run later

/-- What every step adds to a value is added by all steps. -/
theorem forM_accumulates {motive : β → RunState → Prop} {add : β → α → β}
    (each : ∀ entry value before after, motive value before → action entry before = .ok () after →
      motive (add value entry) after)
    {value : β} (begin : motive value state) : motive (list.foldl add value) final := by
  induction list generalizing value state with
  | nil =>
      rcases pure_ok run with ⟨-, rfl⟩
      exact begin
  | cons head tail induction =>
      rcases bind_ok run with ⟨_, middle, first, run⟩
      exact induction run (each head value state middle begin first)

theorem forM_appends {motive : List β → RunState → Prop} {listed : α → List β}
    (each : ∀ entry done before after, motive done before → action entry before = .ok () after →
      motive (done ++ listed entry) after)
    {done : List β} (begin : motive done state) : motive (done ++ list.flatMap listed) final := by
  have appended := forM_accumulates run each begin
  rw [List.foldl_append_eq_append, ← List.flatMap_def] at appended
  exact appended

end

end RunM

end SlotVersioning
