import Mathlib.Data.List.Induction
import Mathlib.Logic.Function.Basic

/-!
# Operations in a row

`Registers`: values of one type stand in numbered registers. An operation edits one register, may
read the others and answers something. Two ways of carrying out the same operations agree after
every sequence of them when each operation commutes with a view of the one kind of value as the
other (`Registers.run_view`).

`Attempts`: requests edit a state in place, and one that fails keeps what it had edited by then. The
next one goes on from there, so what every request keeps holds after any requests
(`Attempts.run_keeps`). A request that amounts to one checked edit either succeeds or leaves the
state (`Attempts.checked`).
-/

namespace SlotVersioning

namespace Registers

variable {value other operation answer response : Type}

/-- Carries out operations one after the other, each on its register, and lists the answers.
`perform` tells what an operation makes of a value, given all registers. -/
def run (perform : (Nat → value) → value → operation → value × answer) :
    List (Nat × operation) → (Nat → value) → (Nat → value) × List answer
  | [], registers => (registers, [])
  | (register, operation) :: rest, registers =>
      let edited := perform registers (registers register) operation
      let final := run perform rest (Function.update registers register edited.1)
      (final.1, edited.2 :: final.2)

/-- Operations that commute with a view one by one commute with it in a row. -/
theorem run_view {perform : (Nat → value) → value → operation → value × answer}
    {describe : (Nat → other) → other → operation → other × response} (view : value → other)
    (reading : answer → response)
    (commutes : ∀ registers current operation,
      describe (view ∘ registers) (view current) operation =
        (perform registers current operation).map view reading)
    (operations : List (Nat × operation)) (registers : Nat → value) :
    run describe operations (view ∘ registers) =
      (run perform operations registers).map (view ∘ ·) (List.map reading) := by
  induction operations generalizing registers with
  | nil => rfl
  | cons head rest induction =>
      obtain ⟨register, operation⟩ := head
      have edited := commutes registers (registers register) operation
      simp only [run, Function.comp_apply, edited, Prod.map_fst, Prod.map_snd]
      rw [← Function.comp_update, induction]
      rfl

end Registers

namespace Attempts

variable {fault state answer request : Type}

/-- The state in which a request ends, whether or not it fails. -/
def reached : EStateM.Result fault state answer → state
  | .ok _ final | .error _ final => final

/-- The state after requests that are carried out one after the other, also after failed ones. -/
def run (perform : request → EStateM fault state answer) (requests : List request)
    (start : state) : state :=
  requests.foldl (fun current request => reached ((perform request).run current)) start

/-- An edit that is checked as a whole: it is carried out, or it is refused and changes nothing. -/
def checked (edit : state → Except fault (state × answer)) : EStateM fault state answer :=
  fun start =>
    match edit start with
    | .ok (final, answer) => .ok answer final
    | .error fault => .error fault start

theorem run_snoc (perform : request → EStateM fault state answer) (requests : List request)
    (last : request) (start : state) :
    run perform (requests ++ [last]) start =
      reached ((perform last).run (run perform requests start)) := by
  rw [run, List.foldl_append]
  rfl

/-- What every request keeps holds after any requests. -/
theorem run_keeps {perform : request → EStateM fault state answer} {motive : state → Prop}
    (keeps : ∀ request current, motive current → motive (reached ((perform request).run current)))
    (requests : List request) {start : state} (holds : motive start) :
    motive (run perform requests start) := by
  induction requests using List.reverseRecOn with
  | nil => exact holds
  | append_singleton requests last induction =>
      rw [run_snoc]
      exact keeps last _ induction

/-- Actions that end in the same way from every state are the same. -/
theorem ext {action other : EStateM fault state answer}
    (same : ∀ start, action.run start = other.run start) : action = other :=
  funext same

variable {edit : state → Except fault (state × answer)} {start final : state}

theorem run_checked (edit : state → Except fault (state × answer)) (start : state) :
    (checked edit).run start =
      match edit start with
      | .ok (final, answer) => .ok answer final
      | .error fault => .error fault start := rfl

theorem run_checked_of_ok {result : answer} (done : edit start = .ok (final, result)) :
    (checked edit).run start = .ok result final := by
  rw [run_checked, done]

theorem run_checked_of_error {reason : fault} (refused : edit start = .error reason) :
    (checked edit).run start = .error reason start := by
  rw [run_checked, refused]

/-- What an edit keeps when it is carried out is kept when it is refused, too. -/
theorem checked_keeps {motive : state → Prop}
    (keeps : ∀ final answer, edit start = .ok (final, answer) → motive final)
    (holds : motive start) : motive (reached ((checked edit).run start)) := by
  cases outcome : edit start with
  | error reason =>
      rw [run_checked_of_error outcome]
      exact holds
  | ok result =>
      rw [run_checked_of_ok outcome]
      exact keeps _ _ outcome

end Attempts

end SlotVersioning
