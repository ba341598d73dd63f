import SlotVersioning.Facts.Lemmas
import SlotVersioning.Proofs.Version.Operations

/-!
# Facts as functions

Facts stand for the function that tells the versions of every slot (`denoted`), none of them for a
slot that is not stored. Every operation does to the function what it says, slot by slot. So
whatever sequence of operations built them, facts in registers stand for the functions that the same
sequence builds, store a slot exactly when it has versions, and are equal exactly when the functions
are (`refines_functions`).
-/

namespace SlotVersioning

open Std

namespace Facts

variable {facts other : Facts} {slot : Slot}

/-! ## Functions -/

def denoted (facts : Facts) (slot : Slot) : Finset Version := (facts.reaching slot).members

theorem denoted_inj : facts.denoted = other.denoted ↔ facts = other := by
  constructor
  · intro same
    exact ext fun slot => VersionSet.members_inj.1 (congrFun same slot)
  · rintro rfl
    rfl

theorem denoted_eq_empty_iff : facts.denoted slot = ∅ ↔ facts.reaching slot = ∅ := by
  rw [denoted, ← VersionSet.members_empty, VersionSet.members_inj]

@[simp] theorem denoted_empty : (∅ : Facts).denoted = fun _ => ∅ :=
  funext fun slot => congrArg VersionSet.members (reaching_empty slot)

@[simp] theorem denoted_put (facts : Facts) (slot : Slot) (versions : VersionSet) :
    (facts.put slot versions).denoted = Function.update facts.denoted slot versions.members := by
  funext other
  rw [denoted, reaching_put, Function.update_apply]
  exact apply_ite VersionSet.members _ _ _

@[simp] theorem denoted_erase (facts : Facts) (slot : Slot) :
    (facts.erase slot).denoted = Function.update facts.denoted slot ∅ := by
  funext other
  rw [denoted, reaching_erase, Function.update_apply]
  exact apply_ite VersionSet.members _ _ _

/-- The function that gives each slot the versions of its last pair. -/
def assigned (pairs : List (Slot × VersionSet)) : Slot → Finset Version :=
  pairs.foldl (fun function pair => Function.update function pair.1 pair.2.members) fun _ => ∅

@[simp] theorem denoted_ofList (pairs : List (Slot × VersionSet)) :
    (ofList pairs).denoted = assigned pairs := by
  rw [assigned, ← denoted_empty, ofList]
  refine (List.foldl_hom denoted fun facts pair => ?_).symm
  exact (denoted_put facts pair.1 pair.2).symm

@[simp] theorem denoted_withoutFields (facts : Facts) :
    facts.withoutFields.denoted = fun slot => if slot < 0 then ∅ else facts.denoted slot := by
  funext slot
  rw [denoted, reaching_withoutFields]
  simp only [← Int.not_lt, ite_not]
  exact (apply_ite VersionSet.members _ _ _).trans (if_congr Iff.rfl VersionSet.members_empty rfl)

@[simp] theorem denoted_union (left right : Facts) :
    (left ∪ right).denoted = fun slot => left.denoted slot ∪ right.denoted slot := by
  funext slot
  rw [denoted, reaching_union]
  exact VersionSet.members_absorb

@[simp] theorem denoted_inter (left right : Facts) :
    (left ∩ right).denoted = fun slot => left.denoted slot ∩ right.denoted slot := by
  funext slot
  rw [denoted, reaching_inter]
  exact VersionSet.members_restrict

@[simp] theorem denoted_sdiff (left right : Facts) :
    (left \ right).denoted = fun slot => left.denoted slot \ right.denoted slot := by
  funext slot
  rw [denoted, reaching_sdiff]
  exact VersionSet.members_exclude

/-! ## Sequences of operations -/

/-- What can be done to facts in a register; an operand is another register. -/
inductive Operation
  | collect (pairs : List (Slot × VersionSet))
  | put (slot : Slot) (versions : VersionSet)
  | erase (slot : Slot)
  | withoutFields
  | union (operand : Nat)
  | inter (operand : Nat)
  | sdiff (operand : Nat)

/-- The new facts, and the versions that were taken out. -/
def Operation.perform (registers : Nat → Facts) (facts : Facts) :
    Operation → Facts × Option VersionSet
  | collect pairs => (ofList pairs, none)
  | put slot versions => (facts.put slot versions, none)
  | erase slot => (facts.erase slot, facts.get? slot)
  | withoutFields => (facts.withoutFields, none)
  | union operand => (facts ∪ registers operand, none)
  | inter operand => (facts ∩ registers operand, none)
  | sdiff operand => (facts \ registers operand, none)

/-- The versions of a slot, unless there are none. -/
def known (function : Slot → Finset Version) (slot : Slot) : Option (Finset Version) :=
  if function slot = ∅ then none else some (function slot)

/-- The same operation on functions. -/
def Operation.describe (registers : Nat → Slot → Finset Version)
    (function : Slot → Finset Version) :
    Operation → (Slot → Finset Version) × Option (Finset Version)
  | collect pairs => (assigned pairs, none)
  | put slot versions => (Function.update function slot versions.members, none)
  | erase slot => (Function.update function slot ∅, known function slot)
  | withoutFields => (fun slot => if slot < 0 then ∅ else function slot, none)
  | union operand => (fun slot => function slot ∪ registers operand slot, none)
  | inter operand => (fun slot => function slot ∩ registers operand slot, none)
  | sdiff operand => (fun slot => function slot \ registers operand slot, none)

theorem map_members_get? (facts : Facts) (slot : Slot) :
    (facts.get? slot).map VersionSet.members = known facts.denoted slot := by
  rw [get?_eq, known]
  simp only [denoted_eq_empty_iff]
  split <;> rfl

private theorem Operation.describe_denoted (registers : Nat → Facts) (facts : Facts)
    (operation : Operation) :
    operation.describe (denoted ∘ registers) facts.denoted =
      (operation.perform registers facts).map denoted (Option.map VersionSet.members) := by
  cases operation <;> simp [describe, perform, map_members_get?]

/-- The facts after a sequence of operations on empty registers, and the versions taken out. -/
def built (operations : List (Nat × Operation)) : (Nat → Facts) × List (Option VersionSet) :=
  Registers.run Operation.perform operations fun _ => ∅

/-- The functions after the same sequence, and the versions taken out of them. -/
def described (operations : List (Nat × Operation)) :
    (Nat → Slot → Finset Version) × List (Option (Finset Version)) :=
  Registers.run Operation.describe operations fun _ _ => ∅

private theorem described_eq (operations : List (Nat × Operation)) :
    described operations = (built operations).map (denoted ∘ ·)
      (List.map (Option.map VersionSet.members)) := by
  have start : (fun _ _ => ∅ : Nat → Slot → Finset Version) = denoted ∘ fun _ => ∅ :=
    funext fun _ => denoted_empty.symm
  rw [described, start, Registers.run_view denoted _ Operation.describe_denoted]
  rfl

/-- Everything that facts tell is what the function tells. -/
structure Denotes (facts : Facts) (function : Slot → Finset Version) : Prop where
  stored : ∀ slot, (facts.get? slot).map VersionSet.members = known function slot
  contains : ∀ slot, facts.contains slot = true ↔ function slot ≠ ∅
  ascending : (facts.toList.map Prod.fst).Pairwise (· < ·)
  listed : ∀ slot versions, (slot, versions) ∈ facts.toList ↔
    versions ≠ ∅ ∧ versions.members = function slot
  isEmpty : facts.isEmpty = true ↔ ∀ slot, function slot = ∅

private theorem contains_iff : facts.contains slot = true ↔ facts.denoted slot ≠ ∅ := by
  rw [Ne, denoted_eq_empty_iff, ← Ne, ← mem_slots]
  exact ExtTreeMap.mem_keys.symm

theorem mem_toList_iff {versions : VersionSet} :
    (slot, versions) ∈ facts.toList ↔ versions ≠ ∅ ∧ versions.members = facts.denoted slot := by
  rw [toList_eq, denoted, VersionSet.members_inj]
  simp only [List.mem_map, mem_slots, Prod.mk.injEq]
  constructor
  · rintro ⟨_, known, rfl, rfl⟩
    exact ⟨known, rfl⟩
  · rintro ⟨some, rfl⟩
    exact ⟨slot, some, rfl, rfl⟩

private theorem denotes_denoted (facts : Facts) : facts.Denotes facts.denoted where
  stored := facts.map_members_get?
  contains := fun _ => contains_iff
  ascending := by
    rw [toList_eq, List.map_map]
    exact (List.map_id _).symm ▸ facts.slots_ascending
  listed := fun _ _ => mem_toList_iff
  isEmpty := by rw [isEmpty_iff, ← denoted_inj, denoted_empty, funext_iff]

/-- Facts behave as the functions that the same operations build, never store a slot without
versions, and have one representation for each function. -/
theorem refines_functions (operations others : List (Nat × Operation)) (register operand : Nat) :
    (built operations).2.map (Option.map VersionSet.members) = (described operations).2 ∧
      ((built operations).1 register).Denotes ((described operations).1 register) ∧
      ((built operations).1 register = (built others).1 operand ↔
        (described operations).1 register = (described others).1 operand) := by
  rw [described_eq, described_eq]
  exact ⟨rfl, denotes_denoted _, denoted_inj.symm⟩

end Facts

end SlotVersioning
