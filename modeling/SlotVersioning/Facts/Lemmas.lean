import SlotVersioning.Facts.Basic

/-!
# Facts and the functions they denote

Every operation on facts, described by the versions that reach each slot afterwards. Facts without
slots denote the empty function, and the listed slots are strictly ascending.
-/

namespace SlotVersioning

open Std

namespace Facts

/-! ## The list of slots -/

theorem slots_ascending (facts : Facts) : facts.slots.Pairwise (· < ·) := by
  have ordered : facts.slots.Pairwise fun left right => compare left right = .lt :=
    ExtTreeMap.ordered_keys
  exact ordered.imp fun less => Int.compare_eq_lt.1 less

theorem toList_eq (facts : Facts) :
    facts.toList = facts.slots.map fun slot => (slot, facts.reaching slot) := by
  rw [slots, ← ExtTreeMap.map_fst_toList_eq_keys, List.map_map]
  refine (List.map_id _).symm.trans (List.map_congr_left fun pair member => ?_)
  have stored : facts.get? pair.1 = some pair.2 :=
    ExtTreeMap.mem_toList_iff_getElem?_eq_some.1 member
  simp [reaching, stored]

theorem slots_nodup (facts : Facts) : facts.slots.Nodup :=
  facts.slots_ascending.imp Int.ne_of_lt

/-- The fields are the slots before the first one that is none. -/
theorem mem_takeWhile_field {slots : List Slot} (ascending : slots.Pairwise (· < ·))
    (slot : Slot) : slot ∈ slots.takeWhile (· < 0) ↔ slot ∈ slots ∧ slot < 0 := by
  induction slots with
  | nil => simp
  | cons head tail induction =>
      rw [List.pairwise_cons] at ascending
      rw [List.takeWhile_cons]
      by_cases field : head < 0
      · simp only [field, decide_true, if_true, List.mem_cons, induction ascending.2]
        constructor
        · rintro (rfl | ⟨member, negative⟩)
          · exact ⟨.inl rfl, field⟩
          · exact ⟨.inr member, negative⟩
        · rintro ⟨rfl | member, negative⟩
          · exact .inl rfl
          · exact .inr ⟨member, negative⟩
      · simp only [field, decide_false, Bool.false_eq_true, if_false, List.not_mem_nil, false_iff]
        rintro ⟨member, negative⟩
        rcases List.mem_cons.1 member with rfl | later
        · exact field negative
        · exact field (Int.lt_trans (ascending.1 slot later) negative)

/-! ## Slot by slot -/

theorem reaching_eq_empty {facts : Facts} {slot : Slot} (absent : slot ∉ facts.slots) :
    facts.reaching slot = ∅ := by
  simpa [mem_slots] using absent

/-- Different slots are edited one after the other, each by itself. -/
theorem reaching_foldl {edit : Facts → Slot → Facts} (change : Slot → VersionSet → VersionSet)
    (edited : ∀ facts changed slot, (edit facts changed).reaching slot =
      if slot = changed then change slot (facts.reaching slot) else facts.reaching slot)
    {slots : List Slot} (distinct : slots.Nodup) (start : Facts) (slot : Slot) :
    (slots.foldl edit start).reaching slot =
      if slot ∈ slots then change slot (start.reaching slot) else start.reaching slot := by
  induction slots generalizing start with
  | nil => rfl
  | cons head tail induction =>
      rw [List.nodup_cons] at distinct
      rw [List.foldl_cons, induction distinct.2, edited]
      by_cases here : slot = head
      · subst here
        simp [distinct.1]
      · simp [here]

theorem reaching_unionAt (facts : Facts) (entry : Slot × VersionSet) (slot : Slot) :
    (facts.unionAt entry).reaching slot =
      if slot = entry.1 then facts.reaching slot ∪ entry.2 else facts.reaching slot := by
  unfold unionAt
  split
  · next ours stored =>
      rw [reaching_put]
      refine ite_congr rfl (fun same => ?_) fun _ => rfl
      rw [reaching, same, stored, Option.getD_some]
  · next unknown =>
      rw [reaching_put]
      refine ite_congr rfl (fun same => ?_) fun _ => rfl
      rw [reaching, same, unknown, Option.getD_none]
      exact VersionSet.ext fun version => by simp

theorem reaching_interAt (other facts : Facts) (edited slot : Slot) :
    (interAt other facts edited).reaching slot =
      if slot = edited then facts.reaching slot ∩ other.reaching slot
      else facts.reaching slot := by
  unfold interAt
  split
  · next ours theirs stored held =>
      rw [reaching_put]
      refine ite_congr rfl (fun same => ?_) fun _ => rfl
      rw [reaching, reaching, same, stored, held, Option.getD_some, Option.getD_some]
  · next missing =>
      rw [reaching_erase]
      refine ite_congr rfl (fun same => ?_) fun _ => rfl
      rw [reaching, reaching, same]
      refine VersionSet.ext fun version => ?_
      rw [VersionSet.mem_inter]
      cases stored : facts.get? edited with
      | none => simp
      | some ours =>
          cases held : other.get? edited with
          | none => simp
          | some theirs => exact (missing ours theirs stored held).elim

theorem reaching_sdiffAt (facts : Facts) (entry : Slot × VersionSet) (slot : Slot) :
    (facts.sdiffAt entry).reaching slot =
      if slot = entry.1 then facts.reaching slot \ entry.2 else facts.reaching slot := by
  unfold sdiffAt
  split
  · next ours stored =>
      rw [reaching_put]
      refine ite_congr rfl (fun same => ?_) fun _ => rfl
      rw [reaching, same, stored, Option.getD_some]
  · next unknown =>
      split
      · next same =>
          rw [reaching, same, unknown, Option.getD_none]
          exact VersionSet.ext fun version => by simp
      · rfl

/-- The entries of other facts are worked in one after the other. -/
theorem reaching_foldl_toList {edit : Facts → Slot × VersionSet → Facts}
    {change : VersionSet → VersionSet → VersionSet}
    (edited : ∀ facts entry slot, (edit facts entry).reaching slot =
      if slot = entry.1 then change (facts.reaching slot) entry.2 else facts.reaching slot)
    (nothing : ∀ ours, change ours ∅ = ours) (facts other : Facts) (slot : Slot) :
    (other.toList.foldl edit facts).reaching slot =
      change (facts.reaching slot) (other.reaching slot) := by
  rw [toList_eq, List.foldl_map]
  refine (reaching_foldl (fun slot ours => change ours (other.reaching slot))
    (fun facts changed slot => ?_) other.slots_nodup facts slot).trans ?_
  · rw [edited]
    exact ite_congr rfl (fun same => by rw [same]) fun _ => rfl
  · split
    · rfl
    · next unknown => rw [reaching_eq_empty unknown, nothing]

@[simp] theorem reaching_union (left right : Facts) (slot : Slot) :
    (left ∪ right).reaching slot = left.reaching slot ∪ right.reaching slot :=
  reaching_foldl_toList reaching_unionAt
    (fun _ => VersionSet.ext fun version => by simp) left right slot

@[simp] theorem reaching_sdiff (left right : Facts) (slot : Slot) :
    (left \ right).reaching slot = left.reaching slot \ right.reaching slot :=
  reaching_foldl_toList reaching_sdiffAt
    (fun _ => VersionSet.ext fun version => by simp) left right slot

@[simp] theorem reaching_inter (left right : Facts) (slot : Slot) :
    (left ∩ right).reaching slot = left.reaching slot ∩ right.reaching slot := by
  refine (reaching_foldl (fun slot ours => ours ∩ right.reaching slot)
    (reaching_interAt right) left.slots_nodup left slot).trans ?_
  split
  · rfl
  · next unknown =>
      rw [reaching_eq_empty unknown]
      exact VersionSet.ext fun version => by simp

@[simp] theorem reaching_withoutFields (facts : Facts) (slot : Slot) :
    facts.withoutFields.reaching slot = if 0 ≤ slot then facts.reaching slot else ∅ := by
  have distinct := facts.slots_nodup.sublist (List.takeWhile_sublist (· < 0))
  refine (reaching_foldl (fun _ _ => ∅) reaching_erase distinct facts slot).trans ?_
  have fields := mem_takeWhile_field facts.slots_ascending slot
  by_cases ordinary : 0 ≤ slot
  · rw [if_neg fun field => absurd (fields.1 field).2 (Int.not_lt.2 ordinary), if_pos ordinary]
  · rw [if_neg ordinary]
    split
    · rfl
    · next outside =>
        exact reaching_eq_empty fun known => outside (fields.2 ⟨known, Int.not_le.1 ordinary⟩)

@[simp] theorem reaching_pin (facts : Facts) (slot other : Slot) (version : Version) :
    (facts.pin slot version).reaching other =
      if other = slot then {version} else facts.reaching other := reaching_put ..

theorem isEmpty_iff {facts : Facts} : facts.isEmpty = true ↔ facts = ∅ := by
  constructor
  · intro holds
    refine ext fun slot => ?_
    rw [isEmpty, ExtTreeMap.isEmpty_iff] at holds
    rw [reaching_empty, reaching, get?, holds]
    simp
  · intro equal
    subst equal
    rfl

end Facts

end SlotVersioning
