import Mathlib.Data.List.Sort
import Mathlib.Data.Nat.Bitwise
import SlotVersioning.Version.Set.Lemmas

/-!
# Enumerating version sets

A cursor hands out exactly the members of its set, in ascending order (`yields_iff`). Taking one off
the dense word and keeping the common bits clears the lowest bit (`getLsbD_clearLowest`), so each
step hands out the first version of the ascending list that is left (`Cursor.next?_eq`).
-/

namespace SlotVersioning

namespace VersionSet

/-! ## The lowest bit -/

section

variable {width : Nat} {word : BitVec width}

/-- Below the lowest bit there is nothing, and the bit itself is odd among the rest. -/
private theorem toNat_eq_of_ne_zero (nonzero : word ≠ 0) :
    ∃ half, word.toNat = 2 ^ word.ctz.toNat * (2 * half + 1) := by
  have below : word.toNat % 2 ^ word.ctz.toNat = 0 := by
    refine Nat.eq_of_testBit_eq fun position => ?_
    rw [Nat.testBit_mod_two_pow, Nat.zero_testBit, Bool.and_eq_false_imp, decide_eq_true_iff]
    exact BitVec.getLsbD_false_of_lt_ctz
  have odd : word.toNat / 2 ^ word.ctz.toNat % 2 = 1 := by
    have bit := BitVec.getLsbD_true_ctz_of_ne_zero nonzero
    rwa [BitVec.getLsbD, ← Nat.zero_add word.ctz.toNat, ← Nat.testBit_div_two_pow,
      Nat.testBit_zero, decide_eq_true_iff] at bit
  refine ⟨word.toNat / 2 ^ word.ctz.toNat / 2, ?_⟩
  have split := Nat.div_add_mod word.toNat (2 ^ word.ctz.toNat)
  rw [below, Nat.add_zero] at split
  rw [← odd, Nat.div_add_mod, split]

private theorem toNat_sub_one (nonzero : word ≠ 0) : (word - 1).toNat = word.toNat - 1 := by
  have positive : 0 < word.toNat :=
    Nat.pos_of_ne_zero fun zero => nonzero (BitVec.eq_of_toNat_eq zero)
  have one : (1 : BitVec width).toNat = 1 :=
    Nat.mod_eq_of_lt (Nat.lt_of_le_of_lt positive word.isLt)
  rw [BitVec.toNat_sub_of_le (BitVec.le_def.2 (one.symm ▸ positive)), one]

theorem getLsbD_clearLowest (nonzero : word ≠ 0) (position : Nat) :
    (word &&& (word - 1)).getLsbD position =
      (word.getLsbD position && decide (position ≠ word.ctz.toNat)) := by
  rcases toNat_eq_of_ne_zero nonzero with ⟨half, whole⟩
  have power := Nat.two_pow_pos word.ctz.toNat
  have less : (word - 1).toNat =
      2 ^ word.ctz.toNat * (2 * half) + (2 ^ word.ctz.toNat - 1) := by
    rw [toNat_sub_one nonzero, whole, Nat.mul_add, Nat.mul_one, Nat.add_sub_assoc power]
  rw [BitVec.getLsbD_and]
  unfold BitVec.getLsbD
  rw [less, Nat.testBit_two_pow_mul_add _ (Nat.sub_lt power Nat.one_pos), whole,
    Nat.testBit_two_pow_mul]
  rcases Nat.lt_trichotomy position word.ctz.toNat with below | same | above
  · simp [Nat.not_le.2 below]
  · simp [same]
  · -- Above the lowest bit the halves of both numbers agree.
    rcases Nat.exists_eq_add_of_lt above with ⟨gap, rfl⟩
    have shift : word.ctz.toNat + gap + 1 - word.ctz.toNat = gap + 1 := by omega
    have double : (2 * half + 1) / 2 = half := by omega
    simp [shift, Nat.testBit_succ, double, Nat.le_of_lt above, Nat.not_lt_of_gt above,
      Nat.ne_of_gt above]

end

/-! ## What is left to hand out -/

/-- The set bits of a dense word in ascending order. -/
def bits (word : BitVec denseBound) : List Nat :=
  (List.range denseBound).filter fun version => word.getLsbD version

theorem mem_bits {word : BitVec denseBound} {version : Nat} :
    version ∈ bits word ↔ word.getLsbD version = true := by
  unfold bits
  rw [List.mem_filter, List.mem_range, and_iff_right_iff_imp]
  exact BitVec.lt_of_getLsbD

private theorem bits_ascending (word : BitVec denseBound) : (bits word).Pairwise (· < ·) :=
  List.pairwise_lt_range.filter _

private theorem bits_eq_cons {word : BitVec denseBound} (nonzero : word ≠ 0) :
    bits word = word.ctz.toNat :: bits (word &&& (word - 1)) := by
  have lowest := BitVec.getLsbD_true_ctz_of_ne_zero nonzero
  have cleared (version : Nat) : version ∈ bits (word &&& (word - 1)) ↔
      version ∈ bits word ∧ version ≠ word.ctz.toNat := by
    rw [mem_bits, mem_bits, getLsbD_clearLowest nonzero, Bool.and_eq_true, decide_eq_true_iff]
  refine (bits_ascending word).eq_of_mem_iff (List.pairwise_cons.2 ⟨?_, bits_ascending _⟩) ?_
  · intro version member
    rcases (cleared version).1 member with ⟨bit, different⟩
    refine Nat.lt_of_le_of_ne (Nat.le_of_not_lt fun below => ?_) different.symm
    exact Bool.false_ne_true ((BitVec.getLsbD_false_of_lt_ctz below).symm.trans (mem_bits.1 bit))
  · intro version
    rw [List.mem_cons, cleared]
    by_cases same : version = word.ctz.toNat
    · simp [same, mem_bits, lowest]
    · simp [same]

namespace Cursor

/-- The cursor hands out these versions, one after the other, and then nothing. -/
inductive Yields : Cursor → List Nat → Prop
  | done {cursor : Cursor} (spent : cursor.next? = none) : Yields cursor []
  | next {cursor rest : Cursor} {version : Nat} {versions : List Nat}
      (found : cursor.next? = some (version, rest)) (yields : Yields rest versions) :
      Yields cursor (version :: versions)

/-- The versions that a cursor has still to hand out. -/
def remaining (cursor : Cursor) : List Nat := bits cursor.dense ++ cursor.large

/-- A step hands out the first version that is left. -/
theorem next?_eq (cursor : Cursor) :
    cursor.remaining = [] ∧ cursor.next? = none ∨
      ∃ version rest, cursor.next? = some (version, rest) ∧
        cursor.remaining = version :: rest.remaining := by
  unfold next? remaining
  by_cases nonzero : cursor.dense ≠ 0
  · rw [if_pos nonzero, bits_eq_cons nonzero]
    exact .inr ⟨_, _, rfl, rfl⟩
  · have nothing : bits cursor.dense = [] := by
      rw [not_not.1 nonzero]
      decide
    rw [if_neg nonzero, nothing]
    cases left : cursor.large with
    | nil => exact .inl ⟨rfl, rfl⟩
    | cons version rest =>
        refine .inr ⟨version, ⟨cursor.dense, rest⟩, rfl, ?_⟩
        rw [nothing]
        rfl

private theorem yields_remaining (cursor : Cursor) : cursor.Yields cursor.remaining := by
  generalize left : cursor.remaining = versions
  induction versions generalizing cursor with
  | nil =>
      rcases cursor.next?_eq with ⟨-, spent⟩ | ⟨version, rest, -, more⟩
      · exact .done spent
      · exact nomatch left.symm.trans more
  | cons head tail induction =>
      rcases cursor.next?_eq with ⟨empty, -⟩ | ⟨version, rest, found, more⟩
      · exact nomatch left.symm.trans empty
      · cases left.symm.trans more
        exact .next found (induction rest rfl)

/-- No two lists are handed out. -/
theorem Yields.unique {cursor : Cursor} {left right : List Nat} (first : cursor.Yields left)
    (second : cursor.Yields right) : left = right := by
  induction first generalizing right with
  | done spent =>
      cases second with
      | done => rfl
      | next found => exact nomatch spent.symm.trans found
  | next found yields induction =>
      cases second with
      | done spent => exact nomatch spent.symm.trans found
      | next other yields =>
          cases found.symm.trans other
          exact congrArg _ (induction yields)

end Cursor

/-- The enumeration of a set is the ascending list of its members. -/
theorem yields_iff {set : VersionSet} {versions : List Nat} :
    set.cursor.Yields versions ↔ versions = set.toList :=
  ⟨fun yields => yields.unique set.cursor.yields_remaining,
    fun same => same ▸ set.cursor.yields_remaining⟩

theorem first?_eq (set : VersionSet) : set.first? = set.toList.head? := by
  have listed : set.toList = set.cursor.remaining := rfl
  unfold first?
  rw [listed]
  rcases set.cursor.next?_eq with ⟨empty, spent⟩ | ⟨version, rest, found, more⟩
  · rw [empty, spent]
    rfl
  · rw [more, found]
    rfl

end VersionSet

end SlotVersioning
