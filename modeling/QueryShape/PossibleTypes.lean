/-!
# Sets of object types

Object types are numbered in the order of their definitions. A selection applies to
a set of them: the object types that its value may have when the query is answered.

## What this module delivers

- `ObjectId`: the number of an object type.
- `PossibleTypes`: a set of object types within a capacity, stored as the binary
  digits of a natural number below two to the capacity.
- The set operations, which are the bitwise operations, and the tests on sets.
- `contains_*`: what each operation does to membership.
- `mem_*`: the same for `∈`, with `ext_mem` for equality.
- `mem_ids`, `pairwise_ids`: the members listed are all members, in increasing order.

Two sets are equal when they have the same members and the same capacity. Adding a
member and forming a union enlarge the capacity where they have to; intersection and
difference keep the capacity of the first set.
-/

set_option autoImplicit false

namespace QueryShape

/-- The number of an object type in the order of definitions. A program keeps such numbers in 32
bits; it is assumed that no schema has more object types than fit. -/
abbrev ObjectId := Nat

/-- A set of object types with numbers below a capacity. -/
structure PossibleTypes where
  capacity : Nat
  /-- The binary digit at place `id` is one when `id` is a member. -/
  mask : Nat
  mask_lt : mask < Nat.pow 2 capacity
deriving DecidableEq

namespace PossibleTypes

/-- The set without members. -/
def empty (capacity : Nat) : PossibleTypes :=
  ⟨capacity, 0, Nat.two_pow_pos capacity⟩

instance : Inhabited PossibleTypes := ⟨empty 0⟩

/-- Whether an object type is a member. -/
def contains (set : PossibleTypes) (id : ObjectId) : Bool :=
  set.mask.testBit id

instance : Membership ObjectId PossibleTypes := ⟨fun set id => set.contains id = true⟩

instance (id : ObjectId) (set : PossibleTypes) : Decidable (id ∈ set) :=
  inferInstanceAs (Decidable (set.contains id = true))

/-- The places of the ones among the lowest two to the `level` digits of a mask, counted
from an offset and in increasing order. A mask is split in halves, and a half without
ones is passed over as a whole, so that a large set with few members costs little. -/
def onesFrom : Nat → Nat → Nat → List Nat
  | 0, offset, mask => if mask.testBit 0 then [offset] else []
  | level + 1, offset, mask =>
      if mask = 0 then []
      else
        let half := Nat.pow 2 level
        onesFrom level offset (mask &&& (Nat.pow 2 half - 1)) ++
          onesFrom level (offset + half) (mask >>> half)

/-- The members in increasing order. -/
def ids (set : PossibleTypes) : List ObjectId :=
  onesFrom (Nat.log2 (set.capacity - 1) + 1) 0 set.mask

/-- The number of members. -/
@[inline] def size (set : PossibleTypes) : Nat :=
  set.ids.length

/-- The least member. -/
@[inline] def first? (set : PossibleTypes) : Option ObjectId :=
  set.ids.head?

/-- Whether there is no member. -/
def isEmpty (set : PossibleTypes) : Bool :=
  set.mask == 0

/-! ## Operations -/

/-- All members of either set, within the larger capacity. -/
def union (left right : PossibleTypes) : PossibleTypes where
  capacity := max left.capacity right.capacity
  mask := left.mask ||| right.mask
  mask_lt := Nat.or_lt_two_pow
    (Nat.lt_of_lt_of_le left.mask_lt (Nat.pow_le_pow_right (by decide) (Nat.le_max_left ..)))
    (Nat.lt_of_lt_of_le right.mask_lt (Nat.pow_le_pow_right (by decide) (Nat.le_max_right ..)))

/-- The common members, within the capacity of the first set. -/
def inter (left right : PossibleTypes) : PossibleTypes where
  capacity := left.capacity
  mask := left.mask &&& right.mask
  mask_lt := Nat.lt_of_le_of_lt Nat.and_le_left left.mask_lt

/-- The members of the first set that the second lacks, within the capacity of the
first. -/
def diff (left right : PossibleTypes) : PossibleTypes where
  capacity := left.capacity
  mask := left.mask ^^^ (left.mask &&& right.mask)
  mask_lt := Nat.xor_lt_two_pow left.mask_lt
    (Nat.lt_of_le_of_lt Nat.and_le_left left.mask_lt)

instance : Union PossibleTypes := ⟨union⟩
instance : Inter PossibleTypes := ⟨inter⟩
instance : SDiff PossibleTypes := ⟨diff⟩

/-- The set of one object type, just large enough to hold it. -/
def single (id : ObjectId) : PossibleTypes where
  capacity := id + 1
  mask := Nat.pow 2 id
  mask_lt := Nat.pow_lt_pow_right (by decide) (Nat.lt_succ_self id)

/-- Adds a member and enlarges the capacity if it is too small. -/
def insert (set : PossibleTypes) (id : ObjectId) : PossibleTypes :=
  set ∪ single id

/-- Removes a member; the capacity stays. -/
def erase (set : PossibleTypes) (id : ObjectId) : PossibleTypes :=
  if set.contains id then set \ single id else set

/-- The set of some object types, within a capacity that grows as needed. -/
def ofIds (capacity : Nat) (ids : List ObjectId) : PossibleTypes :=
  ids.foldl insert (empty capacity)

/-- Whether every member of the first set is one of the second. -/
def subset (left right : PossibleTypes) : Bool :=
  left.mask &&& right.mask == left.mask

/-- Whether two sets have no common member. -/
def disjoint (left right : PossibleTypes) : Bool :=
  left.mask &&& right.mask == 0

/-! ## Membership -/

@[simp] theorem contains_empty (capacity : Nat) (id : ObjectId) :
    (empty capacity).contains id = false := by
  simp [contains, empty]

@[simp] theorem contains_union (left right : PossibleTypes) (id : ObjectId) :
    (left ∪ right).contains id = (left.contains id || right.contains id) :=
  Nat.testBit_or ..

@[simp] theorem contains_inter (left right : PossibleTypes) (id : ObjectId) :
    (left ∩ right).contains id = (left.contains id && right.contains id) :=
  Nat.testBit_and ..

@[simp] theorem contains_diff (left right : PossibleTypes) (id : ObjectId) :
    (left \ right).contains id = (left.contains id && !right.contains id) := by
  show (left.mask ^^^ (left.mask &&& right.mask)).testBit id = _
  simp only [Nat.testBit_xor, Nat.testBit_and, contains]
  cases left.mask.testBit id <;> cases right.mask.testBit id <;> rfl

/-- Members lie below the capacity. -/
theorem lt_capacity_of_contains {set : PossibleTypes} {id : ObjectId}
    (h : set.contains id = true) : id < set.capacity :=
  Nat.lt_of_not_le fun hle => by
    have hlt := Nat.lt_of_lt_of_le set.mask_lt (Nat.pow_le_pow_right (by decide) hle)
    simp [contains, Nat.testBit_lt_two_pow hlt] at h

theorem mem_onesFrom {level offset mask place : Nat} :
    place ∈ onesFrom level offset mask ↔
      offset ≤ place ∧ place < offset + Nat.pow 2 level ∧
        mask.testBit (place - offset) = true := by
  induction level generalizing offset mask with
  | zero =>
    have hone : Nat.pow 2 0 = 1 := rfl
    rw [hone]
    cases h : mask.testBit 0 with
    | true =>
      simp only [onesFrom, h, if_true, List.mem_singleton]
      constructor
      · rintro rfl
        exact ⟨Nat.le_refl _, Nat.lt_succ_self _, by simpa using h⟩
      · omega
    | false =>
      simp only [onesFrom, h, Bool.false_eq_true, if_false, List.not_mem_nil, false_iff, not_and]
      intro hle hlt
      have : place - offset = 0 := by omega
      rw [this, h]
      exact Bool.false_ne_true
  | succ level ih =>
    have hdouble : Nat.pow 2 (level + 1) = Nat.pow 2 level + Nat.pow 2 level :=
      Nat.mul_two (Nat.pow 2 level)
    by_cases hmask : mask = 0
    · simp [onesFrom, hmask]
    · simp only [onesFrom, hmask, if_false, List.mem_append, ih]
      rw [hdouble]
      constructor
      · rintro (⟨hle, hlt, hbit⟩ | ⟨hle, hlt, hbit⟩)
        · refine ⟨hle, by omega, ?_⟩
          rw [Nat.testBit_and, Bool.and_eq_true] at hbit
          exact hbit.1
        · refine ⟨by omega, by omega, ?_⟩
          rw [Nat.testBit_shiftRight] at hbit
          have : Nat.pow 2 level + (place - (offset + Nat.pow 2 level)) = place - offset := by
            omega
          rwa [this] at hbit
      · rintro ⟨hle, hlt, hbit⟩
        by_cases hlow : place < offset + Nat.pow 2 level
        · refine Or.inl ⟨hle, hlow, ?_⟩
          rw [Nat.testBit_and, hbit, Bool.true_and]
          exact (Nat.testBit_two_pow_sub_one ..).trans (decide_eq_true (by omega))
        · refine Or.inr ⟨by omega, by omega, ?_⟩
          rw [Nat.testBit_shiftRight]
          have : Nat.pow 2 level + (place - (offset + Nat.pow 2 level)) = place - offset := by
            omega
          rwa [this]

theorem pairwise_onesFrom (level offset mask : Nat) :
    (onesFrom level offset mask).Pairwise (· < ·) := by
  induction level generalizing offset mask with
  | zero => unfold onesFrom; split <;> simp
  | succ level ih =>
    unfold onesFrom
    split
    · exact List.Pairwise.nil
    · exact List.pairwise_append.mpr ⟨ih _ _, ih _ _, fun _ hlow _ hhigh =>
        Nat.lt_of_lt_of_le (mem_onesFrom.mp hlow).2.1 (mem_onesFrom.mp hhigh).1⟩

theorem mem_ids {set : PossibleTypes} {id : ObjectId} :
    id ∈ set.ids ↔ set.contains id = true := by
  simp only [ids, mem_onesFrom, Nat.zero_le, Nat.zero_add, Nat.sub_zero, true_and, contains,
    and_iff_right_iff_imp]
  intro h
  exact Nat.lt_of_le_of_lt (Nat.le_sub_one_of_lt (lt_capacity_of_contains h)) Nat.lt_log2_self

/-- The members come in increasing order, each of them once. -/
theorem pairwise_ids (set : PossibleTypes) : set.ids.Pairwise (· < ·) :=
  pairwise_onesFrom ..

theorem isEmpty_iff {set : PossibleTypes} :
    set.isEmpty = true ↔ ∀ id, set.contains id = false := by
  simp only [isEmpty, beq_iff_eq, contains]
  constructor
  · intro h id
    simp [h]
  · intro h
    exact Nat.eq_of_testBit_eq fun id => by simp [h id]

theorem subset_iff {left right : PossibleTypes} :
    left.subset right = true ↔ ∀ id, left.contains id = true → right.contains id = true := by
  simp only [subset, beq_iff_eq, contains]
  constructor
  · intro h id hid
    rw [← h, Nat.testBit_and, Bool.and_eq_true] at hid
    exact hid.2
  · intro h
    refine Nat.eq_of_testBit_eq fun id => ?_
    rw [Nat.testBit_and]
    cases hl : left.mask.testBit id with
    | false => rfl
    | true => simp [h id hl]

/-! ## Membership as a proposition -/

variable {left right : PossibleTypes} {id : ObjectId}

@[simp] theorem not_mem_empty (capacity : Nat) : id ∉ empty capacity := by
  show ¬ (empty capacity).contains id = true
  rw [contains_empty]
  exact Bool.false_ne_true

@[simp] theorem mem_union : id ∈ left ∪ right ↔ id ∈ left ∨ id ∈ right := by
  show (left ∪ right).contains id = true ↔ _
  rw [contains_union, Bool.or_eq_true]
  exact Iff.rfl

@[simp] theorem mem_inter : id ∈ left ∩ right ↔ id ∈ left ∧ id ∈ right := by
  show (left ∩ right).contains id = true ↔ _
  rw [contains_inter, Bool.and_eq_true]
  exact Iff.rfl

@[simp] theorem mem_diff : id ∈ left \ right ↔ id ∈ left ∧ id ∉ right := by
  show (left \ right).contains id = true ↔ left.contains id = true ∧ ¬ right.contains id = true
  rw [contains_diff, Bool.and_eq_true, Bool.not_eq_true', Bool.not_eq_true]

@[simp] theorem capacity_inter : (left ∩ right).capacity = left.capacity := rfl

@[simp] theorem capacity_diff : (left \ right).capacity = left.capacity := rfl

theorem isEmpty_eq_false_iff : left.isEmpty = false ↔ ∃ id, id ∈ left := by
  rw [← Bool.not_eq_true, isEmpty_iff, Classical.not_forall]
  exact exists_congr fun id => by rw [Bool.not_eq_false]; exact Iff.rfl

theorem isEmpty_eq_true_iff : left.isEmpty = true ↔ ∀ id, id ∉ left := by
  rw [← Bool.not_eq_false, isEmpty_eq_false_iff, not_exists]

theorem subset_iff_mem : left.subset right = true ↔ ∀ id ∈ left, id ∈ right :=
  subset_iff

theorem disjoint_iff : left.disjoint right = true ↔ ∀ id ∈ left, id ∉ right := by
  have hempty : left.disjoint right = (left ∩ right).isEmpty := rfl
  rw [hempty, isEmpty_eq_true_iff]
  simp only [mem_inter, not_and]

/-- Sets of one capacity with the same members are equal. -/
theorem ext_contains {left right : PossibleTypes} (hc : left.capacity = right.capacity)
    (h : ∀ id, left.contains id = right.contains id) : left = right := by
  have hm : left.mask = right.mask := Nat.eq_of_testBit_eq h
  cases left
  cases right
  simp_all

theorem ext_mem (hc : left.capacity = right.capacity) (h : ∀ id, id ∈ left ↔ id ∈ right) :
    left = right :=
  ext_contains hc fun id => Bool.eq_iff_iff.mpr (h id)

/-- A set is its own intersection with another one exactly if it lies inside. -/
theorem inter_eq_left_iff : left ∩ right = left ↔ ∀ id ∈ left, id ∈ right := by
  constructor
  · intro h id hid
    rw [← h] at hid
    exact (mem_inter.mp hid).2
  · intro h
    exact ext_mem rfl fun id => by simpa using h id

end PossibleTypes

end QueryShape
