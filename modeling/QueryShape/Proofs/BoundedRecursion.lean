/-!
# Recursions with a depth that covers what is left

Some recursions carry a depth that only shows that they end: each step down leaves less to do than
the step before, so a depth that covers what is left is never used up. Such a recursion is determined
by its step alone. Without the depth it has a solution, only one, and it is what is computed with
depth enough for everything.

## What this module delivers

- `BoundedRecursion`: what is computed within a depth takes one step after the other while there is
  something left.
- `BoundedRecursion.congr`: any two depths that cover what is left give the same.
- `BoundedRecursion.solves_iff`: the recursion without a depth has one solution.
-/

set_option autoImplicit false

namespace QueryShape

variable {ι β : Type} {step : (ι → β) → ι → β} {within : Nat → ι → β} {left : ι → Nat}

/-- A depth that covers what is left allows for a step, and the step goes on only to places where less
is left. -/
structure BoundedRecursion (step : (ι → β) → ι → β) (within : Nat → ι → β) (left : ι → Nat) :
    Prop where
  unfolds : ∀ {depth : Nat} {place : ι}, left place ≤ depth →
    within depth place = step (within (depth - 1)) place
  descends : ∀ {depth : Nat} {place : ι} {solution : ι → β}, left place ≤ depth →
    (∀ inner, left inner < left place → solution inner = within (depth - 1) inner) →
    step solution place = step (within (depth - 1)) place

namespace BoundedRecursion

/-- A solution agrees with every depth that covers what is left. -/
theorem eq_within (h : BoundedRecursion step within left) {solution : ι → β}
    (hsolution : ∀ place, solution place = step solution place) (depth : Nat) {place : ι}
    (hdepth : left place ≤ depth) : solution place = within depth place := by
  induction depth using Nat.strongRecOn generalizing place with
  | ind depth ih =>
      rw [hsolution, h.unfolds hdepth]
      apply h.descends hdepth
      intro inner hinner
      have hless : left inner < depth := Nat.lt_of_lt_of_le hinner hdepth
      exact ih (depth - 1) (Nat.sub_one_lt_of_lt hless) (Nat.le_sub_one_of_lt hless)

/-- Any two depths that cover what is left give the same. -/
theorem congr (h : BoundedRecursion step within left) (depth : Nat) {depth' : Nat} {place : ι}
    (hdepth : left place ≤ depth) (hdepth' : left place ≤ depth') :
    within depth place = within depth' place := by
  induction depth using Nat.strongRecOn generalizing depth' place with
  | ind depth ih =>
      rw [h.unfolds hdepth, h.unfolds hdepth']
      apply h.descends hdepth'
      intro inner hinner
      have hless : left inner < depth := Nat.lt_of_lt_of_le hinner hdepth
      have hless' : left inner < depth' := Nat.lt_of_lt_of_le hinner hdepth'
      exact ih (depth - 1) (Nat.sub_one_lt_of_lt hless) (Nat.le_sub_one_of_lt hless)
        (Nat.le_sub_one_of_lt hless')

/-- With a depth that covers everything, the recursion without a depth has one solution. -/
theorem solves_iff (h : BoundedRecursion step within left) {bound : Nat}
    (hbound : ∀ place, left place ≤ bound) {solution : ι → β} :
    (∀ place, solution place = step solution place) ↔ solution = within bound := by
  constructor
  · intro hsolution
    funext place
    exact h.eq_within hsolution bound (hbound place)
  · rintro rfl place
    -- One more than the bound leaves the bound for the step down.
    rw [h.congr bound (hbound place) (Nat.le_succ_of_le (hbound place)),
      h.unfolds (Nat.le_succ_of_le (hbound place))]
    rfl

end BoundedRecursion

end QueryShape
