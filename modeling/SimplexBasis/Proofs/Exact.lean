import Mathlib.Data.List.Induction
import Mathlib.Algebra.Order.Field.Rat
import Mathlib.Tactic.Linarith
import Mathlib.Tactic.Ring
import Mathlib.Tactic.FieldSimp
import SimplexBasis.Proofs.Sparse.View

/-!
# Exact scalars

The scalar operations on the rational numbers are the mathematical ones.
-/

namespace SimplexBasis

theorem scalar_abs (x : ℚ) : Scalar.abs x = |x| := by
  change Rat.abs x = |x|
  unfold Rat.abs
  split
  · rw [abs_of_nonneg ‹_›]
  · rw [abs_of_neg (not_le.mp ‹_›)]

theorem scalar_max (x y : ℚ) : Scalar.max x y = max x y := by
  unfold Scalar.max
  simp only [bne_self_eq_false, Bool.or_false, decide_eq_true_iff]
  split
  · rw [max_eq_left (le_of_lt ‹_›)]
  · rw [max_eq_right (not_lt.mp ‹_›)]

theorem scalar_min (x y : ℚ) : Scalar.min x y = min x y := by
  unfold Scalar.min
  simp only [bne_self_eq_false, Bool.or_false, decide_eq_true_iff]
  split
  · rw [min_eq_left (le_of_lt ‹_›)]
  · rw [min_eq_right (not_lt.mp ‹_›)]

/-! ### The largest magnitude -/

section Largest

variable {entries more : List (Nat × ℚ)} {i : Nat} {x b : ℚ}

theorem largestOf_concat (entries : List (Nat × ℚ)) (e : Nat × ℚ) :
    largestOf (entries ++ [e]) = max (largestOf entries) |e.2| := by
  simp [largestOf, scalar_max, scalar_abs]

theorem largestOf_le_iff : largestOf entries ≤ b ↔ 0 ≤ b ∧ ∀ e ∈ entries, |e.2| ≤ b := by
  induction entries using List.reverseRecOn with
  | nil => simp [largestOf]
  | append_singleton entries e ih =>
    rw [largestOf_concat, max_le_iff, ih]
    simp only [List.mem_append, List.mem_singleton]
    grind

theorem le_largestOf {e : Nat × ℚ} (member : e ∈ entries) : |e.2| ≤ largestOf entries :=
  (largestOf_le_iff.mp le_rfl).2 e member

theorem exists_largest (entries : List (Nat × ℚ)) :
    largestOf entries = 0 ∨ ∃ e ∈ entries, |e.2| = largestOf entries := by
  induction entries using List.reverseRecOn with
  | nil => exact .inl rfl
  | append_singleton entries e ih =>
    rw [largestOf_concat]
    rcases le_total |e.2| (largestOf entries) with le | le
    · rw [max_eq_left le]
      refine ih.imp_right ?_
      rintro ⟨f, member, eq⟩
      exact ⟨f, List.mem_append_left _ member, eq⟩
    · rw [max_eq_right le]
      exact .inr ⟨e, by simp, rfl⟩

end Largest

end SimplexBasis
