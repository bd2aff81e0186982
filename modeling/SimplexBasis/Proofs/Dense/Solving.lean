import SimplexBasis.Proofs.Systems
import SimplexBasis.Proofs.Dense.Calls
import SimplexBasis.Proofs.Singularity
import SimplexBasis.Proofs.Triangular.Substitution
import SimplexBasis.Proofs.Vectors.Values

/-!
# Dense solves

The four passes over the columns of a dense factorization solve the systems of its triangular
factors and of their transposes.
-/

set_option linter.unusedSectionVars false

namespace SimplexBasis.DenseFactorization

open Dense (element)
open Substitution (ColumnsDone RowsDone)

variable {n k : Nat} {a y : Array ℚ}

/-- The entry of the lower factor in column `k` below the diagonal. -/
def lowerEntry (n : Nat) (a : Array ℚ) (k i : Nat) : ℚ :=
  if k < i ∧ i < n then element n a i k else 0

/-- The entry of the upper factor in column `k` above the diagonal. -/
def upperEntry (n : Nat) (a : Array ℚ) (k i : Nat) : ℚ := if i < k then element n a i k else 0

def lowerMatrix (n : Nat) (a : Array ℚ) : Matrix (Fin n) (Fin n) ℚ :=
  assembled n (fun _ => 1) (lowerEntry n a)

def upperMatrix (n : Nat) (a : Array ℚ) : Matrix (Fin n) (Fin n) ℚ :=
  assembled n (fun k => element n a k k) (upperEntry n a)

/-! ### Single columns -/

theorem subtractColumn_spec {rows : List Nat} (distinct : rows.Nodup)
    (inside : ∀ i ∈ rows, i < y.size) (x : ℚ) :
    (subtractColumn a n k x y rows).size = y.size ∧ ∀ i,
      (subtractColumn a n k x y rows).getD i 0 =
        if i ∈ rows then y.getD i 0 - element n a i k * x else y.getD i 0 := by
  induction rows generalizing y with
  | nil => exact ⟨rfl, fun i => by simp [subtractColumn]⟩
  | cons r rows ih =>
    obtain ⟨fresh, distinct⟩ := List.nodup_cons.mp distinct
    have first : r < y.size := inside r List.mem_cons_self
    obtain ⟨size, values⟩ := ih (y := y.setIfInBounds r (y.getD r 0 - element n a r k * x)) distinct
      fun i member => by
        rw [Array.size_setIfInBounds]
        exact inside i (List.mem_cons_of_mem r member)
    refine ⟨size.trans Array.size_setIfInBounds, fun i => (values i).trans ?_⟩
    rw [getD_setIfInBounds first]
    by_cases here : i = r
    · subst here
      rw [if_neg fresh, if_pos rfl, if_pos List.mem_cons_self]
    · rw [if_neg here]
      exact if_congr (by simp [here]) rfl rfl

theorem lowerColumn_spec (size : y.size = n) (hk : k < n) (flops : Nat) :
    (lowerColumn a n (y, flops) k).1.size = n ∧ ∀ i, (lowerColumn a n (y, flops) k).1.getD i 0 =
      if i = k then y.getD k 0 * 1 else y.getD i 0 - lowerEntry n a k i * (y.getD k 0 * 1) := by
  have below : ∀ i, i ∈ List.range' (k + 1) (n - (k + 1)) ↔ k < i ∧ i < n := fun i => by
    rw [List.mem_range'_1]
    omega
  unfold lowerColumn
  dsimp only
  rw [mul_one]
  split
  · obtain ⟨size', values⟩ := subtractColumn_spec (a := a) (n := n) (k := k) (y := y)
      (List.nodup_range' (s := k + 1) (n := n - (k + 1)))
      (fun i member => size ▸ ((below i).mp member).2) (y.getD k 0)
    refine ⟨size'.trans size, fun i => (values i).trans ?_⟩
    unfold lowerEntry
    by_cases here : i = k
    · subst here
      rw [if_pos rfl, if_neg (by simp)]
    · rw [if_neg here]
      by_cases member : k < i ∧ i < n
      · rw [if_pos ((below i).mpr member), if_pos member]
      · rw [if_neg (mt (below i).mp member), if_neg member, zero_mul, sub_zero]
  · rename_i zero
    rw [Bool.not_eq_true, bne_eq_false_iff_eq] at zero
    refine ⟨size, fun i => ?_⟩
    by_cases here : i = k
    · rw [if_pos here, here]
    · rw [if_neg here, zero, mul_zero, sub_zero]

theorem upperColumn_spec (size : y.size = n) (hk : k < n) (flops : Nat) :
    (upperColumn a n (y, flops) k).1.size = n ∧ ∀ i, (upperColumn a n (y, flops) k).1.getD i 0 =
      if i = k then y.getD k 0 * (1 / element n a k k)
      else y.getD i 0 - upperEntry n a k i * (y.getD k 0 * (1 / element n a k k)) := by
  unfold upperColumn
  dsimp only
  split
  · have quotient : y.getD k 0 / a.getD (k * n + k) 0 = y.getD k 0 * (1 / element n a k k) := by
      rw [mul_one_div]
      rfl
    obtain ⟨size', values⟩ := subtractColumn_spec (a := a) (n := n) (k := k)
      (y := y.setIfInBounds k (y.getD k 0 / a.getD (k * n + k) 0)) (List.nodup_range (n := k))
      (fun i member => by
        rw [Array.size_setIfInBounds, size]
        exact (List.mem_range.mp member).trans hk) (y.getD k 0 / a.getD (k * n + k) 0)
    refine ⟨size'.trans (Array.size_setIfInBounds.trans size), fun i => (values i).trans ?_⟩
    rw [quotient, getD_setIfInBounds (size.symm ▸ hk)]
    unfold upperEntry
    by_cases here : i = k
    · subst here
      rw [if_neg (by simp), if_pos rfl, if_pos rfl]
    · rw [if_neg here, if_neg here]
      by_cases above : i < k
      · rw [if_pos (List.mem_range.mpr above), if_pos above]
      · rw [if_neg (mt List.mem_range.mp above), if_neg above, zero_mul, sub_zero]
  · rename_i zero
    rw [Bool.not_eq_true, bne_eq_false_iff_eq] at zero
    refine ⟨size, fun i => ?_⟩
    by_cases here : i = k
    · rw [if_pos here, here, zero, zero_mul]
    · rw [if_neg here, zero, zero_mul, mul_zero, sub_zero]

theorem scalar_sum (terms : List ℚ) : Scalar.sum terms = terms.sum := by
  unfold Scalar.sum
  rw [List.sum_eq_foldl]
  rfl

theorem dotColumn_eq {rows : List Nat} (distinct : rows.Nodup) (inside : ∀ i ∈ rows, i < n) :
    dotColumn a n k y rows =
      ∑ j ∈ Finset.range n, (if j ∈ rows then element n a j k else 0) * y.getD j 0 := by
  have whole : (rows.map fun i => a.getD (k * n + i) 0 * y.getD i 0).sum =
      ∑ j ∈ rows.toFinset, element n a j k * y.getD j 0 := (List.sum_toFinset _ distinct).symm
  have split : ∀ j, (if j ∈ rows then element n a j k else 0) * y.getD j 0 =
      if j ∈ rows.toFinset then element n a j k * y.getD j 0 else 0 := fun j => by
    rw [ite_mul, zero_mul]
    exact if_congr List.mem_toFinset.symm rfl rfl
  rw [dotColumn, scalar_sum, whole, Finset.sum_congr rfl fun j _ => split j, Finset.sum_ite_mem,
    Finset.inter_eq_right.mpr fun j member =>
      Finset.mem_range.mpr (inside j (List.mem_toFinset.mp member))]

theorem upperRow_spec (size : y.size = n) (hk : k < n) (flops : Nat) :
    (upperRow a n (y, flops) k).1.size = n ∧ ∀ i, (upperRow a n (y, flops) k).1.getD i 0 =
      if i = k then 1 / element n a k k *
        (y.getD k 0 - ∑ j ∈ Finset.range n, upperEntry n a k j * y.getD j 0) else y.getD i 0 := by
  have dot : dotColumn a n k y (List.range k) =
      ∑ j ∈ Finset.range n, upperEntry n a k j * y.getD j 0 := by
    rw [dotColumn_eq List.nodup_range fun i member => (List.mem_range.mp member).trans hk]
    exact Finset.sum_congr rfl fun j _ =>
      congrArg (· * y.getD j 0) (if_congr List.mem_range rfl rfl)
  unfold upperRow
  dsimp only
  refine ⟨Array.size_setIfInBounds.trans size, fun i => ?_⟩
  rw [getD_setIfInBounds (size.symm ▸ hk), dot, one_div_mul_eq_div]
  rfl

theorem lowerRow_spec (size : y.size = n) (hk : k < n) (flops : Nat) :
    (lowerRow a n (y, flops) k).1.size = n ∧ ∀ i, (lowerRow a n (y, flops) k).1.getD i 0 =
      if i = k then 1 *
        (y.getD k 0 - ∑ j ∈ Finset.range n, lowerEntry n a k j * y.getD j 0) else y.getD i 0 := by
  have below : ∀ i, i ∈ List.range' (k + 1) (n - (k + 1)) ↔ k < i ∧ i < n := fun i => by
    rw [List.mem_range'_1]
    omega
  have dot : dotColumn a n k y (List.range' (k + 1) (n - (k + 1))) =
      ∑ j ∈ Finset.range n, lowerEntry n a k j * y.getD j 0 := by
    rw [dotColumn_eq List.nodup_range' fun i member => ((below i).mp member).2]
    exact Finset.sum_congr rfl fun j _ => congrArg (· * y.getD j 0) (if_congr (below j) rfl rfl)
  unfold lowerRow
  dsimp only
  refine ⟨Array.size_setIfInBounds.trans size, fun i => ?_⟩
  rw [getD_setIfInBounds (size.symm ▸ hk), dot, one_mul]

/-! ### Passes over all columns -/

section Passes

variable {xs : Array ℚ} (coeff : Nat → Nat → ℚ) (factor : Nat → ℚ) {order : List Nat}
  {step : Progress ℚ → Nat → Progress ℚ}

theorem columns_pass (inside : ∀ k ∈ order, k < n) (distinct : order.Nodup)
    (apart : order.Pairwise fun i k => coeff k i = 0) (own : ∀ k < n, coeff k k = 0)
    (spec : ∀ y flops, ∀ k < n, y.size = n → (step (y, flops) k).1.size = n ∧
      ∀ i, (step (y, flops) k).1.getD i 0 = if i = k then y.getD k 0 * factor k
        else y.getD i 0 - coeff k i * (y.getD k 0 * factor k))
    (size : xs.size = n) (flops : Nat) : (order.foldl step (xs, flops)).1.size = n ∧
      ColumnsDone coeff factor (xs.getD · 0) order ((order.foldl step (xs, flops)).1.getD · 0) := by
  refine foldl_invariant (fun done (state : Progress ℚ) => state.1.size = n ∧
    ColumnsDone coeff factor (xs.getD · 0) done (state.1.getD · 0)) ⟨size, .start⟩ ?_
  rintro done k rest ⟨y, flops⟩ split ⟨size, values⟩
  rw [split] at inside distinct apart
  have hk := inside k (by simp)
  obtain ⟨size', stage⟩ := spec y flops k hk size
  refine ⟨size', values.step (fun member => ?_) (own k hk) (fun i member => ?_) stage⟩
  · exact (List.nodup_append.mp distinct).2.2 k member k List.mem_cons_self rfl
  · exact (List.pairwise_append.mp apart).2.2 i member k List.mem_cons_self

theorem rows_pass (inside : ∀ k ∈ order, k < n) (distinct : order.Nodup)
    (apart : order.Pairwise fun i k => coeff i k = 0) (own : ∀ k < n, coeff k k = 0)
    (spec : ∀ y flops, ∀ k < n, y.size = n → (step (y, flops) k).1.size = n ∧
      ∀ i, (step (y, flops) k).1.getD i 0 = if i = k then
        factor k * (y.getD k 0 - ∑ j ∈ Finset.range n, coeff k j * y.getD j 0) else y.getD i 0)
    (size : xs.size = n) (flops : Nat) : (order.foldl step (xs, flops)).1.size = n ∧
      RowsDone coeff factor (xs.getD · 0) n order ((order.foldl step (xs, flops)).1.getD · 0) := by
  refine foldl_invariant (fun done (state : Progress ℚ) => state.1.size = n ∧
    RowsDone coeff factor (xs.getD · 0) n done (state.1.getD · 0)) ⟨size, .start⟩ ?_
  rintro done k rest ⟨y, flops⟩ split ⟨size, values⟩
  rw [split] at inside distinct apart
  have hk := inside k (by simp)
  obtain ⟨size', stage⟩ := spec y flops k hk size
  refine ⟨size', values.step (fun member => ?_) (fun i member => ?_) stage⟩
  · exact (List.nodup_append.mp distinct).2.2 k member k List.mem_cons_self rfl
  · rcases List.mem_append.mp member with early | here
    · exact (List.pairwise_append.mp apart).2.2 i early k List.mem_cons_self
    · rw [List.mem_singleton.mp here]
      exact own k hk

theorem lowerEntry_of_le {i : Nat} (le : i ≤ k) : lowerEntry n a k i = 0 :=
  if_neg fun both => Nat.not_lt.mpr le both.1

theorem upperEntry_of_le {i : Nat} (le : k ≤ i) : upperEntry n a k i = 0 := if_neg (Nat.not_lt.mpr le)

theorem falling (n : Nat) : (List.range n).reverse.Pairwise fun i k => k < i :=
  List.pairwise_reverse.mpr List.pairwise_lt_range

theorem lower_pass (size : xs.size = n) (flops : Nat) :
    ((List.range n).foldl (lowerColumn a n) (xs, flops)).1.size = n ∧
      (lowerMatrix n a).mulVec (vec n ((List.range n).foldl (lowerColumn a n) (xs, flops)).1) =
        vec n xs := by
  obtain ⟨size', done⟩ := columns_pass (lowerEntry n a) (fun _ => 1)
    (fun k => List.mem_range.mp) List.nodup_range
    (List.pairwise_lt_range.imp fun lt => lowerEntry_of_le (Nat.le_of_lt lt))
    (fun k _ => lowerEntry_of_le le_rfl) (fun y flops k hk size => lowerColumn_spec size hk flops)
    size flops
  refine ⟨size', assembled_mulVec (x := (xs.getD · 0)) (fun _ _ => lowerEntry_of_le le_rfl)
    (fun _ _ => one_mul 1) fun i hi => (done i).trans ?_⟩
  rw [if_pos (List.mem_range.mpr hi), List.toFinset_range]

theorem upper_pass (pivots : ∀ k < n, element n a k k ≠ 0) (size : xs.size = n) (flops : Nat) :
    ((List.range n).reverse.foldl (upperColumn a n) (xs, flops)).1.size = n ∧
      (upperMatrix n a).mulVec
        (vec n ((List.range n).reverse.foldl (upperColumn a n) (xs, flops)).1) = vec n xs := by
  obtain ⟨size', done⟩ := columns_pass (upperEntry n a) (fun k => 1 / element n a k k)
    (fun k member => by simpa using member)
    (List.nodup_reverse.mpr List.nodup_range)
    ((falling n).imp fun lt => upperEntry_of_le (Nat.le_of_lt lt))
    (fun k _ => upperEntry_of_le le_rfl) (fun y flops k hk size => upperColumn_spec size hk flops)
    size flops
  refine ⟨size', assembled_mulVec (x := (xs.getD · 0)) (fun _ _ => upperEntry_of_le le_rfl)
    (fun k hk => mul_one_div_cancel (pivots k hk)) fun i hi => (done i).trans ?_⟩
  rw [if_pos (by simpa using hi), List.toFinset_reverse, List.toFinset_range]

theorem upper_transpose_pass (pivots : ∀ k < n, element n a k k ≠ 0) (size : xs.size = n)
    (flops : Nat) : ((List.range n).foldl (upperRow a n) (xs, flops)).1.size = n ∧
      (upperMatrix n a).transpose.mulVec
        (vec n ((List.range n).foldl (upperRow a n) (xs, flops)).1) = vec n xs := by
  obtain ⟨size', done⟩ := rows_pass (upperEntry n a) (fun k => 1 / element n a k k)
    (fun k => List.mem_range.mp) List.nodup_range
    (List.pairwise_lt_range.imp fun lt => upperEntry_of_le (Nat.le_of_lt lt))
    (fun k _ => upperEntry_of_le le_rfl) (fun y flops k hk size => upperRow_spec size hk flops)
    size flops
  refine ⟨size', assembled_transpose_mulVec (x := (xs.getD · 0)) (fun _ _ => upperEntry_of_le le_rfl)
    (fun k hk => mul_one_div_cancel (pivots k hk)) fun i hi => (done i).trans ?_⟩
  rw [if_pos (List.mem_range.mpr hi)]

theorem lower_transpose_pass (size : xs.size = n) (flops : Nat) :
    ((List.range n).reverse.foldl (lowerRow a n) (xs, flops)).1.size = n ∧
      (lowerMatrix n a).transpose.mulVec
        (vec n ((List.range n).reverse.foldl (lowerRow a n) (xs, flops)).1) = vec n xs := by
  obtain ⟨size', done⟩ := rows_pass (lowerEntry n a) (fun _ => 1)
    (fun k member => by simpa using member) (List.nodup_reverse.mpr List.nodup_range)
    ((falling n).imp fun lt => lowerEntry_of_le (Nat.le_of_lt lt))
    (fun k _ => lowerEntry_of_le le_rfl) (fun y flops k hk size => lowerRow_spec size hk flops)
    size flops
  refine ⟨size', assembled_transpose_mulVec (x := (xs.getD · 0)) (fun _ _ => lowerEntry_of_le le_rfl)
    (fun _ _ => one_mul 1) fun i hi => (done i).trans ?_⟩
  rw [if_pos (by simpa using hi)]

end Passes

end SimplexBasis.DenseFactorization
