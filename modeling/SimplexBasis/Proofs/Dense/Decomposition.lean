import SimplexBasis.Proofs.Dense.Kernel
import SimplexBasis.Proofs.Rank
import SimplexBasis.Proofs.Systems

/-!
# What dense elimination answers

The block that elimination leaves holds a unit lower and an upper trapezoid, whose product with the
rest behind them is the original block in the order of the elimination. This holds wherever columns
are accepted or moved behind the others, and for every distance between the columns.
-/

set_option linter.unusedSectionVars false

namespace SimplexBasis.Dense

variable {m lead : Nat} {tolerance : ℚ} {block : Array ℚ} {e : Elimination ℚ}

/-- The `m` by `m` matrix at the front of a block. -/
def front (m lead : Nat) (block : Array ℚ) : Matrix (Fin m) (Fin m) ℚ :=
  .of fun i j => element lead block i j

namespace Elimination

/-- An elimination of the block, with its trapezoids. -/
structure Decomposes (e : Elimination ℚ) (block : Array ℚ) (m lead : Nat) (tolerance : ℚ) : Prop where
  rows : e.rows.toList.Perm (List.range m)
  cols : e.cols.toList.Perm (List.range m)
  rank_le : e.rank ≤ m
  /-- The products of the stages and the rest make up the block. -/
  product : ∀ s < m, ∀ t < m, element lead block (e.rows.getD s 0) (e.cols.getD t 0) =
    ((List.range e.rank).map fun k =>
      (if s = k then 1 else if k < s then element lead e.block s k else 0) *
        (if k ≤ t then element lead e.block k t else 0)).sum +
      (if e.rank ≤ s ∧ e.rank ≤ t then element lead e.block s t else 0)
  pivots : ∀ k < e.rank, tolerance < |element lead e.block k k|
  multipliers : ∀ k < e.rank, ∀ s, k < s → s < m → |element lead e.block s k| ≤ 1
  /-- With the tolerance zero the pivots are as many as the rank. -/
  rank_eq : tolerance = 0 → (front m lead block).rank = e.rank
  size : e.block.size = block.size
  /-- Elements behind the `m` rows and columns stay. -/
  outside : ∀ i < lead, ∀ j, m ≤ i ∨ m ≤ j → element lead e.block i j = element lead block i j

/-! ### The rank -/

/-- The lower trapezoid. -/
def lowerTrapezoid (m lead : Nat) (e : Elimination ℚ) : Matrix (Fin m) (Fin e.rank) ℚ :=
  .of fun s k => e.lowerPart lead s k

def upperTrapezoid (m lead : Nat) (e : Elimination ℚ) : Matrix (Fin e.rank) (Fin m) ℚ :=
  .of fun k t => e.upperPart lead k t

/-- Where nothing is left, the block in the order of the elimination is the product of the
trapezoids. -/
theorem Splits.front_eq_mul (split : e.Splits (element lead block) m lead)
    (cleared : e.Cleared m lead 0) (rows : e.rows.toList.Perm (List.range m))
    (cols : e.cols.toList.Perm (List.range m)) :
    (front m lead block).submatrix (chosen rows) (chosen cols) =
      lowerTrapezoid m lead e * upperTrapezoid m lead e := by
  ext s t
  have nothing : e.restPart lead s t = 0 := by
    unfold restPart
    split
    · rename_i behind
      exact cleared s t behind.1 s.isLt behind.2 t.isLt
    · rfl
  have row := split s s.isLt t t.isLt
  rw [nothing, add_zero] at row
  rw [Matrix.mul_apply]
  exact row.trans (Finset.sum_range fun k => e.lowerPart lead s k * e.upperPart lead k t)

theorem rank_eq_of_splits (split : e.Splits (element lead block) m lead)
    (cleared : e.Cleared m lead 0) (rows : e.rows.toList.Perm (List.range m))
    (cols : e.cols.toList.Perm (List.range m)) (inside : e.rank ≤ m)
    (pivots : ∀ k < e.rank, element lead e.block k k ≠ 0) :
    (front m lead block).rank = e.rank := by
  let leading : Fin e.rank → Fin m := Fin.castLE inside
  have lower : ((lowerTrapezoid m lead e).submatrix leading id).IsLowerTriangular := by
    intro s t above
    have above : s.val < t.val := above
    change e.lowerPart lead s t = 0
    rw [lowerPart, if_neg (by omega), if_neg (by omega)]
  have upper : ((upperTrapezoid m lead e).submatrix id leading).IsUpperTriangular := by
    intro s t below
    have below : t.val < s.val := below
    change e.upperPart lead s t = 0
    rw [upperPart, if_neg (by omega)]
  have lowerDiagonal : ∀ k, lowerTrapezoid m lead e (leading k) k ≠ 0 := fun k => by
    change e.lowerPart lead k k ≠ 0
    rw [lowerPart, if_pos rfl]
    exact one_ne_zero
  have upperDiagonal : ∀ k, upperTrapezoid m lead e k (leading k) ≠ 0 := fun k => by
    change e.upperPart lead k k ≠ 0
    rw [upperPart, if_pos le_rfl]
    exact pivots k k.isLt
  have rank := rank_mul_eq lower upper lowerDiagonal upperDiagonal
  rw [← split.front_eq_mul cleared rows cols] at rank
  rw [← rank]
  exact (Matrix.rank_submatrix (front m lead block) (ordering rows) (ordering cols)).symm

end Elimination

/-- Elimination with a tolerance that is not negative decomposes every block, for every distance
between its columns. -/
theorem eliminate_decomposes (block : Array ℚ) (wide : m ≤ lead) (sized : m * lead ≤ block.size)
    (nonneg : 0 ≤ tolerance) :
    (eliminate block m lead tolerance).Decomposes block m lead tolerance := by
  have start := Elimination.shape_start sized
  have inside : (Elimination.start block m).rank + m ≤ m := by simp [Elimination.start]
  obtain ⟨shape, rank⟩ := @Elimination.run_shape _ _ _ _ _ _ tolerance wide start inside
  have split := Elimination.run_splits wide start inside nonneg Elimination.splits_start
  have bounded := Elimination.run_bounded wide start inside nonneg Elimination.bounded_start
  have same := @Elimination.run_sameOutside _ _ _ _ _ _ tolerance wide inside
  exact
    { rows := shape.rows
      cols := shape.cols
      rank_le := rank
      product := split
      pivots := fun k hk => (bounded k hk).1
      multipliers := fun k hk => (bounded k hk).2
      rank_eq := by
        rintro rfl
        have cleared := Elimination.run_cleared wide start inside fun s t _ _ low high => by
          simp [Elimination.start] at low
          omega
        exact Elimination.rank_eq_of_splits split cleared shape.rows shape.cols rank
          (bounded.pivot_ne_zero le_rfl)
      size := same.size
      outside := same.elements }

/-- Two proportional columns, behind each of which stands an element of something else. -/
def proportional : Array ℚ := #[1, 2, 7, 2, 4, 9]

theorem decomposes_proportional : 2 ≤ 3 ∧ 2 * 3 ≤ proportional.size ∧ (0 : ℚ) ≤ 0 ∧
    (eliminate proportional 2 3 0).Decomposes proportional 2 3 0 ∧
    (eliminate proportional 2 3 0).rank = 1 :=
  ⟨by decide, by decide, le_rfl, eliminate_decomposes _ (by decide) (by decide) le_rfl,
    by decide +kernel⟩

end SimplexBasis.Dense
