import Mathlib.Algebra.Group.End
import Mathlib.Algebra.Order.BigOperators.Group.Finset
import Mathlib.Order.Fin.Basic
import SimplexBasis.Proofs.Sparse.Cascades

/-!
# Triangular patterns

A pattern that is upper triangular in some order of its rows and columns has one transversal only,
its diagonal. Singletons, in whichever order they are taken, are entries of the diagonal, and as long
as some are left, the first column and the last row that are left are singletons.
-/

set_option linter.unusedSectionVars false

namespace SimplexBasis

variable {α : Type} [Scalar α] {m i j : Nat} {x tolerance : α} {v w : ActiveView α}
  {stages more : List (Stage α)} {row col : Equiv.Perm (Fin m)} {kinds : Single → Prop}

theorem eq_singleton_of_nodup {β : Type} {xs : List β} {y : β} (distinct : xs.Nodup)
    (member : y ∈ xs) (only : ∀ z ∈ xs, z = y) : xs = [y] := by
  have all := List.eq_replicate_of_mem only
  rw [all, List.nodup_replicate] at distinct
  have some_ := List.length_pos_of_mem member
  rw [all, show xs.length = 1 by omega]
  rfl

theorem exists_place (order : Equiv.Perm (Fin m)) (inside : j < m) : ∃ k, (order k : Nat) = j :=
  ⟨order.symm ⟨j, inside⟩, by simp⟩

/-- In the given orders of its rows and columns the pattern is upper triangular, and no entry on the
diagonal is too small. -/
structure ActiveView.TriangularBy (v : ActiveView α) (tolerance : α) (row col : Equiv.Perm (Fin m)) :
    Prop where
  pattern : ∀ k l : Fin m, (row k : Nat) ∈ keys (v.cols (col l)) → k ≤ l
  diagonal : ∀ k : Fin m, ∃ x, ((row k : Nat), x) ∈ v.cols (col k) ∧ ¬Scalar.abs x < tolerance

def OnDiagonal (row col : Equiv.Perm (Fin m)) (stages : List (Stage α)) : Prop :=
  ∀ st ∈ stages, ∃ k : Fin m, st.row = row k ∧ st.col = col k

namespace OnDiagonal

theorem concat {st : Stage α} (h : OnDiagonal row col stages) {k : Fin m} (row_ : st.row = row k)
    (col_ : st.col = col k) : OnDiagonal row col (stages ++ [st]) := by
  intro st' member
  rcases List.mem_append.mp member with earlier | last
  · exact h st' earlier
  · exact List.mem_singleton.mp last ▸ ⟨k, row_, col_⟩

theorem row_iff_col (h : OnDiagonal row col stages) (k : Fin m) :
    (row k : Nat) ∈ stages.map Stage.row ↔ (col k : Nat) ∈ stages.map Stage.col := by
  constructor
  · intro member
    obtain ⟨st, here, same⟩ := List.mem_map.mp member
    obtain ⟨l, row_, col_⟩ := h st here
    have eq : k = l := row.injective (Fin.ext (same.symm.trans row_))
    exact List.mem_map.mpr ⟨st, here, eq ▸ col_⟩
  · intro member
    obtain ⟨st, here, same⟩ := List.mem_map.mp member
    obtain ⟨l, row_, col_⟩ := h st here
    have eq : k = l := col.injective (Fin.ext (same.symm.trans col_))
    exact List.mem_map.mpr ⟨st, here, eq ▸ row_⟩

end OnDiagonal

namespace Singly

variable (chain : Singly kinds m v more w) (h : v.Consistent m [] [])
  (ordered : v.TriangularBy tolerance row col)

include chain h

theorem consistent_done : w.Consistent m (more.map Stage.row) (more.map Stage.col) := by
  simpa using chain.consistent h

include ordered

theorem diagonal_left (diagonal : OnDiagonal row col more) {k : Fin m}
    (free : (col k : Nat) ∉ more.map Stage.col) :
    ∃ x, ((row k : Nat), x) ∈ w.cols (col k) ∧ ¬Scalar.abs x < tolerance := by
  obtain ⟨x, member, large⟩ := ordered.diagonal k
  have freeRow := mt (diagonal.row_iff_col k).mp free
  exact ⟨x, (chain.left h _ (col k).isLt _ x).mpr ⟨freeRow, free, member⟩, large⟩

theorem onDiagonal : OnDiagonal row col more := by
  induction chain with
  | start => simp [OnDiagonal]
  | @column before mid chain _ r c y inside only ih =>
    have consistent := chain.consistent_done h
    obtain ⟨k, rfl⟩ := exists_place col inside
    have free : (col k : Nat) ∉ before.map Stage.col := fun done => by
      simp [consistent.col_done inside done] at only
    -- Its diagonal entry is left, so it is the only entry.
    obtain ⟨x, member, -⟩ := chain.diagonal_left h ordered ih free
    rw [only, List.mem_singleton, Prod.mk.injEq] at member
    exact ih.concat member.1.symm rfl
  | @row before mid chain _ r c y inside only member ih =>
    have consistent := chain.consistent_done h
    obtain ⟨k, rfl⟩ := exists_place row inside
    have free : (row k : Nat) ∉ before.map Stage.row := fun done => by
      simp [consistent.row_done inside done] at only
    obtain ⟨x, entry, -⟩ := chain.diagonal_left h ordered ih (mt (ih.row_iff_col k).mpr free)
    have inRow := (consistent.agree _ inside _ (col k).isLt).mpr
      (List.mem_map_of_mem (f := Prod.fst) entry)
    rw [only, List.mem_singleton] at inRow
    exact ih.concat rfl inRow.symm

theorem open_of_mem {k l : Fin m} (member : ((row k : Nat), x) ∈ w.cols (col l)) :
    k ≤ l ∧ (col k : Nat) ∉ more.map Stage.col := by
  obtain ⟨freeRow, -, before⟩ := (chain.left h _ (col l).isLt _ x).mp member
  have diagonal := chain.onDiagonal h ordered
  exact ⟨ordered.pattern k l (List.mem_map_of_mem (f := Prod.fst) before),
    mt (diagonal.row_iff_col k).mpr freeRow⟩

/-- When no column is due, no column is left: the first one that is left would be due. -/
theorem cols_done (idle : ∀ j < m, ¬w.DueColumn tolerance j) (k : Fin m) :
    (col k : Nat) ∈ more.map Stage.col := by
  have consistent := chain.consistent_done h
  have diagonal := chain.onDiagonal h ordered
  -- Along the order: with the earlier columns gone, only the diagonal entry is left in the next one.
  induction k using WellFoundedLT.induction with
  | ind k earlier =>
    by_contra free
    obtain ⟨x, member, large⟩ := chain.diagonal_left h ordered diagonal free
    refine idle (col k) (col k).isLt ⟨row k, x, ?_, large⟩
    have distinct := consistent.distinctCols _ (col k).isLt
    refine eq_singleton_of_nodup distinct.of_map member fun ⟨i, y⟩ entry => ?_
    have inside := (consistent.colRange _ (col k).isLt i (List.mem_map_of_mem entry)).1
    obtain ⟨l, rfl⟩ := exists_place row inside
    obtain ⟨le, open_⟩ := chain.open_of_mem h ordered entry
    obtain rfl : l = k := le.antisymm (Fin.not_lt.mp fun less => open_ (earlier l less))
    rw [← valueAt_of_mem distinct member, ← valueAt_of_mem distinct entry]

theorem entryCount_of_idle (idle : ∀ j < m, ¬w.DueColumn tolerance j) :
    entryCount m w.cols = 0 := by
  refine Finset.sum_eq_zero fun j hj => ?_
  have inside := Finset.mem_range.mp hj
  obtain ⟨k, rfl⟩ := exists_place col inside
  rw [(chain.consistent_done h).col_done inside (chain.cols_done h ordered idle k), List.length_nil]

theorem length_of_idle (idle : ∀ j < m, ¬w.DueColumn tolerance j) : more.length = m := by
  have triangular := chain.triangular h
  refine Nat.le_antisymm triangular.length_le ?_
  have subset : List.range m ⊆ more.map Stage.col := fun j hj => by
    obtain ⟨k, rfl⟩ := exists_place col (List.mem_range.mp hj)
    exact chain.cols_done h ordered idle k
  simpa using (List.nodup_range.subperm subset).length_le

end Singly

end SimplexBasis
