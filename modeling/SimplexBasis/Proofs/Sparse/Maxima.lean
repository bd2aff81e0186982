import SimplexBasis.Proofs.Sparse.Pivoting

/-!
# Maxima of columns

The largest magnitude of each column is kept up to date through every pivot. This needs no more of
the scalars than that the larger of two magnitudes does not depend on their order.
-/

set_option linter.unusedSectionVars false

namespace SimplexBasis

/-- Magnitudes are compared as in a linear order. -/
class LawfulMagnitudes (α : Type) [Scalar α] : Prop where
  max_right_comm : ∀ a x y : α, Scalar.max (Scalar.max a (Scalar.abs x)) (Scalar.abs y) =
    Scalar.max (Scalar.max a (Scalar.abs y)) (Scalar.abs x)
  max_of_not_le : ∀ a x : α, ¬Scalar.max a (Scalar.abs x) ≤ Scalar.abs x →
    Scalar.max a (Scalar.abs x) = a

variable {α : Type} [Scalar α] {v w : ActiveView α} {m i j r c : Nat} {x tolerance : α}
  {rowsDone colsDone : List Nat} {stages front more : List (Stage α)}

section Lawful

variable [LawfulMagnitudes α] {entries others : List (Nat × α)}

theorem largestOf_perm (perm : entries.Perm others) : largestOf entries = largestOf others :=
  perm.foldl_eq' (fun e _ f _ a => LawfulMagnitudes.max_right_comm a e.2 f.2) 0

theorem largestOf_withoutKey (distinct : (keys entries).Nodup) (member : (i, x) ∈ entries)
    (small : ¬largestOf entries ≤ Scalar.abs x) :
    largestOf (withoutKey i entries) = largestOf entries := by
  have perm : entries.Perm (withoutKey i entries ++ [(i, x)]) :=
    (List.filter_append_perm (·.1 != i) entries).symm.trans
      (filter_key_eq distinct member ▸ (withoutKey_perm distinct).symm.append_right _)
  have last : largestOf entries = Scalar.max (largestOf (withoutKey i entries)) (Scalar.abs x) := by
    rw [largestOf_perm perm]
    simp [largestOf]
  rw [last] at small ⊢
  exact (LawfulMagnitudes.max_of_not_le _ _ small).symm

end Lawful

namespace ActiveView

/-- The maxima of the columns without a pivot are known. -/
def MaxKnown (v : ActiveView α) (m : Nat) (colsDone : List Nat) : Prop :=
  ∀ j < m, j ∉ colsDone → v.colMax.getD j 0 = largestOf (v.cols j)

theorem SameEntries.maxKnown (same : v.SameEntries w) (h : v.MaxKnown m colsDone) :
    w.MaxKnown m colsDone := by
  unfold MaxKnown
  rwa [same.cols, same.colMax]

variable [LawfulMagnitudes α]

theorem MaxKnown.removeFromColumn {k : Nat} (h : v.MaxKnown m colsDone) (sized : v.colMax.size = m)
    (hk : k < m) (free : k ∉ colsDone) (distinct : (keys (v.cols k)).Nodup)
    (member : (i, x) ∈ v.cols k) : (v.removeFromColumn i k x).MaxKnown m colsDone := by
  intro j hj freeJ
  have known := h j hj freeJ
  have insideK : k < v.colMax.size := by rwa [sized]
  simp only [ActiveView.removeFromColumn, recount, Function.update_apply]
  by_cases same : j = k
  · subst same
    rw [if_pos rfl, known]
    by_cases large : largestOf (v.cols j) ≤ Scalar.abs x
    · rw [if_pos large, getD_setIfInBounds insideK, if_pos rfl]
    · rw [if_neg large, known, largestOf_withoutKey distinct member large]
  · rw [if_neg same, ← known]
    by_cases large : v.colMax.getD k 0 ≤ Scalar.abs x
    · rw [if_pos large, getD_setIfInBounds insideK, if_neg same]
    · rw [if_neg large]

theorem MaxKnown.removeColumns {ks : List Nat} (h : v.MaxKnown m colsDone)
    (sized : v.colMax.size = m) (distinct : ks.Nodup)
    (inside : ∀ k ∈ ks, k < m ∧ k ∉ colsDone ∧ (keys (v.cols k)).Nodup ∧ i ∈ keys (v.cols k)) :
    (v.removeColumns i ks).MaxKnown m colsDone := by
  induction ks using List.reverseRecOn with
  | nil => exact h
  | append_singleton ks k ih =>
    obtain ⟨nodup, -, apart⟩ := List.nodup_append.mp distinct
    have fresh : k ∉ ks := fun h => apart k h k List.mem_cons_self rfl
    obtain ⟨hk, free, distinctKeys, keyed⟩ := inside k (by simp)
    have same : (v.removeColumns i ks).cols k = v.cols k := by
      simp [cols_removeColumns nodup, fresh]
    obtain ⟨⟨_, x⟩, member, rfl⟩ := List.mem_map.mp keyed
    rw [removeColumns_concat, same, valueAt_of_mem distinctKeys member]
    exact (ih nodup fun l hl => inside l (by simp [hl])).removeFromColumn
      (by rw [size_colMax_removeColumns, sized]) hk free (same ▸ distinctKeys) (same ▸ member)

theorem MaxKnown.rewriteColumns {f : Nat → List (Nat × α)} {ks : List Nat}
    (h : v.MaxKnown m colsDone) (sized : v.colMax.size = m) (inside : ∀ k ∈ ks, k < m) :
    (v.rewriteColumns f ks).MaxKnown m colsDone ∧ (v.rewriteColumns f ks).colMax.size = m := by
  induction ks using List.reverseRecOn with
  | nil => exact ⟨h, sized⟩
  | append_singleton ks k ih =>
    obtain ⟨before, size⟩ := ih fun l hl => inside l (by simp [hl])
    rw [rewriteColumns_concat]
    refine ⟨fun j hj free => ?_, ?_⟩
    · have known := before j hj free
      have insideK : k < (v.rewriteColumns f ks).colMax.size := by
        rw [size]
        exact inside k (by simp)
      simp only [writeColumn, recount, Function.update_apply]
      rw [getD_setIfInBounds insideK, known]
      split <;> rfl
    · simpa [writeColumn, recount] using size

theorem MaxKnown.pivoted (h : v.MaxKnown m colsDone) (colMax : w.colMax = v.colMax)
    (cols : ∀ j < m, j ≠ c → w.cols j = v.cols j) : w.MaxKnown m (colsDone ++ [c]) := by
  intro j hj free
  obtain ⟨old, ne⟩ : j ∉ colsDone ∧ j ≠ c := by simpa using free
  rw [colMax, cols j hj ne]
  exact h j hj old

namespace Consistent

theorem maxKnown_pivotAt (h : v.Consistent m rowsDone colsDone) (hc : c < m)
    (pivot : (r, x) ∈ v.cols c) (known : v.MaxKnown m colsDone) :
    (v.pivotAt tolerance r c x).MaxKnown m (colsDone ++ [c]) := by
  have keyed : r ∈ keys (v.cols c) := List.mem_map_of_mem (f := Prod.fst) pivot
  have hr := (h.colRange c hc r keyed).1
  unfold pivotAt
  split
  · have removed := @MaxKnown.removeColumns _ _ _ _ r _ _ ((v.rows r).filter (· != c)) known h.sized
      ((h.distinctRows r hr).filter _) fun k hk => by
        obtain ⟨inRow, -⟩ := List.mem_filter.mp hk
        obtain ⟨range, free⟩ := h.rowRange r hr k inRow
        exact ⟨range, free, h.distinctCols k range, (h.agree r hr k range).mp inRow⟩
    refine removed.pivoted rfl fun j hj ne => ?_
    simp [ActiveView.columnPivot, recount, drop, ne]
  · split
    · refine known.pivoted ?_ fun j hj ne => ?_
      · simp [ActiveView.rowPivot, recount, drop]
      · simp [cols_rowPivot, ne]
    · have rewritten := (@MaxKnown.rewriteColumns _ _ _ _ _ _ (v.newColumn tolerance r c x)
        (v.crossingCols r c) known h.sized fun k hk =>
          (h.rowRange r hr k (mem_crossingCols.mp hk).2).1).1
      refine rewritten.pivoted ?_ fun j hj ne => ?_
      · simp [ActiveView.generalPivot, ActiveView.rewritten, recount, drop]
      · simp [ActiveView.generalPivot, ActiveView.rewritten, recount, drop, ne]

end Consistent

end ActiveView

namespace Pivoting

theorem maxKnown [LawfulMagnitudes α] (chain : Pivoting tolerance m front v more w)
    (h : v.MaxKnown m (front.map Stage.col)) : w.MaxKnown m ((front ++ more).map Stage.col) := by
  induction chain with
  | start => simpa using h
  | relist _ same _ ih => exact same.maxKnown ih
  | pivot _ consistent inside member ih =>
    rw [← List.append_assoc, List.map_append]
    exact consistent.maxKnown_pivotAt inside member ih

end Pivoting

end SimplexBasis
