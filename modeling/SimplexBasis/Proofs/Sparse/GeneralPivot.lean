import SimplexBasis.Proofs.Sparse.ColumnUpdate
import SimplexBasis.Proofs.Sparse.Consistency

/-!
# General pivots on views

A pivot whose row and column both have other entries rewrites the columns of its row and the rows of
its column. The rewritten view is consistent again.
-/

set_option linter.unusedSectionVars false

namespace SimplexBasis.ActiveView

variable {α : Type} [Scalar α] {v : ActiveView α} {m r c : Nat} {x tolerance : α}
  {rowsDone colsDone ks : List Nat}

/-! ### Rewriting lines -/

def writeColumn (v : ActiveView α) (j : Nat) (entries : List (Nat × α)) : ActiveView α :=
  { recount { v with cols := Function.update v.cols j entries } (v.cols j).length entries.length with
    colMax := v.colMax.setIfInBounds j (largestOf entries)
    colLists := relisted v.colLists j entries.length }

def writeRow (v : ActiveView α) (i : Nat) (pattern : List Nat) : ActiveView α :=
  { v with
    rows := Function.update v.rows i pattern
    rowLists := relisted v.rowLists i pattern.length }

def rewriteColumns (v : ActiveView α) (f : Nat → List (Nat × α)) (ks : List Nat) : ActiveView α :=
  ks.foldl (fun w k => w.writeColumn k (f k)) v

def rewriteRows (v : ActiveView α) (f : Nat → List Nat) (ks : List Nat) : ActiveView α :=
  ks.foldl (fun w k => w.writeRow k (f k)) v

theorem rewriteColumns_concat (v : ActiveView α) (f : Nat → List (Nat × α)) (ks : List Nat)
    (k : Nat) : v.rewriteColumns f (ks ++ [k]) = (v.rewriteColumns f ks).writeColumn k (f k) := by
  simp [rewriteColumns]

theorem rewriteRows_concat (v : ActiveView α) (f : Nat → List Nat) (ks : List Nat) (k : Nat) :
    v.rewriteRows f (ks ++ [k]) = (v.rewriteRows f ks).writeRow k (f k) := by
  simp [rewriteRows]

section Columns

variable {f : Nat → List (Nat × α)} {P : Nat → Nat → Prop}

@[simp] theorem rows_rewriteColumns : (v.rewriteColumns f ks).rows = v.rows := by
  induction ks using List.reverseRecOn with
  | nil => rfl
  | append_singleton ks k ih => rw [rewriteColumns_concat]; exact ih

@[simp] theorem rowLists_rewriteColumns : (v.rewriteColumns f ks).rowLists = v.rowLists := by
  induction ks using List.reverseRecOn with
  | nil => rfl
  | append_singleton ks k ih => rw [rewriteColumns_concat]; exact ih

@[simp] theorem size_colMax_rewriteColumns :
    (v.rewriteColumns f ks).colMax.size = v.colMax.size := by
  induction ks using List.reverseRecOn with
  | nil => rfl
  | append_singleton ks k ih => rw [rewriteColumns_concat, ← ih]; simp [writeColumn]

theorem cols_rewriteColumns :
    (v.rewriteColumns f ks).cols = fun k => if k ∈ ks then f k else v.cols k := by
  induction ks using List.reverseRecOn with
  | nil => rfl
  | append_singleton ks k ih =>
    rw [rewriteColumns_concat]
    funext l
    simp only [writeColumn, recount, ih, Function.update_apply]
    grind

theorem listed_rewriteColumns (inside : ∀ k ∈ ks, k < m) (listed : Listed m v.colLists P) :
    Listed m (v.rewriteColumns f ks).colLists fun k n =>
      if k ∈ ks then n = (f k).length else P k n := by
  induction ks using List.reverseRecOn with
  | nil => exact listed.congr fun _ _ _ _ => by simp
  | append_singleton ks k ih =>
    have before := ih fun l hl => inside l (by simp [hl])
    have after := @Listed.relist _ k (f k).length _ _ before (inside k (by simp))
    rw [rewriteColumns_concat]
    exact after.congr fun e _ n _ => by grind

theorem counted_rewriteColumns (inside : ∀ k ∈ ks, k < m) (counted : v.nonzeros = entryCount m v.cols)
    (room : entryCount m v.cols + (ks.map fun k => (f k).length).sum < UInt64.size) :
    (v.rewriteColumns f ks).nonzeros = entryCount m (v.rewriteColumns f ks).cols ∧
      entryCount m (v.rewriteColumns f ks).cols ≤
        entryCount m v.cols + (ks.map fun k => (f k).length).sum := by
  induction ks using List.reverseRecOn with
  | nil => exact ⟨counted, Nat.le_refl _⟩
  | append_singleton ks k ih =>
    simp only [List.map_append, List.map_cons, List.map_nil, List.sum_append, List.sum_cons,
      List.sum_nil, Nat.add_zero] at room ⊢
    obtain ⟨before, below⟩ := ih (fun l hl => inside l (by simp [hl])) (by omega)
    have hk := inside k (by simp)
    have total := entryCount_update (v.rewriteColumns f ks).cols (f k) hk
    have enough := length_le_entryCount (v.rewriteColumns f ks).cols hk
    rw [rewriteColumns_concat]
    simp only [writeColumn, recount]
    constructor
    · rw [before, Word.add_of_lt (by omega), Word.sub_of_le (by omega)]
      omega
    · omega

end Columns

section Rows

variable {f : Nat → List Nat} {P : Nat → Nat → Prop}

@[simp] theorem cols_rewriteRows : (v.rewriteRows f ks).cols = v.cols := by
  induction ks using List.reverseRecOn with
  | nil => rfl
  | append_singleton ks k ih => rw [rewriteRows_concat]; exact ih

@[simp] theorem colLists_rewriteRows : (v.rewriteRows f ks).colLists = v.colLists := by
  induction ks using List.reverseRecOn with
  | nil => rfl
  | append_singleton ks k ih => rw [rewriteRows_concat]; exact ih

@[simp] theorem colMax_rewriteRows : (v.rewriteRows f ks).colMax = v.colMax := by
  induction ks using List.reverseRecOn with
  | nil => rfl
  | append_singleton ks k ih => rw [rewriteRows_concat]; exact ih

@[simp] theorem nonzeros_rewriteRows : (v.rewriteRows f ks).nonzeros = v.nonzeros := by
  induction ks using List.reverseRecOn with
  | nil => rfl
  | append_singleton ks k ih => rw [rewriteRows_concat]; exact ih

theorem rows_rewriteRows :
    (v.rewriteRows f ks).rows = fun k => if k ∈ ks then f k else v.rows k := by
  induction ks using List.reverseRecOn with
  | nil => rfl
  | append_singleton ks k ih =>
    rw [rewriteRows_concat]
    funext l
    simp only [writeRow, ih, Function.update_apply]
    grind

theorem listed_rewriteRows (inside : ∀ k ∈ ks, k < m) (listed : Listed m v.rowLists P) :
    Listed m (v.rewriteRows f ks).rowLists fun k n =>
      if k ∈ ks then n = (f k).length else P k n := by
  induction ks using List.reverseRecOn with
  | nil => exact listed.congr fun _ _ _ _ => by simp
  | append_singleton ks k ih =>
    have before := ih fun l hl => inside l (by simp [hl])
    have after := @Listed.relist _ k (f k).length _ _ before (inside k (by simp))
    rw [rewriteRows_concat]
    exact after.congr fun e _ n _ => by grind

end Rows

/-! ### The pivot -/

def crossingCols (v : ActiveView α) (r c : Nat) : List Nat := (v.rows r).filter (· != c)

def crossingRows (v : ActiveView α) (r c : Nat) : List Nat := keys ((v.cols c).filter (·.1 != r))

/-- Column `k` after the pivot. -/
def newColumn (v : ActiveView α) (tolerance : α) (r c : Nat) (x : α) (k : Nat) : List (Nat × α) :=
  ColumnUpdate.updated tolerance r (v.stageAt r c x).lower (valueAt (v.cols k) r) (v.cols k)

/-- Row `k` after the pivot: the columns outside of the pivot row and behind them those of the pivot
row that hold `k` afterwards. -/
def newRow (v : ActiveView α) (tolerance : α) (r c : Nat) (x : α) (k : Nat) : List Nat :=
  (v.rows k).filter (fun j => j ∉ c :: v.crossingCols r c) ++
    (v.crossingCols r c).filter fun j => k ∈ keys (v.newColumn tolerance r c x j)

/-- The columns and rows rewritten, before row `r` and column `c` are dropped. -/
def rewritten (v : ActiveView α) (tolerance : α) (r c : Nat) (x : α) : ActiveView α :=
  (v.rewriteColumns (v.newColumn tolerance r c x) (v.crossingCols r c)).rewriteRows
    (v.newRow tolerance r c x) (v.crossingRows r c)

def generalPivot (v : ActiveView α) (tolerance : α) (r c : Nat) (x : α) : ActiveView α :=
  let w := v.rewritten tolerance r c x
  (w.recount (w.cols c).length 0).drop r c

def pivotAt (v : ActiveView α) (tolerance : α) (r c : Nat) (x : α) :
    ActiveView α :=
  if (v.cols c).length = 1 then v.columnPivot r c
  else if (v.rows r).length = 1 then v.rowPivot r c
  else v.generalPivot tolerance r c x

theorem keys_stageAt_lower (v : ActiveView α) (r c : Nat) (x : α) :
    keys (v.stageAt r c x).lower = v.crossingRows r c := by
  simp [stageAt, crossingRows]

theorem keys_stageAt_upper (v : ActiveView α) (r c : Nat) (x : α) :
    keys (v.stageAt r c x).upper = v.crossingCols r c := by
  simp only [stageAt, crossingCols, keys, List.map_map]
  exact List.map_id _

theorem mem_crossingRows {k : Nat} :
    k ∈ v.crossingRows r c ↔ k ≠ r ∧ k ∈ keys (v.cols c) := mem_keys_filter_ne

theorem mem_crossingCols {k : Nat} :
    k ∈ v.crossingCols r c ↔ k ≠ c ∧ k ∈ v.rows r := by
  simp [crossingCols, and_comm]

theorem cols_generalPivot (v : ActiveView α) (tolerance : α) (r c : Nat) (x : α) :
    (v.generalPivot tolerance r c x).cols = fun k => if k = c then []
      else if k ∈ v.crossingCols r c then v.newColumn tolerance r c x k else v.cols k := by
  simp only [generalPivot, rewritten, recount, drop, cols_rewriteRows, cols_rewriteColumns]
  funext k
  rw [Function.update_apply]

theorem rows_generalPivot (v : ActiveView α) (tolerance : α) (r c : Nat) (x : α) :
    (v.generalPivot tolerance r c x).rows = fun k => if k = r then []
      else if k ∈ v.crossingRows r c then v.newRow tolerance r c x k else v.rows k := by
  simp only [generalPivot, rewritten, recount, drop, rows_rewriteRows, rows_rewriteColumns]
  funext k
  rw [Function.update_apply]

namespace Consistent

theorem nodup_crossingRows (h : v.Consistent m rowsDone colsDone) (hc : c < m) :
    (v.crossingRows r c).Nodup := nodup_keys_filter (h.distinctCols c hc) _

theorem nodup_crossingCols (h : v.Consistent m rowsDone colsDone) (hr : r < m) :
    (v.crossingCols r c).Nodup := (h.distinctRows r hr).filter _

variable (h : v.Consistent m rowsDone colsDone) (hr : r < m) (hc : c < m)

include h hr hc

theorem nodup_newColumn {k : Nat} (hk : k < m) :
    (keys (v.newColumn tolerance r c x k)).Nodup :=
  ColumnUpdate.nodup_updated (h.distinctCols k hk)
    (keys_stageAt_lower v r c x ▸ h.nodup_crossingRows hc)

theorem mem_newColumn {k i : Nat} (hk : k < m)
    (member : i ∈ keys (v.newColumn tolerance r c x k)) : i < m ∧ i ≠ r ∧
      (i ∈ keys (v.cols k) ∨ i ∈ v.crossingRows r c) := by
  have range : i < m := by
    rcases ColumnUpdate.mem_keys_updated member with old | fill
    · exact (h.colRange k hk i old).1
    · rw [keys_stageAt_lower] at fill
      exact (h.colRange c hc i (mem_crossingRows.mp fill).2).1
  by_cases fill : i ∈ v.crossingRows r c
  · exact ⟨range, (mem_crossingRows.mp fill).1, .inr fill⟩
  · obtain ⟨e, he, rfl⟩ := List.mem_map.mp member
    have kept := (ColumnUpdate.mem_updated_of_not_mem (by rwa [keys_stageAt_lower])).mp he
    exact ⟨range, kept.1, .inl (List.mem_map_of_mem (f := Prod.fst) kept.2)⟩

theorem mem_newColumn_of_not_mem {k i : Nat} (ne : i ≠ r)
    (fresh : i ∉ v.crossingRows r c) :
    i ∈ keys (v.newColumn tolerance r c x k) ↔ i ∈ keys (v.cols k) := by
  simp only [List.mem_map]
  constructor
  · rintro ⟨e, he, rfl⟩
    exact ⟨e, ((ColumnUpdate.mem_updated_of_not_mem (by rwa [keys_stageAt_lower])).mp he).2, rfl⟩
  · rintro ⟨e, he, rfl⟩
    exact ⟨e, (ColumnUpdate.mem_updated_of_not_mem (by rwa [keys_stageAt_lower])).mpr ⟨ne, he⟩, rfl⟩

theorem nodup_newRow {k : Nat} (hk : k < m) : (v.newRow tolerance r c x k).Nodup := by
  refine List.nodup_append.mpr ⟨(h.distinctRows k hk).filter _,
    (h.nodup_crossingCols hr).filter _, ?_⟩
  rintro j hj _ hj' rfl
  have outside := (List.mem_filter.mp hj).2
  have inside := (List.mem_filter.mp hj').1
  simp [inside] at outside

theorem mem_newRow {k j : Nat} : j ∈ v.newRow tolerance r c x k ↔
    (j ∈ v.rows k ∧ j ≠ c ∧ j ∉ v.crossingCols r c) ∨
      (j ∈ v.crossingCols r c ∧ k ∈ keys (v.newColumn tolerance r c x j)) := by
  simp [newRow]

theorem cols_inside : ∀ k ∈ v.crossingCols r c, k < m := h.row_inside hr

theorem rows_inside : ∀ k ∈ v.crossingRows r c, k < m := h.col_inside hc

theorem agree_generalPivot {k l : Nat} (hk : k < m) (hl : l < m) :
    l ∈ (v.generalPivot tolerance r c x).rows k ↔
      k ∈ keys ((v.generalPivot tolerance r c x).cols l) := by
  simp only [rows_generalPivot, cols_generalPivot]
  have agree := h.agree k hk l hl
  have agreeCol := h.agree k hk c hc
  have crossRow := mem_crossingRows (v := v) (r := r) (c := c) (k := k)
  have crossCol := mem_crossingCols (v := v) (r := r) (c := c) (k := l)
  have rowEntry := @mem_newRow _ _ _ _ _ _ x tolerance _ _ h hr hc k l
  by_cases pivotRow : k = r
  · have none : k ∉ keys (v.newColumn tolerance r c x l) := fun member =>
      (h.mem_newColumn hr hc hl member).2.1 pivotRow
    have rowAgree := h.agree r hr l hl
    subst pivotRow
    grind
  · have unchanged := fun fresh => @mem_newColumn_of_not_mem _ _ _ _ _ _ x tolerance
      _ _ h hr hc l _ pivotRow fresh
    grind

theorem colRange_generalPivot {k l : Nat} (hl : l < m)
    (hk : k ∈ keys ((v.generalPivot tolerance r c x).cols l)) : k < m ∧ k ∉ rowsDone ++ [r] := by
  simp only [cols_generalPivot] at hk
  split at hk
  · simp at hk
  · rename_i other
    split at hk
    · obtain ⟨range, ne, old⟩ := h.mem_newColumn hr hc hl hk
      have free : k ∉ rowsDone := by
        rcases old with old | fill
        · exact (h.colRange l hl k old).2
        · exact (h.colRange c hc k (mem_crossingRows.mp fill).2).2
      simp_all
    · rename_i untouched
      have range := h.colRange l hl k hk
      have ne : k ≠ r := by
        rintro rfl
        exact untouched (mem_crossingCols.mpr ⟨other, (h.agree k hr l hl).mpr hk⟩)
      simp_all

theorem rowRange_generalPivot {k l : Nat} (hk : k < m)
    (hl : l ∈ (v.generalPivot tolerance r c x).rows k) : l < m ∧ l ∉ colsDone ++ [c] := by
  simp only [rows_generalPivot] at hl
  split at hl
  · simp at hl
  · rename_i other
    split at hl
    · rcases (h.mem_newRow hr hc).mp hl with ⟨old, ne, -⟩ | ⟨crossing, -⟩
      · have range := h.rowRange k hk l old
        simp_all
      · obtain ⟨ne, inPivotRow⟩ := mem_crossingCols.mp crossing
        have range := h.rowRange r hr l inPivotRow
        simp_all
    · rename_i untouched
      have range := h.rowRange k hk l hl
      have ne : l ≠ c := by
        rintro rfl
        exact untouched (mem_crossingRows.mpr ⟨other, (h.agree k hk l hc).mp hl⟩)
      simp_all

theorem colListed_generalPivot : Listed m (v.generalPivot tolerance r c x).colLists fun l n =>
    l ∉ colsDone ++ [c] ∧ n = ((v.generalPivot tolerance r c x).cols l).length := by
  have listed := (listed_rewriteColumns (f := v.newColumn tolerance r c x) (h.cols_inside hr hc)
    h.colListed).erase c
  have lists : (v.generalPivot tolerance r c x).colLists = fun n =>
      ((v.rewriteColumns (v.newColumn tolerance r c x) (v.crossingCols r c)).colLists n).erase c := by
    simp [ActiveView.generalPivot, rewritten, recount, drop]
  rw [lists]
  refine listed.congr fun e _ n _ => ?_
  simp only [cols_generalPivot]
  by_cases pivotCol : e = c
  · simp [pivotCol]
  · by_cases touched : e ∈ v.crossingCols r c
    · have free := (h.rowRange r hr e (mem_crossingCols.mp touched).2).2
      simp [pivotCol, touched, free]
    · simp [pivotCol, touched]

theorem rowListed_generalPivot (keyed : r ∈ keys (v.cols c)) : ∃ list : Nat → Nat,
    (∀ k < m, list k = ((v.generalPivot tolerance r c x).rows k).length ∨ list k = m + 1) ∧
      Listed m (v.generalPivot tolerance r c x).rowLists
        fun k n => k ∉ rowsDone ++ [r] ∧ n = list k := by
  obtain ⟨list, lengths, listed⟩ := h.rowListed
  have listed := (listed_rewriteRows (v := v.rewriteColumns (v.newColumn tolerance r c x)
    (v.crossingCols r c)) (f := v.newRow tolerance r c x) (h.rows_inside hr hc)
    (by simpa using listed)).erase r
  refine ⟨fun k => if k ∈ keys (v.cols c) then
    ((v.generalPivot tolerance r c x).rows k).length else list k, fun k hk => ?_,
    listed.congr fun e _ n _ => ?_⟩
  · by_cases touched : k ∈ keys (v.cols c)
    · simp [touched]
    · have other : k ≠ r := by rintro rfl; exact touched keyed
      have untouched : k ∉ v.crossingRows r c := fun h => touched (mem_crossingRows.mp h).2
      simp only [rows_generalPivot, if_neg other, if_neg untouched, if_neg touched]
      exact lengths k hk
  · by_cases pivotRow : e = r
    · simp [pivotRow]
    · have crossing : e ∈ v.crossingRows r c ↔ e ∈ keys (v.cols c) := by
        simp [mem_crossingRows, pivotRow]
      by_cases touched : e ∈ keys (v.cols c)
      · have free := (h.colRange c hc e touched).2
        simp only [crossing, touched, rows_generalPivot, if_neg pivotRow, List.mem_append,
          List.mem_singleton]
        simp [pivotRow, free]
      · simp only [crossing, touched, rows_generalPivot, List.mem_append, List.mem_singleton]
        simp [pivotRow]

/-- The entries are counted, and there are no more of them than before the pivot and in the rewritten
columns together. -/
theorem counted_generalPivot (room : entryCount m v.cols + ((v.crossingCols r c).map fun k =>
      (v.newColumn tolerance r c x k).length).sum < UInt64.size) :
    (v.generalPivot tolerance r c x).nonzeros =
        entryCount m (v.generalPivot tolerance r c x).cols ∧
      (v.generalPivot tolerance r c x).nonzeros < UInt64.size := by
  obtain ⟨counted, below⟩ := counted_rewriteColumns (f := v.newColumn tolerance r c x)
    (h.cols_inside hr hc) h.counted room
  have same : (v.rewritten tolerance r c x).cols = (v.rewriteColumns (v.newColumn tolerance r c x)
    (v.crossingCols r c)).cols := cols_rewriteRows
  have sameCount : (v.rewritten tolerance r c x).nonzeros = (v.rewriteColumns
    (v.newColumn tolerance r c x) (v.crossingCols r c)).nonzeros := nonzeros_rewriteRows
  have total := entryCount_update (v.rewritten tolerance r c x).cols [] hc
  have enough := length_le_entryCount (v.rewritten tolerance r c x).cols hc
  have remaining : (v.generalPivot tolerance r c x).nonzeros =
      entryCount m (v.rewritten tolerance r c x).cols -
        ((v.rewritten tolerance r c x).cols c).length := by
    simp only [ActiveView.generalPivot, recount, drop]
    rw [sameCount, counted, ← same, Word.add_of_lt (by rw [same]; omega), Word.sub_of_le (by omega)]
    omega
  have final : entryCount m (v.generalPivot tolerance r c x).cols =
      entryCount m (Function.update (v.rewritten tolerance r c x).cols c []) := rfl
  rw [List.length_nil] at total
  rw [remaining, final]
  refine ⟨by omega, ?_⟩
  rw [same]
  omega

theorem generalPivot (pivot : (r, x) ∈ v.cols c)
    (room : entryCount m v.cols + ((v.crossingCols r c).map fun k =>
      (v.newColumn tolerance r c x k).length).sum < UInt64.size) :
    (v.generalPivot tolerance r c x).Consistent m (rowsDone ++ [r]) (colsDone ++ [c]) where
  distinctCols k hk := by
    simp only [cols_generalPivot]
    split
    · exact List.nodup_nil
    · split
      · exact h.nodup_newColumn hr hc hk
      · exact h.distinctCols k hk
  distinctRows k hk := by
    simp only [rows_generalPivot]
    split
    · exact List.nodup_nil
    · split
      · exact h.nodup_newRow hr hc hk
      · exact h.distinctRows k hk
  agree _ hk _ hl := h.agree_generalPivot hr hc hk hl
  colRange _ hl _ hk := h.colRange_generalPivot hr hc hl hk
  rowRange _ hk _ hl := h.rowRange_generalPivot hr hc hk hl
  colListed := h.colListed_generalPivot hr hc
  rowListed := h.rowListed_generalPivot hr hc (List.mem_map_of_mem (f := Prod.fst) pivot)
  sized := by simpa [ActiveView.generalPivot, rewritten, recount, drop] using h.sized
  counted := (h.counted_generalPivot hr hc room).1
  small := (h.counted_generalPivot hr hc room).2

end Consistent

end SimplexBasis.ActiveView
