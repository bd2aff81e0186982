import SimplexBasis.Proofs.Dense.Kernel
import SimplexBasis.Proofs.Sparse.Residual

/-!
# Stages of an eliminated block

The stages that an eliminated block holds, by the rows and columns of the matrix it was taken from.
They fit behind the stages before the block, and their products make up what was left in it.
-/

set_option linter.unusedSectionVars false

namespace SimplexBasis.Dense

variable {α : Type} [Scalar α] {d m i j p q s t n : Nat}

/-! ### Places -/

/-- The index at place `t`, where `order` holds places of `indices`. -/
def placed (order indices : Array Nat) (t : Nat) : Nat := indices.getD (order.getD t 0) 0

theorem map_getD_range (xs : Array Nat) :
    (List.range xs.size).map (fun t => xs.getD t 0) = xs.toList := by
  refine List.ext_getElem (by simp) fun t ht ht' => ?_
  have inside : t < xs.size := by simpa using ht
  simp [Array.getD, inside]

section Placed

variable {order indices : Array Nat} (perm : order.toList.Perm (List.range d))
  (size : indices.size = d)

include perm size

theorem placed_perm : ((List.range d).map (placed order indices)).Perm indices.toList := by
  have sizeOrder : order.size = d := by simpa using perm.length_eq
  have first : (List.range d).map (placed order indices) =
      order.toList.map fun k => indices.getD k 0 := by
    rw [← map_getD_range order, List.map_map, sizeOrder]
    rfl
  rw [first]
  refine (perm.map _).trans ?_
  rw [← size, map_getD_range]

theorem placed_mem (ht : t < d) : placed order indices t ∈ indices.toList :=
  (placed_perm perm size).mem_iff.mp (List.mem_map_of_mem (List.mem_range.mpr ht))

theorem exists_placed (member : i ∈ indices.toList) : ∃ t < d, placed order indices t = i := by
  obtain ⟨t, ht, eq⟩ := List.mem_map.mp ((placed_perm perm size).mem_iff.mpr member)
  exact ⟨t, List.mem_range.mp ht, eq⟩

theorem placed_inj (distinct : indices.toList.Nodup) (hs : s < d) (ht : t < d) :
    placed order indices s = placed order indices t ↔ s = t := by
  have nodup := (placed_perm perm size).nodup_iff.mpr distinct
  exact ⟨fun eq => List.inj_on_of_nodup_map nodup (List.mem_range.mpr hs) (List.mem_range.mpr ht) eq,
    fun eq => by rw [eq]⟩

/-- The index at a place from `n` on is free as long as only those before it are taken. -/
theorem placed_fresh {before : List Nat} (distinct : indices.toList.Nodup)
    (free : ∀ i ∈ indices.toList, i < m ∧ i ∉ before) (hn : n ≤ t) (ht : t < d) :
    placed order indices t < m ∧
      placed order indices t ∉ before ++ (List.range n).map (placed order indices) := by
  obtain ⟨range, fresh⟩ := free _ (placed_mem perm size ht)
  refine ⟨range, fun member => ?_⟩
  rcases List.mem_append.mp member with old | new
  · exact fresh old
  · obtain ⟨u, hu, same⟩ := List.mem_map.mp new
    have below := List.mem_range.mp hu
    rw [placed_inj perm size distinct (by omega) ht] at same
    omega

theorem nodup_placed_behind (distinct : indices.toList.Nodup) :
    ((List.range' (n + 1) (d - (n + 1))).map (placed order indices)).Nodup := by
  refine List.Nodup.map_on (fun s hs t ht same => ?_) List.nodup_range'
  have insideS := List.mem_range'_1.mp hs
  have insideT := List.mem_range'_1.mp ht
  exact (placed_inj perm size distinct (by omega) (by omega)).mp same

end Placed

/-! ### Lists of nonzero elements -/

/-- The nonzero ones of the elements `f` at some places, with their indices. -/
def nonzeroAt (index : Nat → Nat) (f : Nat → α) (places : List Nat) : List (Nat × α) :=
  places.filterMap fun t => if f t != 0 then some (index t, f t) else none

theorem mem_keys_nonzeroAt {index : Nat → Nat} {f : Nat → α} {places : List Nat}
    (h : i ∈ keys (nonzeroAt index f places)) : ∃ t ∈ places, index t = i := by
  obtain ⟨e, he, rfl⟩ := List.mem_map.mp h
  obtain ⟨t, ht, eq⟩ := List.mem_filterMap.mp he
  split at eq
  · cases eq
    exact ⟨t, ht, rfl⟩
  · cases eq

/-- What is behind place `n` has an index that is neither the one at `n` nor one before it. -/
theorem nonzeroAt_fresh {order indices : Array Nat} {f : Nat → α} {before : List Nat}
    (perm : order.toList.Perm (List.range d)) (size : indices.size = d)
    (distinct : indices.toList.Nodup) (free : ∀ i ∈ indices.toList, i < m ∧ i ∉ before)
    (member : i ∈ keys (nonzeroAt (placed order indices) f
      (List.range' (n + 1) (d - (n + 1))))) :
    i < m ∧ i ≠ placed order indices n ∧
      i ∉ before ++ (List.range n).map (placed order indices) := by
  obtain ⟨t, ht, rfl⟩ := mem_keys_nonzeroAt member
  have behind := List.mem_range'_1.mp ht
  obtain ⟨range, fresh⟩ :=
    placed_fresh (n := n) (t := t) perm size distinct free (by omega) (by omega)
  refine ⟨range, fun same => ?_, fresh⟩
  have equal := (placed_inj perm size distinct (s := t) (t := n) (by omega) (by omega)).mp same
  omega

theorem nodup_nonzeroAt {index : Nat → Nat} {f : Nat → α} {places : List Nat}
    (distinct : (places.map index).Nodup) : (keys (nonzeroAt index f places)).Nodup := by
  induction places with
  | nil => simp [nonzeroAt]
  | cons t rest ih =>
    obtain ⟨fresh, nodup⟩ := List.nodup_cons.mp distinct
    unfold nonzeroAt at ih ⊢
    rw [List.filterMap_cons]
    split
    · exact ih nodup
    · rename_i e eq
      split at eq
      · cases eq
        refine List.nodup_cons.mpr ⟨fun member => fresh ?_, ih nodup⟩
        obtain ⟨s, hs, same⟩ := mem_keys_nonzeroAt (f := f) member
        exact List.mem_map.mpr ⟨s, hs, same⟩
      · cases eq

theorem valueAt_nonzeroAt {index : Nat → Nat} {f : Nat → ℚ} {places : List Nat}
    (inj : ∀ t ∈ places, index t = index s ↔ t = s) :
    valueAt (nonzeroAt index f places) (index s) = if s ∈ places then f s else 0 := by
  induction places with
  | nil => rfl
  | cons t rest ih =>
    have here := inj t List.mem_cons_self
    have tail := ih fun u hu => inj u (List.mem_cons_of_mem _ hu)
    unfold nonzeroAt at tail ⊢
    rw [List.filterMap_cons]
    by_cases zero : f t = 0
    · rw [if_neg (by simpa using zero)]
      dsimp only
      rw [tail]
      by_cases same : s = t
      · rw [same, zero]
        simp
      · simp [same]
    · rw [if_pos (by simpa using zero)]
      dsimp only
      rw [valueAt_cons, tail]
      grind

/-! ### Stages -/

namespace Elimination

variable {e : Elimination α} {rows cols : Array Nat} {stages : List (Stage α)}

/-- Stage `t` of a block taken from the given rows and columns. -/
def stageOf (d : Nat) (e : Elimination α) (rows cols : Array Nat) (t : Nat) : Stage α where
  row := placed e.rows rows t
  col := placed e.cols cols t
  pivot := element d e.block t t
  lower := nonzeroAt (placed e.rows rows) (fun p => element d e.block p t)
    (List.range' (t + 1) (d - (t + 1)))
  upper := nonzeroAt (placed e.cols cols) (fun q => element d e.block t q)
    (List.range' (t + 1) (d - (t + 1)))

def stagesOf (d : Nat) (e : Elimination α) (rows cols : Array Nat) : List (Stage α) :=
  (List.range e.rank).map (e.stageOf d rows cols)

section Block

variable (h : e.Shape d d) (sizeRows : rows.size = d) (sizeCols : cols.size = d)
  (distinctRows : rows.toList.Nodup) (distinctCols : cols.toList.Nodup)

include h sizeRows sizeCols distinctRows distinctCols

theorem triangular_stagesOf (front : Triangular m stages)
    (rowsFree : ∀ i ∈ rows.toList, i < m ∧ i ∉ stages.map Stage.row)
    (colsFree : ∀ j ∈ cols.toList, j < m ∧ j ∉ stages.map Stage.col) (hn : n ≤ d) :
    Triangular m (stages ++ (List.range n).map (e.stageOf d rows cols)) := by
  have rowsBefore : ∀ n, (stages ++ (List.range n).map (e.stageOf d rows cols)).map Stage.row =
      stages.map Stage.row ++ (List.range n).map (placed e.rows rows) := by
    intro n
    rw [List.map_append, List.map_map]
    rfl
  have colsBefore : ∀ n, (stages ++ (List.range n).map (e.stageOf d rows cols)).map Stage.col =
      stages.map Stage.col ++ (List.range n).map (placed e.cols cols) := by
    intro n
    rw [List.map_append, List.map_map]
    rfl
  induction n with
  | zero => simpa using front
  | succ n ih =>
    obtain ⟨insideRow, freshRow⟩ :=
      placed_fresh h.rows sizeRows distinctRows rowsFree (Nat.le_refl n) (by omega)
    obtain ⟨insideCol, freshCol⟩ :=
      placed_fresh h.cols sizeCols distinctCols colsFree (Nat.le_refl n) (by omega)
    rw [List.range_succ, List.map_append, ← List.append_assoc, List.map_singleton]
    refine (ih (by omega)).concat
      { insideRow
        insideCol
        freshRow := rowsBefore n ▸ freshRow
        freshCol := colsBefore n ▸ freshCol
        distinctLower := nodup_nonzeroAt (nodup_placed_behind h.rows sizeRows distinctRows)
        distinctUpper := nodup_nonzeroAt (nodup_placed_behind h.cols sizeCols distinctCols)
        lower := fun i hi => ?_
        upper := fun j hj => ?_ }
    · rw [rowsBefore]
      exact nonzeroAt_fresh h.rows sizeRows distinctRows rowsFree hi
    · rw [colsBefore]
      exact nonzeroAt_fresh h.cols sizeCols distinctCols colsFree hj

end Block

section Exact

variable {e : Elimination ℚ} {stages : List (Stage ℚ)} (h : e.Shape d d) (sizeRows : rows.size = d)
  (sizeCols : cols.size = d) (distinctRows : rows.toList.Nodup) (distinctCols : cols.toList.Nodup)

include h sizeRows distinctRows in
theorem lowerAt_stageOf (hp : p < d) (ht : t < d) :
    (e.stageOf d rows cols t).lowerAt (placed e.rows rows p) = e.lowerPart d p t := by
  have inj := fun {s t} (hs : s < d) (ht : t < d) =>
    placed_inj (s := s) (t := t) h.rows sizeRows distinctRows hs ht
  have here : placed e.rows rows p = (e.stageOf d rows cols t).row ↔ p = t := inj hp ht
  unfold Stage.lowerAt lowerPart
  by_cases same : p = t
  · rw [if_pos (here.mpr same), if_pos same]
  · rw [if_neg fun eq => same (here.mp eq), if_neg same]
    simp only [stageOf]
    rw [valueAt_nonzeroAt fun u hu => inj (by have := List.mem_range'_1.mp hu; omega) hp]
    simp only [List.mem_range'_1]
    grind

include h sizeCols distinctCols in
theorem upperAt_stageOf (hq : q < d) (ht : t < d) :
    (e.stageOf d rows cols t).upperAt (placed e.cols cols q) = e.upperPart d t q := by
  have inj := fun {s t} (hs : s < d) (ht : t < d) =>
    placed_inj (s := s) (t := t) h.cols sizeCols distinctCols hs ht
  have here : placed e.cols cols q = (e.stageOf d rows cols t).col ↔ q = t := inj hq ht
  unfold Stage.upperAt upperPart
  by_cases same : q = t
  · rw [if_pos (here.mpr same), if_pos (by omega), same]
    rfl
  · rw [if_neg fun eq => same (here.mp eq)]
    simp only [stageOf]
    rw [valueAt_nonzeroAt fun u hu => inj (by have := List.mem_range'_1.mp hu; omega) hq]
    simp only [List.mem_range'_1]
    grind

include h sizeRows in
theorem lowerAt_stageOf_of_not_mem (ht : t < d) (outside : i ∉ rows.toList) :
    (e.stageOf d rows cols t).lowerAt i = 0 := by
  have other : i ≠ placed e.rows rows t := fun eq => outside (eq ▸ placed_mem h.rows sizeRows ht)
  refine (if_neg other).trans (valueAt_of_not_mem fun member => outside ?_)
  obtain ⟨u, hu, rfl⟩ := mem_keys_nonzeroAt member
  exact placed_mem h.rows sizeRows (by have := List.mem_range'_1.mp hu; omega)

include h sizeCols in
theorem upperAt_stageOf_of_not_mem (ht : t < d) (outside : j ∉ cols.toList) :
    (e.stageOf d rows cols t).upperAt j = 0 := by
  have other : j ≠ placed e.cols cols t := fun eq => outside (eq ▸ placed_mem h.cols sizeCols ht)
  refine (if_neg other).trans (valueAt_of_not_mem fun member => outside ?_)
  obtain ⟨u, hu, rfl⟩ := mem_keys_nonzeroAt member
  exact placed_mem h.cols sizeCols (by have := List.mem_range'_1.mp hu; omega)

include h sizeRows sizeCols distinctRows distinctCols

theorem accounts_stagesOf {tolerance : ℚ} {B rest : Nat → Nat → ℚ} (rank : e.rank ≤ d)
    (nonneg : 0 ≤ tolerance) (accounts : Accounts tolerance B m stages rest)
    (outside : ∀ i < m, ∀ j < m, i ∉ rows.toList ∨ j ∉ cols.toList → rest i j = 0)
    (splits : e.Splits (fun p q => rest (rows.getD p 0) (cols.getD q 0)) d d)
    (nothing : ∀ p < d, ∀ q < d, e.restPart d p q = 0) :
    Accounts tolerance B m (stages ++ e.stagesOf d rows cols) fun _ _ => 0 := by
  have product : ∀ i < m, ∀ j < m, productAt (e.stagesOf d rows cols) i j = rest i j := by
    intro i hi j hj
    have entries : ∀ f : Nat → ℚ, (∀ t < e.rank, (e.stageOf d rows cols t).lowerAt i *
          (e.stageOf d rows cols t).upperAt j = f t) →
        productAt (e.stagesOf d rows cols) i j = ((List.range e.rank).map f).sum := by
      intro f same
      unfold productAt Elimination.stagesOf
      rw [List.map_map]
      exact congrArg List.sum (List.map_congr_left fun t ht => same t (List.mem_range.mp ht))
    by_cases inside : i ∈ rows.toList ∧ j ∈ cols.toList
    · obtain ⟨p, hp, rfl⟩ := exists_placed h.rows sizeRows inside.1
      obtain ⟨q, hq, rfl⟩ := exists_placed h.cols sizeCols inside.2
      have split := splits p hp q hq
      rw [nothing p hp q hq, add_zero] at split
      rw [entries (fun t => e.lowerPart d p t * e.upperPart d t q) fun t ht => by
        rw [lowerAt_stageOf h sizeRows distinctRows hp (by omega),
          upperAt_stageOf h sizeCols distinctCols hq (by omega)]]
      exact split.symm
    · have apart : i ∉ rows.toList ∨ j ∉ cols.toList := by
        rwa [not_and_or] at inside
      rw [outside i hi j hj apart, entries (fun _ => 0) fun t ht => ?_]
      · simp
      · rcases apart with row | col
        · rw [lowerAt_stageOf_of_not_mem h sizeRows (by omega) row, zero_mul]
        · rw [upperAt_stageOf_of_not_mem h sizeCols (by omega) col, mul_zero]
  intro i hi j hj
  have before := accounts i hi j hj
  have whole : productAt (stages ++ e.stagesOf d rows cols) i j =
      productAt stages i j + rest i j := by
    rw [← product i hi j hj]
    simp [productAt]
  rw [whole, sub_zero, show B i j - (productAt stages i j + rest i j) =
    B i j - rest i j - productAt stages i j by ring]
  refine before.trans (mul_le_mul_of_nonneg_right ?_ nonneg)
  exact_mod_cast reductionsAt_mono stages _ i j

end Exact

end Elimination

end SimplexBasis.Dense
