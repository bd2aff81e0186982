import SimplexBasis.Dense.Factorization
import SimplexBasis.Proofs.Dense.Stages
import SimplexBasis.Proofs.Sparse.Product

/-!
# Dense factorizations

A dense factorization writes the basis to the front of its array and eliminates it there. What it
leaves are the stages of the whole basis.
-/

set_option linter.unusedSectionVars false

namespace SimplexBasis.DenseFactorization

open Dense (element)
open SparseFactorization (entryOf)

variable {α : Type} [Scalar α] {d t : DenseFactorization α} {b : BasisMatrix α}
  {columns : List (List (Nat × α))} {n j : Nat}

/-! ### Loading -/

/-- The front of the array holds the columns before `j`, and of column `j` the entries in `done`. -/
def Written (n : Nat) (columns : List (List (Nat × α))) (j : Nat) (done : List (Nat × α))
    (xs : Array α) : Prop :=
  n * n ≤ xs.size ∧ ∀ p < n, ∀ q < n, element n xs p q =
    if q < j then entryOf columns p q else if q = j then valueAt done p else 0

theorem writeColumn_ok {xs : Array α} {entries : List (Nat × α)} (hj : j < n)
    (distinct : (keys entries).Nodup) (inside : ∀ i ∈ keys entries, i < n)
    (written : Written n columns j [] xs) :
    ∃ ys, entries.foldlM (fun xs (i, x) => withEntry xs (j * n + i) x) xs =
        (.ok ys : Checked (Array α)) ∧
      ys.size = xs.size ∧ Written n columns j entries ys := by
  refine foldlM_ok (fun done ys => ys.size = xs.size ∧ Written n columns j done ys)
    ⟨rfl, written⟩ ?_
  rintro done ⟨i, x⟩ rest ys split ⟨same, size, elements⟩
  have hi : i < n := inside i (by simp [split])
  have fresh : i ∉ keys done := by
    rw [split, keys_append] at distinct
    exact fun h => (List.nodup_append.mp distinct).2.2 i h i (by simp) rfl
  have place := Dense.place_lt hi hj
  refine ⟨ys.setIfInBounds (j * n + i) x, withEntry_of_lt x (by omega),
    by rw [Array.size_setIfInBounds, same], by rwa [Array.size_setIfInBounds], fun p hp q hq => ?_⟩
  rw [Dense.element_set size hi hj hp, elements p hp q hq, valueAt_concat fresh]
  grind

theorem writeColumns_ok {xs : Array α} (holds : b.Holds columns)
    (enough : b.dimension * b.dimension ≤ xs.size) : ∃ ys, writeColumns b xs = .ok ys ∧
      ys.size = xs.size ∧ Written b.dimension columns b.dimension [] ys := by
  unfold writeColumns
  dsimp only
  rw [if_neg (by omega)]
  have blank : Written b.dimension columns 0 []
      (overwrite xs 0 (List.replicate (b.dimension * b.dimension) 0)) := by
    refine ⟨by rwa [size_overwrite], fun p hp q hq => ?_⟩
    have place := Dense.place_lt hp hq
    unfold element
    rw [Array.getD_eq_getD_getElem?, getElem?_overwrite _ _ _ _ (by simpa using enough)]
    simp [place]
  refine (foldlM_ok (fun done ys => ys.size = xs.size ∧ Written b.dimension columns done.length [] ys)
    ⟨size_overwrite _ _ _, blank⟩ ?_).imp fun ys ⟨run, size, written⟩ =>
      ⟨run, size, by rwa [List.length_range] at written⟩
  rintro done j rest ys split ⟨same, written⟩
  obtain ⟨rfl, hj⟩ := range_split split
  have inside : done.length < columns.length := holds.length ▸ hj
  have member := List.getElem_mem inside
  have read := holds.column_eq (List.getElem?_eq_getElem inside)
  obtain ⟨zs, run, size, written⟩ := writeColumn_ok hj (holds.distinct _ member)
    (holds.inside _ member) written
  refine ⟨zs, by rw [read]; exact run, size.trans same, written.1, fun p hp q hq => ?_⟩
  rw [written.2 p hp q hq, List.length_append, List.length_singleton]
  have value : q = done.length → valueAt columns[done.length] p = entryOf columns p q := by
    rintro rfl
    simp [entryOf, List.getD, inside]
  simp only [valueAt_nil]
  grind

/-- A basis with the given columns is loaded. -/
structure Loaded (d : DenseFactorization α) (columns : List (List (Nat × α))) : Prop where
  loaded : d.loaded = true
  sized : d.dimension * d.dimension ≤ d.elements.size
  elements : ∀ p < d.dimension, ∀ q < d.dimension,
    element d.dimension d.elements p q = entryOf columns p q
  etaRows : d.etaRows = #[]
  etaInverses : d.etaInverses = #[]

theorem allocate_ends (n : Nat) (d : DenseFactorization α) :
    EndsOr SparseFactorization.Overflows (fun _ t => t.options = d.options ∧ t.dimension = n ∧
        t.elements.size = Word.mul n (Word.add n d.options.maxPivotsBeforeRefactor))
      (fun _ _ => False) (allocate n d) := by
  unfold allocate
  rw [get_bind]
  exact .checkCapacity (fun _ => rfl) fun _ => ⟨rfl, rfl, Array.size_replicate⟩

/-- Broken contracts of an array that cannot be addressed. The size of the array may be reduced to a
word that is too small. -/
def Misses (o : Options α) (n : Nat) (b : Breach) : Prop :=
  SparseFactorization.Overflows b ∨
    b = .indexOutOfRange ∧ UInt64.size ≤ n * (n + o.maxPivotsBeforeRefactor)

theorem fill_ends {t : DenseFactorization α} (holds : b.Holds columns)
    (dimension : t.dimension = b.dimension)
    (enough : b.dimension * b.dimension ≤ t.elements.size ∨
      UInt64.size ≤ b.dimension * (b.dimension + t.options.maxPivotsBeforeRefactor)) :
    EndsOr (Misses t.options b.dimension)
      (fun _ u => u.options = t.options ∧ u.dimension = b.dimension ∧ Loaded u columns)
      (fun _ _ => False) ((do
        let elements ← writeColumns b (← get).elements
        modify fun d => { d with
          elements := elements
          etaRows := #[]
          etaInverses := #[]
          order := none
          loaded := true
          valid := false } : Action (DenseFactorization α) Unit) t) := by
  rw [get_bind]
  by_cases fits : b.dimension * b.dimension ≤ t.elements.size
  · obtain ⟨ys, written, size, front, elements⟩ := writeColumns_ok holds fits
    rw [written, lift_ok_bind]
    refine ⟨rfl, dimension, rfl, ?_, ?_, rfl, rfl⟩
    · dsimp only
      rwa [dimension]
    · dsimp only
      rw [dimension]
      intro p hp q hq
      rw [elements p hp q hq, if_pos hq]
  · rw [writeColumns, if_pos (by omega)]
    exact .inr ⟨rfl, enough.resolve_left fits⟩

theorem load_ends (holds : b.Holds columns) (d : DenseFactorization α) :
    EndsOr (Misses d.options b.dimension)
      (fun _ t => t.options = d.options ∧ t.dimension = b.dimension ∧ Loaded t columns)
      (fun _ _ => False) (load b d) := by
  unfold load
  rw [get_bind]
  dsimp only
  split
  · refine ((allocate_ends b.dimension d).mono (fun _ => .inl) (fun _ _ => id) fun _ _ => id).bind ?_
    rintro _ t ⟨options, dimension, size⟩
    have enough : b.dimension * b.dimension ≤ t.elements.size ∨
        UInt64.size ≤ b.dimension * (b.dimension + t.options.maxPivotsBeforeRefactor) := by
      rw [or_iff_not_imp_right, not_le, options]
      intro words
      rcases Nat.eq_zero_or_pos b.dimension with zero | positive
      · simp [zero]
      · have sum := Nat.le_mul_of_pos_left (b.dimension + d.options.maxPivotsBeforeRefactor) positive
        rw [size, Word.add_of_lt (by omega), Word.mul_of_lt words, Nat.mul_add]
        omega
    exact (fill_ends holds dimension enough).mono (fun _ => options ▸ id)
      (fun _ _ ⟨same, rest⟩ => ⟨same.trans options, rest⟩) fun _ _ => id
  · rename_i fits
    exact fill_ends holds (by_contra fun other => fits (.inl (Ne.symm other)))
      (.inl (by omega))

/-! ### Factorizing -/

/-- What a factorization of the matrix with the given columns leaves. -/
structure Eliminated (d : DenseFactorization α) (columns : List (List (Nat × α)))
    (e : Dense.Elimination α) : Prop where
  elements : d.elements = e.block
  order : d.order = some ⟨e.rows, e.cols, e.rank⟩
  etaRows : d.etaRows = #[]
  etaInverses : d.etaInverses = #[]
  source : ∃ xs : Array α, d.dimension * d.dimension ≤ xs.size ∧
    (∀ p < d.dimension, ∀ q < d.dimension, element d.dimension xs p q = entryOf columns p q) ∧
    e = Dense.eliminate xs d.dimension d.dimension d.options.zeroTolerance

theorem start_inside (xs : Array α) (n : Nat) :
    (Dense.Elimination.start xs n).rank + n ≤ n := by simp [Dense.Elimination.start]

theorem Eliminated.shape_rank {e : Dense.Elimination α} (h : Eliminated d columns e) :
    e.Shape d.dimension d.dimension ∧ e.rank ≤ d.dimension := by
  obtain ⟨xs, sized, -, rfl⟩ := h.source
  exact Dense.Elimination.run_shape le_rfl (Dense.Elimination.shape_start sized) (start_inside xs _)

theorem Eliminated.shape {e : Dense.Elimination α} (h : Eliminated d columns e) :
    e.Shape d.dimension d.dimension := h.shape_rank.1

theorem Eliminated.rank {e : Dense.Elimination α} (h : Eliminated d columns e) :
    e.rank ≤ d.dimension := h.shape_rank.2

theorem factor_ends (h : Loaded d columns) (context : Context α) :
    Ends (fun _ t => t.options = d.options ∧ t.dimension = d.dimension ∧ t.valid = true ∧
        ∃ e, Eliminated t columns e ∧ e.rank = d.dimension)
      (fun s t => s = .singular ∧ t.options = d.options ∧ t.dimension = d.dimension ∧
        t.valid = false ∧ ∃ e, Eliminated t columns e ∧ e.rank < d.dimension)
      (factor context d) := by
  unfold factor
  rw [get_bind, h.loaded]
  simp only [Bool.not_true, Bool.false_eq_true, if_false]
  rw [modify_bind, get_bind, modify_bind, get_bind]
  dsimp only
  generalize run : Dense.eliminate d.elements d.dimension d.dimension d.options.zeroTolerance = e
  have eliminated : ∀ t : DenseFactorization α, t.options = d.options → t.dimension = d.dimension →
      t.elements = e.block → t.order = some ⟨e.rows, e.cols, e.rank⟩ → t.etaRows = d.etaRows →
      t.etaInverses = d.etaInverses → Eliminated t columns e := by
    intro t options dimension elements order etaRows etaInverses
    refine ⟨elements, order, etaRows.trans h.etaRows, etaInverses.trans h.etaInverses,
      d.elements, ?_⟩
    rw [options, dimension]
    exact ⟨h.sized, h.elements, run.symm⟩
  rw [bind_of_ok (show log _ _ _ = .ok () _ from rfl)]
  by_cases short : e.rank < d.dimension
  · rw [if_pos (by exact short), bind_of_ok (show log _ _ _ = .ok () _ from rfl)]
    exact ⟨rfl, rfl, rfl, beq_eq_false_iff_ne.mpr (Nat.ne_of_lt short), e,
      eliminated _ rfl rfl rfl rfl rfl rfl, short⟩
  · rw [if_neg (by exact short)]
    have rank := (eliminated
      { d with elements := e.block, order := some ⟨e.rows, e.cols, e.rank⟩ }
      rfl rfl rfl rfl rfl rfl).rank
    have full : e.rank = d.dimension := Nat.le_antisymm rank (Nat.le_of_not_lt short)
    exact ⟨rfl, rfl, beq_iff_eq.mpr full, e, eliminated _ rfl rfl rfl rfl rfl rfl, full⟩

/-! ### Exact arithmetic -/

namespace Eliminated

variable {d : DenseFactorization ℚ} {columns : List (List (Nat × ℚ))} {e : Dense.Elimination ℚ}

theorem splits (h : Eliminated d columns e) (nonneg : 0 ≤ d.options.zeroTolerance) :
    e.Splits (entryOf columns) d.dimension d.dimension := by
  obtain ⟨xs, sized, elements, rfl⟩ := h.source
  have splits : (Dense.Elimination.start xs d.dimension).Splits (entryOf columns) d.dimension
      d.dimension := by
    intro p hp q hq
    rw [← Dense.Elimination.splits_start p hp q hq]
    have row : (Array.range d.dimension).getD p 0 = p := by simp [Array.getD, hp]
    have col : (Array.range d.dimension).getD q 0 = q := by simp [Array.getD, hq]
    simp only [Dense.Elimination.start, row, col]
    exact (elements p hp q hq).symm
  exact Dense.Elimination.run_splits le_rfl (Dense.Elimination.shape_start sized)
    (start_inside xs _) nonneg splits

theorem pivots (h : Eliminated d columns e) (nonneg : 0 ≤ d.options.zeroTolerance) :
    ∀ k < e.rank, element d.dimension e.block k k ≠ 0 := by
  obtain ⟨xs, sized, -, rfl⟩ := h.source
  exact (Dense.Elimination.run_bounded le_rfl (Dense.Elimination.shape_start sized)
    (start_inside xs _) nonneg Dense.Elimination.bounded_start).pivot_ne_zero nonneg

theorem cleared (h : Eliminated d columns e) (exact_ : d.options.zeroTolerance = 0) :
    e.Cleared d.dimension d.dimension 0 := by
  obtain ⟨xs, sized, -, rfl⟩ := h.source
  rw [exact_]
  exact Dense.Elimination.run_cleared le_rfl (Dense.Elimination.shape_start sized)
    (start_inside xs _) fun p q _ _ low high => by
      simp [Dense.Elimination.start] at low
      omega

end Eliminated

end SimplexBasis.DenseFactorization
