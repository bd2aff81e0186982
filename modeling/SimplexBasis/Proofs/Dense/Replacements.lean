import SimplexBasis.Proofs.Dense.Completion
import SimplexBasis.Proofs.Dense.Solving
import SimplexBasis.Proofs.Overwriting

/-!
# Dense column replacements

A dense factorization with its etas solves the systems of the factorized matrix with the columns of
the replacements overwritten.
-/

set_option linter.unusedSectionVars false

namespace SimplexBasis.DenseFactorization

open Dense (element)

variable {n t : Nat} {d : DenseFactorization ℚ} {e : Dense.Elimination ℚ}
  {etas changes : List (Overwriting n)} {xs : Array ℚ} {v : SparseVector ℚ} {r : Fin n}
  {w : Fin n → ℚ}

/-- The matrix that an elimination stands for, in its order. -/
def product (n : Nat) (e : Dense.Elimination ℚ) : Matrix (Fin n) (Fin n) ℚ :=
  lowerMatrix n e.block * upperMatrix n e.block

def positioned (n : Nat) (e : Dense.Elimination ℚ) : Matrix (Fin n) (Fin n) ℚ :=
  placed e.rows e.rows (product n e)

/-- A complete elimination with the etas of the given columns. -/
structure Solvable (d : DenseFactorization ℚ) (e : Dense.Elimination ℚ)
    (etas : List (Overwriting n)) : Prop where
  dimension : d.dimension = n
  loaded : d.loaded = false
  valid : d.valid = true
  order : d.order = some ⟨e.rows, e.cols, e.rank⟩
  rank : e.rank = n
  shape : e.Shape n n
  front : ∀ p < n, ∀ q < n, element n d.elements p q = element n e.block p q
  pivots : ∀ k < n, element n e.block k k ≠ 0
  etaRows : d.etaRows = (etas.map fun eta => eta.1.val).toArray
  etaInverses : d.etaInverses = (etas.map fun eta => 1 / eta.2 eta.1).toArray
  stored : ∀ t r w, etas[t]? = some (r, w) → ∀ i : Fin n, d.etaElement t i = outside r w i

theorem det_product_ne_zero (pivots : ∀ k < n, element n e.block k k ≠ 0) :
    (product n e).det ≠ 0 := by
  have lower : (lowerMatrix n e.block).IsLowerTriangular := by
    intro i j above
    have above : i < j := above
    rw [lowerMatrix, assembled, Matrix.of_apply, if_neg (ne_of_lt above)]
    exact lowerEntry_of_le (Nat.le_of_lt above)
  have upper : (upperMatrix n e.block).IsUpperTriangular := by
    intro i j below
    have below : j < i := below
    rw [upperMatrix, assembled, Matrix.of_apply, if_neg (ne_of_gt below)]
    exact upperEntry_of_le (Nat.le_of_lt below)
  rw [product, Matrix.det_mul, Matrix.det_of_isLowerTriangular _ lower,
    Matrix.det_of_isUpperTriangular upper]
  refine mul_ne_zero (Finset.prod_ne_zero_iff.mpr fun k _ => ?_)
    (Finset.prod_ne_zero_iff.mpr fun k _ => ?_)
  · rw [lowerMatrix, assembled, Matrix.of_apply, if_pos rfl]
    exact one_ne_zero
  · rw [upperMatrix, assembled, Matrix.of_apply, if_pos rfl]
    exact pivots k k.isLt

theorem Solvable.det_positioned_ne_zero (h : Solvable d e etas) : (positioned n e).det ≠ 0 :=
  det_placed_ne_zero h.shape.rows h.shape.rows (det_product_ne_zero h.pivots)

/-! ### Etas -/

theorem Solvable.row_eq (h : Solvable d e etas) (here : etas[t]? = some (r, w)) :
    entry d.etaRows t = .ok r.val ∧ entry d.etaInverses t = .ok (1 / w r) := by
  rw [entry_eq_ok_iff, entry_eq_ok_iff, h.etaRows, h.etaInverses]
  simp [here]

theorem getD_foldl_set (f : Nat → ℚ → ℚ) (xs : Array ℚ) {m : Nat} (fits : m ≤ xs.size) :
    ((List.range m).foldl (fun xs i => xs.setIfInBounds i (f i (xs.getD i 0))) xs).size = xs.size ∧
      ∀ i, ((List.range m).foldl (fun xs i => xs.setIfInBounds i (f i (xs.getD i 0))) xs).getD i 0 =
        if i < m then f i (xs.getD i 0) else xs.getD i 0 := by
  have done := foldl_invariant (f := fun xs i => xs.setIfInBounds i (f i (xs.getD i 0)))
    (l := List.range m) (y := xs) (fun done (ys : Array ℚ) => ys.size = xs.size ∧
      ∀ i, ys.getD i 0 = if i < done.length then f i (xs.getD i 0) else xs.getD i 0)
    ⟨rfl, fun i => by simp⟩ (by
      rintro done k rest ys split ⟨size, values⟩
      obtain ⟨rfl, hk⟩ := range_split split
      refine ⟨Array.size_setIfInBounds.trans size, fun i => ?_⟩
      rw [getD_setIfInBounds (by omega), values, values, List.length_append, List.length_singleton]
      grind)
  rwa [List.length_range] at done

theorem Solvable.applyEta_run (h : Solvable d e etas) (here : etas[t]? = some (r, w))
    (size : xs.size = n) (flops : Nat) : ∃ ys flops', d.applyEta (xs, flops) t = .ok (ys, flops') ∧
      ys.size = n ∧ vec n ys = advanced r w (vec n xs) := by
  obtain ⟨row, inverse⟩ := h.row_eq here
  have bound : r.val < xs.size := size ▸ r.isLt
  unfold applyEta
  dsimp only
  rw [row, checked_ok_bind, entry_getD 0 bound, checked_ok_bind]
  by_cases zero : xs.getD r 0 = 0
  · rw [if_neg (by simp [zero])]
    refine ⟨xs, flops, rfl, size, funext fun i => ?_⟩
    have own : vec n xs r = 0 := zero
    by_cases same : i = r
    · rw [same, advanced, Function.update_self, own, zero_mul]
    · rw [advanced, Function.update_of_ne same, own, mul_zero, sub_zero]
  · obtain ⟨size', values⟩ := getD_foldl_set
      (fun i x => x - d.etaElement t i * xs.getD r 0) xs (m := n) size.ge
    rw [if_pos (by simpa using zero), h.dimension, inverse, checked_ok_bind,
      withEntry_of_lt _ (by rw [size']; exact bound)]
    refine ⟨_, _, rfl, Array.size_setIfInBounds.trans (size'.trans size), funext fun i => ?_⟩
    unfold vec
    rw [getD_setIfInBounds (by rw [size']; exact bound)]
    by_cases same : i = r
    · rw [same, if_pos rfl, advanced, Function.update_self]
    · rw [if_neg (Fin.val_ne_of_ne same), values, if_pos i.isLt, advanced,
        Function.update_of_ne same, h.stored t r w here]

theorem Solvable.applyEtaTranspose_run (h : Solvable d e etas) (here : etas[t]? = some (r, w))
    (size : xs.size = n) (flops : Nat) : ∃ ys flops',
      d.applyEtaTranspose (xs, flops) t = .ok (ys, flops') ∧ ys.size = n ∧
      vec n ys = ledBack r w (vec n xs) := by
  obtain ⟨row, inverse⟩ := h.row_eq here
  have bound : r.val < xs.size := size ▸ r.isLt
  have dot : Scalar.sum ((List.range n).map fun i => d.etaElement t i * xs.getD i 0) =
      ∑ i, outside r w i * vec n xs i := by
    rw [scalar_sum, ← List.sum_toFinset _ List.nodup_range, List.toFinset_range, Finset.sum_range]
    exact Finset.sum_congr rfl fun i _ => by rw [h.stored t r w here]; rfl
  unfold applyEtaTranspose
  dsimp only
  rw [row, checked_ok_bind, h.dimension, size, Nat.min_self, dot, entry_getD 0 bound,
    checked_ok_bind, inverse, checked_ok_bind, withEntry_of_lt _ bound]
  refine ⟨_, _, rfl, Array.size_setIfInBounds.trans size, funext fun i => ?_⟩
  unfold vec
  rw [getD_setIfInBounds bound]
  by_cases same : i = r
  · rw [same, if_pos rfl, ledBack, Function.update_self]
  · rw [if_neg (Fin.val_ne_of_ne same), ledBack, Function.update_of_ne same]

theorem Solvable.applyEtas_run (h : Solvable d e etas) {A : Matrix (Fin n) (Fin n) ℚ}
    {b : Fin n → ℚ} (explains : Explains A changes etas) (length : etas.length = changes.length)
    (size : xs.size = n) (system : A.mulVec (vec n xs) = b) (flops : Nat) : ∃ ys flops',
      (List.range d.pivots).foldlM d.applyEta (xs, flops) = .ok (ys, flops') ∧ ys.size = n ∧
      (overwritten A changes).mulVec (vec n ys) = b := by
  have count : d.pivots = etas.length := by
    rw [DenseFactorization.pivots, h.etaRows]
    simp
  obtain ⟨⟨ys, flops'⟩, run, size, system⟩ := foldlM_ok (f := d.applyEta)
    (l := List.range d.pivots) (y := (xs, flops)) (fun done state => state.1.size = n ∧
      (overwritten A (changes.take done.length)).mulVec (vec n state.1) = b) ⟨size, system⟩ (by
      rintro done k rest ⟨ys, flops⟩ split ⟨size, system⟩
      obtain ⟨rfl, hk⟩ := range_split split
      have here := List.getElem?_eq_getElem (count ▸ hk)
      obtain ⟨zs, flops', run, size', advance⟩ := h.applyEta_run here size flops
      refine ⟨(zs, flops'), run, size', ?_⟩
      rw [List.length_append, List.length_singleton]
      dsimp only
      rw [advance]
      exact explains.advance here system)
  refine ⟨ys, flops', run, size, ?_⟩
  rwa [List.length_range, count, length, List.take_length] at system

theorem Solvable.applyEtasTranspose_run (h : Solvable d e etas) {A : Matrix (Fin n) (Fin n) ℚ}
    {y : Fin n → ℚ} (explains : Explains A changes etas) (length : etas.length = changes.length)
    (size : xs.size = n) (system : (overwritten A changes).transpose.mulVec y = vec n xs)
    (flops : Nat) : ∃ ys flops',
      (List.range d.pivots).reverse.foldlM d.applyEtaTranspose (xs, flops) = .ok (ys, flops') ∧
      ys.size = n ∧ A.transpose.mulVec y = vec n ys := by
  have count : d.pivots = etas.length := by
    rw [DenseFactorization.pivots, h.etaRows]
    simp
  obtain ⟨⟨ys, flops'⟩, run, size, system⟩ := foldlM_ok (f := d.applyEtaTranspose)
    (l := (List.range d.pivots).reverse) (y := (xs, flops)) (fun done state => state.1.size = n ∧
      (overwritten A (changes.take (d.pivots - done.length))).transpose.mulVec y = vec n state.1)
    ⟨size, by
      rw [List.length_nil, Nat.sub_zero, count, length, List.take_length]
      exact system⟩ (by
      rintro done k rest ⟨ys, flops⟩ split ⟨size, system⟩
      obtain ⟨last, hk⟩ := range_reverse_split split
      have here := List.getElem?_eq_getElem (l := etas) (i := k) (by omega)
      obtain ⟨zs, flops', run, size', ledBack⟩ := h.applyEtaTranspose_run here size flops
      refine ⟨(zs, flops'), run, size', ?_⟩
      dsimp only at system ⊢
      rw [List.length_append, List.length_singleton, ledBack, ← system,
        show d.pivots - done.length = k + 1 by omega, explains.leadBack here,
        show d.pivots - (done.length + 1) = k by omega])
  refine ⟨ys, flops', run, size, ?_⟩
  rwa [List.length_reverse, List.length_range, Nat.sub_self] at system

/-! ### Solves -/

theorem toRows_spec {rows : Array Nat} (perm : rows.toList.Perm (List.range n)) (y : Array ℚ) :
    (toRows rows y n).size = n ∧
      ∀ k : Fin n, vec n (toRows rows y n) (chosen perm k) = vec n y k := by
  have size := size_of_perm perm
  have done := foldl_invariant (f := fun x k => x.setIfInBounds (rows.getD k n) (y.getD k 0))
    (l := List.range n) (y := Array.replicate n 0) (fun done (x : Array ℚ) => x.size = n ∧
      ∀ k < done.length, x.getD (rows.getD k 0) 0 = y.getD k 0)
    ⟨Array.size_replicate, fun k hk => absurd hk (Nat.not_lt_zero k)⟩ (by
      rintro done k rest x split ⟨sized, values⟩
      obtain ⟨rfl, hk⟩ := range_split split
      have row : rows.getD done.length n = rows.getD done.length 0 := by simp [Array.getD, size, hk]
      have inside := getD_lt_of_perm perm hk
      refine ⟨Array.size_setIfInBounds.trans sized, fun i hi => ?_⟩
      rw [List.length_append, List.length_singleton] at hi
      rw [row, getD_setIfInBounds (sized.symm ▸ inside)]
      by_cases same : i = done.length
      · rw [same, if_pos rfl]
      · rw [if_neg fun eq => same (getD_inj_of_perm perm (by omega) hk eq), values i (by omega)])
  rw [List.length_range] at done
  exact ⟨done.1, fun k => done.2 k k.isLt⟩

theorem Solvable.triangles (h : Solvable d e etas) :
    lowerMatrix n d.elements * upperMatrix n d.elements = product n e := by
  have lower : lowerMatrix n d.elements = lowerMatrix n e.block := by
    ext i j
    unfold lowerMatrix assembled lowerEntry
    rw [Matrix.of_apply, Matrix.of_apply, h.front i i.isLt j j.isLt]
  have upper : upperMatrix n d.elements = upperMatrix n e.block := by
    ext i j
    unfold upperMatrix assembled upperEntry
    dsimp only
    rw [Matrix.of_apply, Matrix.of_apply, h.front i i.isLt i i.isLt, h.front i i.isLt j j.isLt]
  rw [lower, upper, product]

theorem Solvable.solution_run (h : Solvable d e etas)
    (explains : Explains (positioned n e) changes etas) (length : etas.length = changes.length)
    (consistent : v.Consistent) (dimension : v.dimension = n) : ∃ xs flops,
      d.solution ⟨e.rows, e.cols, e.rank⟩ v = .ok (xs, flops) ∧ xs.size = n ∧
      (overwritten (positioned n e) changes).mulVec (vec n xs) = v.atRows n := by
  have perm := h.shape.rows
  have pivots : ∀ k < n, element n d.elements k k ≠ 0 := fun k hk => by
    rw [h.front k hk k hk]
    exact h.pivots k hk
  have gathered : e.rows.toList.mapM v.get = .ok (e.rows.toList.map v.valueOf) :=
    checked_mapM fun i member => consistent.get_eq (by
      rw [dimension]
      exact List.mem_range.mp (perm.mem_iff.mp member))
  let ys := (e.rows.toList.map v.valueOf).toArray
  have sized : ys.size = n := by simp [ys, size_of_perm perm]
  obtain ⟨size₁, lower⟩ := lower_pass (a := d.elements) sized 0
  generalize lowered : (List.range n).foldl (lowerColumn d.elements n) (ys, 0) = pass₁ at size₁ lower
  obtain ⟨us, flops₁⟩ := pass₁
  obtain ⟨size₂, upper⟩ := upper_pass (a := d.elements) pivots size₁ flops₁
  generalize raised : (List.range n).reverse.foldl (upperColumn d.elements n) (us, flops₁) = pass₂
    at size₂ upper
  obtain ⟨zs, flops₂⟩ := pass₂
  obtain ⟨size₃, placed⟩ := toRows_spec perm zs
  have whole : (product n e).mulVec (vec n zs) = vec n ys := by
    rw [← h.triangles, ← Matrix.mulVec_mulVec, upper, lower]
  have start : (positioned n e).mulVec (vec n (toRows e.rows zs n)) = v.atRows n := by
    rw [positioned, placed_mulVec_iff perm perm]
    simp only [placed]
    refine whole.trans (funext fun k => ?_)
    simp [vec, ys, SparseVector.atRows, chosen, Array.getD, size_of_perm perm]
  obtain ⟨xs, flops, run, size, system⟩ := h.applyEtas_run explains length size₃ start flops₂
  refine ⟨xs, flops, ?_, size, system⟩
  unfold solution
  dsimp only
  rw [gathered, checked_ok_bind, h.dimension, lowered, raised]
  exact run

theorem Solvable.transposedSolution_run (h : Solvable d e etas)
    (explains : Explains (positioned n e) changes etas) (length : etas.length = changes.length)
    (consistent : v.Consistent) (dimension : v.dimension = n) : ∃ xs flops,
      d.transposedSolution ⟨e.rows, e.cols, e.rank⟩ v = .ok (xs, flops) ∧ xs.size = n ∧
      (overwritten (positioned n e) changes).transpose.mulVec (vec n xs) = v.atRows n := by
  have perm := h.shape.rows
  have pivots : ∀ k < n, element n d.elements k k ≠ 0 := fun k hk => by
    rw [h.front k hk k hk]
    exact h.pivots k hk
  have regular := h.det_positioned_ne_zero
  have regular' : (overwritten (positioned n e) changes).det ≠ 0 := by
    have := explains.det_ne_zero length regular le_rfl
    rwa [List.take_length] at this
  have dense : vec n v.toDense = v.atRows n := funext fun i => consistent.getD_toDense i
  obtain ⟨y, system⟩ := exists_mulVec ((Matrix.det_transpose _).trans_ne regular') (v.atRows n)
  obtain ⟨cs, flops₀, ran, size₀, led⟩ := h.applyEtasTranspose_run explains length
    ((SparseVector.size_toDense v).trans dimension) (system.trans dense.symm) 0
  have gathered : e.rows.toList.mapM (fun i => entry cs i) =
      .ok (e.rows.toList.map (cs.getD · 0)) := checked_mapM fun i member => entry_getD 0 (by
    rw [size₀]
    exact List.mem_range.mp (perm.mem_iff.mp member))
  let ts := (e.rows.toList.map (cs.getD · 0)).toArray
  have sized : ts.size = n := by simp [ts, size_of_perm perm]
  obtain ⟨size₁, upper⟩ := upper_transpose_pass (a := d.elements) pivots sized flops₀
  generalize lowered : (List.range n).foldl (upperRow d.elements n) (ts, flops₀) = pass₁
    at size₁ upper
  obtain ⟨us, flops₁⟩ := pass₁
  obtain ⟨size₂, lower⟩ := lower_transpose_pass (a := d.elements) size₁ flops₁
  generalize raised : (List.range n).reverse.foldl (lowerRow d.elements n) (us, flops₁) = pass₂
    at size₂ lower
  obtain ⟨zs, flops₂⟩ := pass₂
  obtain ⟨size₃, placed⟩ := toRows_spec perm zs
  have whole : (product n e).transpose.mulVec (vec n zs) = vec n ts := by
    rw [← h.triangles, Matrix.transpose_mul, ← Matrix.mulVec_mulVec, lower, upper]
  have final : (positioned n e).transpose.mulVec (vec n (toRows e.rows zs n)) = vec n cs := by
    rw [positioned, transpose_placed, placed_mulVec_iff perm perm]
    simp only [placed]
    refine whole.trans (funext fun k => ?_)
    simp [vec, ts, chosen, Array.getD, size_of_perm perm]
  refine ⟨toRows e.rows zs n, flops₂, ?_, size₃, ?_⟩
  · unfold transposedSolution
    dsimp only
    rw [ran, checked_ok_bind]
    dsimp only
    rw [gathered, checked_ok_bind, h.dimension, lowered, raised]
    rfl
  · rw [← system, mulVec_unique ((Matrix.det_transpose _).trans_ne regular) (final.trans led.symm)]

theorem Scans.answers {x : SparseVector ℚ} (h : d.Scans v x xs) (dimension : v.dimension = n) :
    x.Answers v (cutBelow d.options.zeroTolerance) (vec n xs) := by
  refine ⟨h.consistent, h.mode, h.dimension.trans dimension, fun i => ?_⟩
  rw [SparseVector.valueOf, h.entries]
  exact SparseVector.valueOf_scanned _ xs i

/-! ### Calls -/

theorem Solvable.of_holding (h : Solvable d e etas) {u : DenseFactorization ℚ}
    (same : u.holding = d.holding) : Solvable u e etas := by
  simp only [holding, Prod.mk.injEq] at same
  obtain ⟨-, dimension, -, elements, order, etaRows, etaInverses, loaded, valid⟩ := same
  exact
    { dimension := dimension.trans h.dimension
      loaded := loaded.trans h.loaded
      valid := valid.trans h.valid
      order := order.trans h.order
      rank := h.rank
      shape := h.shape
      front := elements.symm ▸ h.front
      pivots := h.pivots
      etaRows := etaRows.trans h.etaRows
      etaInverses := etaInverses.trans h.etaInverses
      stored := fun t r w here i => by
        rw [← h.stored t r w here i, etaElement, etaElement, dimension, elements] }

theorem Solvable.of_ftran (h : Solvable d e etas) {x : SparseVector ℚ × Nat}
    {u : DenseFactorization ℚ} (run : ftran v d = .ok x u) : Solvable u e etas :=
  h.of_holding (holding_of_ftran h.valid (by rw [h.order]; rfl) run)

theorem Solvable.of_btran (h : Solvable d e etas) {x : SparseVector ℚ × Nat}
    {u : DenseFactorization ℚ} (run : btran v d = .ok x u) : Solvable u e etas :=
  h.of_holding (holding_of_btran h.valid (by rw [h.order]; rfl) run)

section Solves

variable (h : Solvable d e etas) (explains : Explains (positioned n e) changes etas)
  (length : etas.length = changes.length) (consistent : v.Consistent) (dimension : v.dimension = n)
include h explains length consistent dimension

theorem Solvable.ftran_run : ∃ x u z, ftran v d = .ok (x, x.count) u ∧
    (overwritten (positioned n e) changes).mulVec z = v.atRows n ∧
    x.Answers v (cutBelow d.options.zeroTolerance) z := by
  obtain ⟨xs, flops, run, size, system⟩ := h.solution_run explains length consistent dimension
  obtain ⟨x, u, concluded, scans⟩ := conclude_ok consistent
    (h.dimension.trans dimension.symm) (size.trans dimension.symm) flops
  refine ⟨x, u, vec n xs, ?_, system, scans.answers dimension⟩
  rw [ftran_eq, bind_of_ok (solvable_run h.valid h.order), get_bind, run, lift_ok_bind]
  exact concluded

theorem Solvable.btran_run : ∃ x u y, btran v d = .ok (x, x.count) u ∧
    (overwritten (positioned n e) changes).transpose.mulVec y = v.atRows n ∧
    x.Answers v (cutBelow d.options.zeroTolerance) y := by
  obtain ⟨xs, flops, run, size, system⟩ :=
    h.transposedSolution_run explains length consistent dimension
  obtain ⟨x, u, concluded, scans⟩ := conclude_ok consistent
    (h.dimension.trans dimension.symm) (size.trans dimension.symm) flops
  refine ⟨x, u, vec n xs, ?_, system, scans.answers dimension⟩
  rw [btran_eq, bind_of_ok (solvable_run h.valid h.order), get_bind, run, lift_ok_bind]
  exact concluded

end Solves

theorem Solvable.positionOf_eq (h : Solvable d e etas) (j : Fin n) :
    d.positionOf j = .ok (some (position h.shape.rows h.shape.cols j).val) := by
  obtain ⟨k, rfl⟩ := chosen_surjective h.shape.cols j
  rw [position_chosen]
  exact positionOf_of_order h.order h.shape.rows h.shape.cols h.rank k.isLt

/-! ### Storing an eta -/

/-- The entries of a column are written behind the elements of the etas before, divided by the
pivot. -/
theorem writeEta_spec {column : SparseVector ℚ} (consistent : column.Consistent) {row t : Nat}
    {inverse : ℚ} {ys : Array ℚ} (run : d.writeEta t column row inverse = .ok ys) (k : Nat) :
    ys.getD k 0 =
      if (d.dimension + t) * d.dimension ≤ k ∧ k < (d.dimension + t) * d.dimension + d.dimension then
        if k - (d.dimension + t) * d.dimension = row then 0
        else column.valueOf (k - (d.dimension + t) * d.dimension) * inverse
      else d.elements.getD k 0 := by
  unfold writeEta at run
  dsimp only at run
  generalize first_ : (d.dimension + t) * d.dimension = first at run ⊢
  split at run
  · exact nomatch run
  · rename_i fits
    have fits : first + (List.replicate d.dimension (0 : ℚ)).length ≤ d.elements.size := by
      rw [List.length_replicate]
      omega
    have result := foldlM_result (fun done (ys : Array ℚ) => ys.size = d.elements.size ∧
      ∀ k, ys.getD k 0 = if first ≤ k ∧ k < first + d.dimension then
        if k - first = row then 0 else valueAt done (k - first) * inverse
        else d.elements.getD k 0) run ⟨size_overwrite _ _ _, fun k => ?_⟩ ?_
    · exact result.2 k
    · rw [Array.getD_eq_getD_getElem?, getElem?_overwrite _ _ _ _ fits, List.length_replicate]
      split
      · rename_i inside
        simp [show k - first < d.dimension by omega]
      · rw [Array.getD_eq_getD_getElem?]
    · rintro done ⟨i, x⟩ rest ys zs split ⟨size, values⟩ step
      have fresh : i ∉ keys done := by
        have distinct := consistent.nodup_keys
        rw [split, keys_append] at distinct
        exact fun member => (List.nodup_append.mp distinct).2.2 i member i (by simp) rfl
      dsimp only at step
      split at step
      · rename_i own
        cases step
        refine ⟨size, fun k => (values k).trans ?_⟩
        simp only [valueAt_concat fresh]
        grind
      · rename_i other
        split at step
        · rename_i inside
          have bound : first + i < ys.size := by
            rw [List.length_replicate] at fits
            omega
          rw [withEntry_of_lt _ bound] at step
          cases step
          refine ⟨Array.size_setIfInBounds.trans size, fun k => ?_⟩
          rw [getD_setIfInBounds bound, values]
          simp only [valueAt_concat fresh]
          grind
        · exact nomatch step

theorem Solvable.replaceColumn (h : Solvable d e etas) {column : SparseVector ℚ}
    (consistent : column.Consistent) {u : DenseFactorization ℚ}
    (run : replaceColumn column r (column.valueOf r) d = .ok () u) :
    Solvable u e (etas ++ [(r, column.atRows n)]) := by
  have count : d.pivots = etas.length := by
    rw [DenseFactorization.pivots, h.etaRows]
    simp
  obtain ⟨-, ys, written, rfl⟩ := replaceColumn_result h.valid (by rw [h.order]; rfl) run
  have spec := writeEta_spec consistent written
  rw [h.dimension, count] at spec
  exact
    { dimension := h.dimension
      loaded := h.loaded
      valid := h.valid
      order := h.order
      rank := h.rank
      shape := h.shape
      front := fun p hp q hq => by
        have place := Dense.place_lt hp hq
        have first : n * n ≤ (n + etas.length) * n := Nat.mul_le_mul_right n (Nat.le_add_right _ _)
        rw [← h.front p hp q hq, element, spec, if_neg (by omega)]
        rfl
      pivots := h.pivots
      etaRows := by simp [h.etaRows]
      etaInverses := by simp [h.etaInverses, SparseVector.atRows]
      stored := fun t r' w' here i => by
        have read : ys.getD ((d.dimension + t) * d.dimension + i) 0 = outside r' w' i := by
          rw [h.dimension, spec]
          have hi := i.isLt
          rcases Nat.lt_or_ge t etas.length with before | behind
          · rw [List.getElem?_append_left before] at here
            have earlier : (n + t) * n + n ≤ (n + etas.length) * n := by
              rw [← Nat.succ_mul]
              exact Nat.mul_le_mul_right n (by omega)
            rw [if_neg (by omega), ← h.stored t r' w' here i, etaElement, h.dimension]
          · obtain ⟨bound, -⟩ := List.getElem?_eq_some_iff.mp here
            obtain rfl : t = etas.length := by
              rw [List.length_append, List.length_singleton] at bound
              omega
            rw [List.getElem?_concat_length] at here
            cases here
            rw [if_pos (by omega), Nat.add_sub_cancel_left, outside]
            exact if_congr (Fin.ext_iff.symm) rfl rfl
        exact read }

/-! ### Behind a factorization -/

variable {b : BasisMatrix ℚ} {columns : List (List (Nat × ℚ))}

theorem Eliminated.solvable (h : Eliminated d columns e) (dimension : d.dimension = n)
    (loaded : d.loaded = false) (valid : d.valid = true) (full : e.rank = d.dimension)
    (tolerant : 0 ≤ d.options.zeroTolerance) : Solvable d e ([] : List (Overwriting n)) := by
  subst dimension
  exact
    { dimension := rfl
      loaded := loaded
      valid := valid
      order := h.order
      rank := full
      shape := h.shape
      front := fun p _ q _ => by rw [h.elements]
      pivots := fun k hk => h.pivots tolerant k (full ▸ hk)
      etaRows := h.etaRows
      etaInverses := h.etaInverses
      stored := fun t r w here => by simp at here }

theorem Eliminated.placed_eq (h : Eliminated d columns e) (holds : b.Holds columns)
    (dimension : d.dimension = b.dimension) (full : e.rank = d.dimension)
    (tolerant : 0 ≤ d.options.zeroTolerance) :
    placed e.rows e.cols (product b.dimension e) = b.matrix := by
  have rows := h.shape.rows
  have cols := h.shape.cols
  have splits := h.splits tolerant
  rw [dimension] at rows cols splits full
  refine placed_ordered rows cols _ fun p q => ?_
  have entry := splits p p.isLt q q.isLt
  rw [Dense.Elimination.restPart, if_neg (by have := p.isLt; omega), add_zero, full] at entry
  have value : b.matrix (chosen rows p) (chosen cols q) =
      SparseFactorization.entryOf columns (e.rows.getD p 0) (e.cols.getD q 0) :=
    holds.entryIn_eq (getD_lt_of_perm cols q.isLt)
  rw [value, entry, product, Matrix.mul_apply, ← List.sum_toFinset _ List.nodup_range,
    List.toFinset_range, Finset.sum_range]
  refine Finset.sum_congr rfl fun t _ => congrArg₂ (· * ·) ?_ ?_
  · unfold lowerMatrix assembled lowerEntry Dense.Elimination.lowerPart
    rw [Matrix.of_apply]
    exact if_congr Fin.ext_iff rfl (if_congr (by have := p.isLt; omega) rfl rfl)
  · unfold upperMatrix assembled upperEntry Dense.Elimination.upperPart
    rw [Matrix.of_apply]
    by_cases same : t = q
    · rw [if_pos same, if_pos (by rw [same]), same]
    · have other := Fin.val_ne_of_ne same
      rw [if_neg same]
      exact if_congr (by omega) rfl rfl

end SimplexBasis.DenseFactorization
