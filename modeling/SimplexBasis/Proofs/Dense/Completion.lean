import SimplexBasis.Proofs.Dense.Calls
import SimplexBasis.Proofs.Positions
import SimplexBasis.Proofs.Vectors.Operations

/-!
# Dense solves that complete

With complete factors, and etas at rows of the basis, every right-hand side of the dimension of the
basis is solved, whatever the arithmetic. What is answered is a scan of the solution.
-/

set_option linter.unusedSectionVars false

namespace SimplexBasis

variable {α : Type} [Scalar α] [LawfulZero α]

namespace SparseVector

variable {v : SparseVector α} {i : Nat}

theorem Consistent.get_ok (h : v.Consistent) (hi : i < v.dimension) : ∃ x, v.get i = .ok x := by
  unfold SparseVector.get
  split
  · cases found : v.indices.findIdx? (· == i) with
    | none => exact ⟨0, rfl⟩
    | some k =>
      obtain ⟨inside, -, -⟩ := Array.findIdx?_eq_some_iff_getElem.mp found
      exact ⟨_, entry_of_lt (Nat.lt_of_lt_of_le inside h.count_le)⟩
  · exact ⟨_, entry_of_lt hi⟩

theorem large_of_scanned {tolerance : α} {xs : Array α} {e : Nat × α}
    (member : e ∈ (scanned tolerance xs).entries) : tolerance ≤ Scalar.abs e.2 := by
  obtain ⟨mode, -, values⟩ := scanned_spec tolerance xs
  have nonzero := (Consistent.scanned tolerance xs).entries_ne_zero member
  obtain ⟨i, x⟩ := e
  obtain ⟨-, rfl⟩ := (mem_entries_unpacked mode).mp member
  dsimp only at nonzero ⊢
  rw [values] at nonzero ⊢
  split at nonzero
  · rw [LawfulZero.zero_beq] at nonzero
    exact nomatch nonzero
  · rename_i kept
    rw [if_neg kept]
    by_contra small
    exact kept ⟨bne_zero.mpr nonzero, small⟩

end SparseVector

namespace DenseFactorization

variable {d t : DenseFactorization α} {v : SparseVector α} {xs : Array α} {order : DenseOrder}

/-! ### The state between solves -/

/-- Complete factors, and etas at rows of the basis. -/
structure Serving (d : DenseFactorization α) : Prop where
  loaded : d.loaded = false
  valid : d.valid = true
  order : ∃ order, d.order = some order ∧ order.rows.toList.Perm (List.range d.dimension)
  inverses : d.etaInverses.size = d.etaRows.size
  rows : ∀ r ∈ d.etaRows, r < d.dimension

theorem Serving.read (h : d.Serving) {k : Nat} (hk : k < d.pivots) : ∃ r inverse,
    entry d.etaRows k = .ok r ∧ r < d.dimension ∧ entry d.etaInverses k = .ok inverse :=
  ⟨_, _, entry_of_lt hk, h.rows _ (Array.getElem_mem hk), entry_of_lt (h.inverses ▸ hk)⟩

/-! ### Solutions -/

theorem size_toRows (rows : Array Nat) (y : Array α) (n : Nat) : (toRows rows y n).size = n := by
  refine foldl_invariant (fun _ (x : Array α) => x.size = n) Array.size_replicate ?_
  rintro done k rest x - size
  exact Array.size_setIfInBounds.trans size

theorem Serving.applyEta_ok (h : d.Serving) {k : Nat} (hk : k < d.pivots) (size : xs.size = d.dimension)
    (flops : Nat) : ∃ ys flops', d.applyEta (xs, flops) k = .ok (ys, flops') ∧
      ys.size = d.dimension := by
  obtain ⟨r, inverse, row, inside, factor⟩ := h.read hk
  unfold applyEta
  dsimp only
  rw [row, checked_ok_bind, entry_getD 0 (size ▸ inside), checked_ok_bind]
  split
  · have updated : ((List.range d.dimension).foldl (fun x i =>
        x.setIfInBounds i (x.getD i 0 - d.etaElement k i * xs.getD r 0)) xs).size = d.dimension := by
      refine foldl_invariant (fun _ (ys : Array α) => ys.size = d.dimension) size ?_
      rintro done i rest ys - size
      exact Array.size_setIfInBounds.trans size
    rw [factor, checked_ok_bind, withEntry_of_lt _ (inside.trans_eq updated.symm)]
    exact ⟨_, _, rfl, Array.size_setIfInBounds.trans updated⟩
  · exact ⟨xs, flops, rfl, size⟩

theorem Serving.applyEtaTranspose_ok (h : d.Serving) {k : Nat} (hk : k < d.pivots)
    (size : xs.size = d.dimension) (flops : Nat) : ∃ ys flops',
      d.applyEtaTranspose (xs, flops) k = .ok (ys, flops') ∧ ys.size = d.dimension := by
  obtain ⟨r, inverse, row, inside, factor⟩ := h.read hk
  unfold applyEtaTranspose
  dsimp only
  rw [row, checked_ok_bind, entry_getD 0 (size ▸ inside), checked_ok_bind, factor, checked_ok_bind,
    withEntry_of_lt _ (size ▸ inside)]
  exact ⟨_, _, rfl, Array.size_setIfInBounds.trans size⟩

theorem Serving.foldlM_etas_ok {f : Progress α → Nat → Checked (Progress α)} {l : List Nat}
    (step : ∀ k ∈ l, ∀ (xs : Array α) flops, xs.size = d.dimension → ∃ ys flops',
      f (xs, flops) k = .ok (ys, flops') ∧ ys.size = d.dimension)
    (size : xs.size = d.dimension) (flops : Nat) : ∃ ys flops',
      l.foldlM f (xs, flops) = .ok (ys, flops') ∧ ys.size = d.dimension := by
  obtain ⟨⟨ys, flops'⟩, run, size⟩ := foldlM_ok (f := f) (l := l) (y := (xs, flops))
    (fun _ state => state.1.size = d.dimension) size (by
      rintro done k rest ⟨xs, flops⟩ split size
      obtain ⟨ys, flops', run, size⟩ := step k (by simp [split]) xs flops size
      exact ⟨_, run, size⟩)
  exact ⟨ys, flops', run, size⟩

theorem Serving.solution_ok (h : d.Serving) (ordered : d.order = some order)
    (consistent : v.Consistent) (dimension : v.dimension = d.dimension) : ∃ xs flops,
      d.solution order v = .ok (xs, flops) ∧ xs.size = d.dimension := by
  obtain ⟨_, same, perm⟩ := h.order
  cases ordered.symm.trans same
  obtain ⟨ys, gathered, -⟩ := checked_mapM_keyed (f := v.get) (Q := fun _ => True) (fun _ => ())
    (fun _ => ()) (l := order.rows.toList) fun i member =>
      have inside : i < v.dimension := dimension ▸ List.mem_range.mp (perm.mem_iff.mp member)
      let ⟨x, read⟩ := consistent.get_ok inside
      ⟨x, read, rfl, trivial⟩
  unfold solution
  dsimp only
  rw [gathered, checked_ok_bind]
  exact Serving.foldlM_etas_ok (fun k member xs flops size =>
    h.applyEta_ok (List.mem_range.mp member) size flops) (size_toRows _ _ _) _

theorem Serving.transposedSolution_ok (h : d.Serving) (ordered : d.order = some order)
    (dimension : v.dimension = d.dimension) : ∃ xs flops,
      d.transposedSolution order v = .ok (xs, flops) ∧ xs.size = d.dimension := by
  obtain ⟨_, same, perm⟩ := h.order
  cases ordered.symm.trans same
  have start : v.toDense.size = d.dimension := by
    rw [SparseVector.toDense, size_scattered, Array.size_replicate, dimension]
  obtain ⟨cs, flops, applied, size⟩ := Serving.foldlM_etas_ok (f := d.applyEtaTranspose)
    (l := (List.range d.pivots).reverse) (fun k member xs flops size =>
      h.applyEtaTranspose_ok (by simpa using member) size flops) start 0
  have gathered : order.rows.toList.mapM (fun i => entry cs i) =
      .ok (order.rows.toList.map (cs.getD · 0)) := checked_mapM fun i member => entry_getD 0 (by
    rw [size]
    exact List.mem_range.mp (perm.mem_iff.mp member))
  unfold transposedSolution
  dsimp only
  rw [applied, checked_ok_bind]
  dsimp only
  rw [gathered, checked_ok_bind]
  exact ⟨_, _, rfl, size_toRows _ _ _⟩

/-! ### Answers -/

/-- A vector that answers with what a scan lists, in the mode of the right-hand side. -/
structure Scans (d : DenseFactorization α) (v x : SparseVector α) (xs : Array α) : Prop where
  consistent : x.Consistent
  mode : x.packed = v.packed
  dimension : x.dimension = v.dimension
  entries : x.entries = (SparseVector.scanned d.options.zeroTolerance xs).entries

theorem finish_ok (consistent : v.Consistent) (dimension : d.dimension = v.dimension)
    (size : xs.size = v.dimension) : ∃ x, d.finish v xs = .ok (x, x.count) ∧ d.Scans v x xs := by
  let answer := SparseVector.scanned d.options.zeroTolerance xs
  have found : answer.Consistent := .scanned _ xs
  obtain ⟨unpacked, wide, -⟩ := SparseVector.scanned_spec d.options.zeroTolerance xs
  have inside : ∀ i ∈ v.indices, i < xs.size := fun i member => size ▸ consistent.inside i member
  have listed := SparseVector.scan_all inside d.options.zeroTolerance
  unfold finish
  rw [if_neg (not_not_intro size.symm)]
  dsimp only
  rw [SparseVector.Consistent.packed_unpack, SparseVector.Consistent.indices_unpack, dimension,
    ← size, listed]
  cases packed : v.packed with
  | false => exact ⟨answer, rfl, found, unpacked.trans packed.symm, wide.trans size, rfl⟩
  | true =>
    obtain ⟨w, run, consistent', mode, dimension', entries⟩ := found.pack
    have count : answer.count = w.count := by
      rw [← found.length_entries, ← consistent'.length_entries, entries]
    refine ⟨w, ?_, consistent', mode.trans packed.symm, dimension'.trans (wide.trans size), entries⟩
    rw [← count]
    change ((answer.pack : Checked (SparseVector α)) >>= fun w => pure (w, answer.count)) = _
    rw [run]
    rfl

theorem conclude_ok (consistent : v.Consistent) (dimension : d.dimension = v.dimension)
    (size : xs.size = v.dimension) (flops : Nat) : ∃ x t, conclude v (xs, flops) d = .ok (x, x.count) t ∧
      d.Scans v x xs := by
  obtain ⟨x, finished, scans⟩ := finish_ok consistent
    (d := { d with solveFlops := d.solveFlops + flops }) dimension size
  refine ⟨x, { d with solveFlops := d.solveFlops + flops }, ?_,
    scans.consistent, scans.mode, scans.dimension, scans.entries⟩
  unfold conclude
  rw [modify_bind, get_bind]
  dsimp only
  rw [finished]
  rfl

theorem Serving.ftran_ok (h : d.Serving) (consistent : v.Consistent)
    (dimension : v.dimension = d.dimension) : ∃ x t xs, ftran v d = .ok (x, x.count) t ∧
      d.Scans v x xs := by
  obtain ⟨order, ordered, -⟩ := h.order
  obtain ⟨xs, flops, run, size⟩ := h.solution_ok ordered consistent dimension
  obtain ⟨x, t, concluded, scans⟩ := conclude_ok consistent dimension.symm
    (size.trans dimension.symm) flops
  refine ⟨x, t, xs, ?_, scans⟩
  rw [ftran_eq, bind_of_ok (solvable_run h.valid ordered), get_bind, run, lift_ok_bind]
  exact concluded

theorem Serving.btran_ok (h : d.Serving) (consistent : v.Consistent)
    (dimension : v.dimension = d.dimension) : ∃ x t xs, btran v d = .ok (x, x.count) t ∧
      d.Scans v x xs := by
  obtain ⟨order, ordered, -⟩ := h.order
  obtain ⟨xs, flops, run, size⟩ := h.transposedSolution_ok ordered dimension
  obtain ⟨x, t, concluded, scans⟩ := conclude_ok consistent dimension.symm
    (size.trans dimension.symm) flops
  refine ⟨x, t, xs, ?_, scans⟩
  rw [btran_eq, bind_of_ok (solvable_run h.valid ordered), get_bind, run, lift_ok_bind]
  exact concluded

end DenseFactorization

end SimplexBasis
