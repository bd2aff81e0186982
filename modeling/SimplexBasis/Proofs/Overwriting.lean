import SimplexBasis.Proofs.Systems
import SimplexBasis.Proofs.Vectors.Values

/-!
# Overwritten columns

A matrix in which columns are overwritten one after the other. The solution of a system with the
matrix before one of the steps leads to the solution with the matrix after it, by the solution for
the entering column alone; for the transposed matrices it is the right-hand side that is led back.
-/

set_option linter.unusedSectionVars false

namespace SimplexBasis

variable {n : Nat} {A B : Matrix (Fin n) (Fin n) ℚ} {r : Fin n} {a w x y : Fin n → ℚ}

/-! ### One column -/

/-- The part of an eta outside of its row: the solution for the entering column, divided by its
pivot. -/
def outside (r : Fin n) (w : Fin n → ℚ) (i : Fin n) : ℚ := if i = r then 0 else w i * (1 / w r)

/-- What an eta makes of a solution. -/
def advanced (r : Fin n) (w x : Fin n → ℚ) : Fin n → ℚ :=
  Function.update (fun i => x i - outside r w i * x r) r (x r * (1 / w r))

/-- What an eta makes of a right-hand side of a transposed system. -/
def ledBack (r : Fin n) (w c : Fin n → ℚ) : Fin n → ℚ :=
  Function.update c r (c r * (1 / w r) - ∑ i, outside r w i * c i)

theorem updateCol_mulVec (A : Matrix (Fin n) (Fin n) ℚ) (r : Fin n) (a x : Fin n → ℚ) :
    (A.updateCol r a).mulVec x = A.mulVec x + x r • (a - A.col r) := by
  ext i
  have entry : ∀ j, A.updateCol r a i j * x j =
      A i j * x j + if j = r then x r * (a i - A i r) else 0 := fun j => by
    rw [Matrix.updateCol_apply]
    split
    · rename_i here
      rw [here]
      ring
    · rw [add_zero]
  change ∑ j, A.updateCol r a i j * x j = ∑ j, A i j * x j + x r * (a i - A i r)
  simp only [entry, Finset.sum_add_distrib]
  rw [Finset.sum_ite_eq', if_pos (Finset.mem_univ r)]

/-- The solution of a system is led to the solution with a column overwritten. -/
theorem advanced_mulVec (pivot : w r ≠ 0) (x : Fin n → ℚ) :
    (A.updateCol r (A.mulVec w)).mulVec (advanced r w x) = A.mulVec x := by
  have split : advanced r w x = x - (x r * (1 / w r)) • w + (x r * (1 / w r)) • Pi.single r 1 := by
    ext i
    simp only [advanced, outside, Pi.add_apply, Pi.sub_apply, Pi.smul_apply, smul_eq_mul]
    by_cases here : i = r
    · subst here
      rw [Function.update_self, Pi.single_eq_same]
      field_simp
      ring
    · rw [Function.update_of_ne here, Pi.single_eq_of_ne here, if_neg here]
      ring
  have pivoted : advanced r w x r = x r * (1 / w r) := Function.update_self ..
  rw [updateCol_mulVec, pivoted, split, Matrix.mulVec_add, Matrix.mulVec_sub, Matrix.mulVec_smul,
    Matrix.mulVec_smul, Matrix.mulVec_single_one, smul_sub]
  abel

/-- What the overwritten matrix makes of a solution is led back to what the matrix makes of it. -/
theorem ledBack_transpose (pivot : w r ≠ 0) (y : Fin n → ℚ) :
    ledBack r w ((A.updateCol r (A.mulVec w)).transpose.mulVec y) = A.transpose.mulVec y := by
  have updated : (A.updateCol r (A.mulVec w)).transpose.mulVec y =
      Function.update (A.transpose.mulVec y) r (∑ i, w i * A.transpose.mulVec y i) := by
    rw [Matrix.mulVec_transpose, Matrix.mulVec_transpose, Matrix.vecMul_updateCol,
      Matrix.dotProduct_mulVec]
    simp only [dotProduct, mul_comm]
  generalize A.transpose.mulVec y = c at updated ⊢
  rw [updated]
  ext j
  unfold ledBack
  by_cases here : j = r
  · subst here
    have apart : ∀ i, outside j w i * Function.update c j (∑ i, w i * c i) i =
        w i * c i * (1 / w j) - if i = j then c j else 0 := fun i => by
      unfold outside
      by_cases at_ : i = j
      · subst at_
        rw [if_pos rfl, if_pos rfl]
        field_simp
        ring
      · rw [if_neg at_, if_neg at_, Function.update_of_ne at_]
        ring
    simp only [Function.update_self, apart, Finset.sum_sub_distrib]
    rw [Finset.sum_ite_eq', if_pos (Finset.mem_univ j), Finset.sum_mul]
    ring
  · rw [Function.update_of_ne here, Function.update_of_ne here]

theorem det_updateCol_mulVec (A : Matrix (Fin n) (Fin n) ℚ) (r : Fin n) (w : Fin n → ℚ) :
    (A.updateCol r (A.mulVec w)).det = A.det * w r := by
  rw [← Matrix.cramer_apply, Matrix.cramer_eq_adjugate_mulVec, Matrix.mulVec_mulVec,
    Matrix.adjugate_mul, Matrix.smul_mulVec, Matrix.one_mulVec]
  rfl

/-! ### One column after the other -/

/-- A column of a matrix and what it is overwritten by. -/
abbrev Overwriting (n : Nat) := Fin n × (Fin n → ℚ)

/-- The matrix with columns overwritten, the first of them first. -/
def overwritten (A : Matrix (Fin n) (Fin n) ℚ) (changes : List (Overwriting n)) :
    Matrix (Fin n) (Fin n) ℚ :=
  changes.foldl (fun A (r, a) => A.updateCol r a) A

theorem overwritten_concat (A : Matrix (Fin n) (Fin n) ℚ) (changes : List (Overwriting n))
    (r : Fin n) (a : Fin n → ℚ) :
    overwritten A (changes ++ [(r, a)]) = (overwritten A changes).updateCol r a := by
  rw [overwritten, List.foldl_append]
  rfl

theorem overwritten_submatrix (A : Matrix (Fin n) (Fin n) ℚ) (π : Fin n ≃ Fin n)
    (changes : List (Overwriting n)) :
    overwritten (A.submatrix id π.symm) (changes.map fun (j, a) => (π j, a)) =
      (overwritten A changes).submatrix id π.symm := by
  induction changes using List.reverseRecOn with
  | nil => rfl
  | append_singleton changes change ih =>
    obtain ⟨j, a⟩ := change
    rw [List.map_append, List.map_singleton, overwritten_concat, ih, overwritten_concat]
    have moved := Matrix.submatrix_updateCol_equiv (overwritten A changes) j a (.refl _) π.symm
    exact moved.symm

/-- What is stored for overwritten columns: the solution for each entering column with the matrix that
it enters, with a nonzero component at its own place. -/
def Explains (A : Matrix (Fin n) (Fin n) ℚ) (changes etas : List (Overwriting n)) : Prop :=
  ∀ k, ∀ r w, etas[k]? = some (r, w) →
    w r ≠ 0 ∧ changes[k]? = some (r, (overwritten A (changes.take k)).mulVec w)

section Explains

variable {changes etas : List (Overwriting n)} {k : Nat}

theorem Explains.step (h : Explains A changes etas) (here : etas[k]? = some (r, w)) :
    overwritten A (changes.take (k + 1)) = (overwritten A (changes.take k)).updateCol r
      ((overwritten A (changes.take k)).mulVec w) := by
  obtain ⟨-, change⟩ := h k r w here
  obtain ⟨inside, entry⟩ := List.getElem?_eq_some_iff.mp change
  rw [List.take_succ_eq_append_getElem inside, entry, overwritten_concat]

theorem Explains.concat (h : Explains A changes etas) (length : etas.length = changes.length)
    (pivot : w r ≠ 0) : Explains A (changes ++ [(r, (overwritten A changes).mulVec w)])
      (etas ++ [(r, w)]) := by
  intro k r' w' here
  rcases Nat.lt_or_ge k etas.length with inside | behind
  · rw [List.getElem?_append_left inside] at here
    rw [List.getElem?_append_left (length ▸ inside),
      List.take_append_of_le_length (by omega)]
    exact h k r' w' here
  · obtain ⟨bound, -⟩ := List.getElem?_eq_some_iff.mp here
    obtain rfl : k = etas.length := by
      rw [List.length_append, List.length_singleton] at bound
      omega
    rw [List.getElem?_concat_length] at here
    cases here
    refine ⟨pivot, ?_⟩
    rw [length, List.getElem?_concat_length, List.take_left]

theorem Explains.advance (h : Explains A changes etas) (here : etas[k]? = some (r, w))
    (system : (overwritten A (changes.take k)).mulVec x = y) :
    (overwritten A (changes.take (k + 1))).mulVec (advanced r w x) = y := by
  rw [h.step here, advanced_mulVec (h k r w here).1, system]

theorem Explains.leadBack (h : Explains A changes etas) (here : etas[k]? = some (r, w))
    (y : Fin n → ℚ) :
    ledBack r w ((overwritten A (changes.take (k + 1))).transpose.mulVec y) =
      (overwritten A (changes.take k)).transpose.mulVec y := by
  rw [h.step here, ledBack_transpose (h k r w here).1]

/-- Overwritten columns with nonzero pivots leave a nonsingular matrix nonsingular. -/
theorem Explains.det_ne_zero (h : Explains A changes etas) (length : etas.length = changes.length)
    (det : A.det ≠ 0) (hk : k ≤ changes.length) : (overwritten A (changes.take k)).det ≠ 0 := by
  induction k with
  | zero => exact det
  | succ k ih =>
    have here := List.getElem?_eq_getElem (l := etas) (i := k) (by omega)
    rw [h.step here, det_updateCol_mulVec]
    exact mul_ne_zero (ih (by omega)) (h k _ _ here).1

end Explains

/-! ### Values that are told from zero -/

/-- No component is smaller than what counts. -/
def Sizable (x : Fin n → ℚ) : Prop := ∀ i, x i ≠ 0 → SparseVector.tiny ≤ |x i|

/-- No component cancels. -/
def Survives (x x' : Fin n → ℚ) : Prop := ∀ i, x i ≠ 0 → x' i ≠ 0

/-- The solutions of a system with a matrix whose columns are overwritten one after the other have
sizable components only, and none that cancels on the way. -/
def Forward (A : Matrix (Fin n) (Fin n) ℚ) (changes : List (Overwriting n)) (v : Fin n → ℚ) : Prop :=
  ∀ k ≤ changes.length, ∀ x, (overwritten A (changes.take k)).mulVec x = v → Sizable x ∧
    ∀ x', (overwritten A (changes.take (k + 1))).mulVec x' = v → Survives x x'

/-- The solution of a transposed system with such a matrix has sizable components only, and so have
what the matrices before make of it; none of their components cancels on the way. -/
def Backward (A : Matrix (Fin n) (Fin n) ℚ) (changes : List (Overwriting n)) (y : Fin n → ℚ) :
    Prop :=
  Sizable y ∧ ∀ k < changes.length, Sizable ((overwritten A (changes.take k)).transpose.mulVec y) ∧
    Survives ((overwritten A (changes.take (k + 1))).transpose.mulVec y)
      ((overwritten A (changes.take k)).transpose.mulVec y)

instance (x : Fin n → ℚ) : Decidable (Sizable x) :=
  inferInstanceAs (Decidable (∀ i, x i ≠ 0 → SparseVector.tiny ≤ |x i|))

instance (x x' : Fin n → ℚ) : Decidable (Survives x x') :=
  inferInstanceAs (Decidable (∀ i, x i ≠ 0 → x' i ≠ 0))

section Forward

variable {changes : List (Overwriting n)} {v : Fin n → ℚ}

theorem forward_of_solutions {xs : Nat → Fin n → ℚ}
    (det : ∀ k ≤ changes.length, (overwritten A (changes.take k)).det ≠ 0)
    (system : ∀ k ≤ changes.length, (overwritten A (changes.take k)).mulVec (xs k) = v)
    (sizable : ∀ k ≤ changes.length, Sizable (xs k))
    (survives : ∀ k < changes.length, Survives (xs k) (xs (k + 1))) : Forward A changes v := by
  intro k hk x solves
  cases mulVec_unique (det k hk) (solves.trans (system k hk).symm)
  refine ⟨sizable k hk, fun x' solves' => ?_⟩
  rcases Nat.lt_or_eq_of_le hk with inside | rfl
  · cases mulVec_unique (det (k + 1) inside) (solves'.trans (system (k + 1) inside).symm)
    exact survives k inside
  · rw [List.take_of_length_le (Nat.le_succ _), ← List.take_length (l := changes)] at solves'
    cases mulVec_unique (det _ hk) (solves'.trans (system _ hk).symm)
    exact fun i => id

theorem forward_nil (det : A.det ≠ 0) (sizable : ∀ z, A.mulVec z = v → Sizable z) :
    Forward A [] v := by
  intro k hk x system
  obtain rfl : k = 0 := Nat.le_zero.mp hk
  refine ⟨sizable x system, fun x' system' i nonzero => ?_⟩
  rwa [← mulVec_unique det (system.trans system'.symm)]

theorem backward_nil (sizable : Sizable y) : Backward A [] y :=
  ⟨sizable, fun k hk => absurd hk (Nat.not_lt_zero k)⟩

end Forward

theorem kept_of_sizable (sizable : Sizable x) (i : Fin n) : kept 0 (x i) = x i := by
  refine kept_of_large ?_
  by_cases zero : x i = 0
  · exact .inl zero
  · exact .inr (max_le (abs_nonneg _) (sizable i zero))

section Placing

variable {changes : List (Overwriting n)} {π : Fin n ≃ Fin n} {v : Fin n → ℚ}

theorem submatrix_mulVec (M : Matrix (Fin n) (Fin n) ℚ) (x : Fin n → ℚ) :
    (M.submatrix id π.symm).mulVec x = M.mulVec (x ∘ π) :=
  Matrix.submatrix_mulVec_equiv M x id π.symm

theorem submatrix_transpose_mulVec (M : Matrix (Fin n) (Fin n) ℚ) (y : Fin n → ℚ) :
    (M.submatrix id π.symm).transpose.mulVec y = M.transpose.mulVec y ∘ π.symm := rfl

theorem sizable_comp_iff : Sizable (x ∘ π) ↔ Sizable x :=
  ⟨fun h i => π.apply_symm_apply i ▸ h (π.symm i), fun h i => h (π i)⟩

theorem survives_comp_iff {x' : Fin n → ℚ} : Survives (x ∘ π) (x' ∘ π) ↔ Survives x x' :=
  ⟨fun h i => π.apply_symm_apply i ▸ h (π.symm i), fun h i => h (π i)⟩

theorem overwritten_take (k : Nat) :
    overwritten (A.submatrix id π.symm) ((changes.map fun (j, a) => (π j, a)).take k) =
      (overwritten A (changes.take k)).submatrix id π.symm := by
  rw [← List.map_take, overwritten_submatrix]

theorem Forward.submatrix (h : Forward A changes v) :
    Forward (A.submatrix id π.symm) (changes.map fun (j, a) => (π j, a)) v := by
  intro k hk x system
  rw [List.length_map] at hk
  rw [overwritten_take, submatrix_mulVec] at system
  obtain ⟨sizable, survives⟩ := h k hk _ system
  refine ⟨sizable_comp_iff.mp sizable, fun x' system' => ?_⟩
  rw [overwritten_take, submatrix_mulVec] at system'
  exact survives_comp_iff.mp (survives _ system')

theorem Backward.submatrix (h : Backward A changes y) :
    Backward (A.submatrix id π.symm) (changes.map fun (j, a) => (π j, a)) y := by
  refine ⟨h.1, fun k hk => ?_⟩
  rw [List.length_map] at hk
  obtain ⟨sizable, survives⟩ := h.2 k hk
  rw [overwritten_take, overwritten_take, submatrix_transpose_mulVec, submatrix_transpose_mulVec]
  exact ⟨sizable_comp_iff.mpr sizable, survives_comp_iff.mpr survives⟩

end Placing

end SimplexBasis
