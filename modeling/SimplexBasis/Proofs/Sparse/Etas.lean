import SimplexBasis.Proofs.Overwriting
import SimplexBasis.Proofs.Sparse.Answers
import SimplexBasis.Proofs.Sparse.Applying

/-!
# Etas of sparse column replacements

A sparse factorization with its etas solves the systems of the factorized matrix with the columns of
the replacements overwritten, as long as no value on the way is taken for noise or for an entry that
cancelled.
-/

set_option linter.unusedSectionVars false

namespace SimplexBasis

variable {n k : Nat} {r : Fin n} {w : Fin n → ℚ} {u v : SparseVector ℚ} {line : List (Nat × ℚ)}
  {A : Matrix (Fin n) (Fin n) ℚ} {changes columns : List (Overwriting n)} {y : Fin n → ℚ}

theorem stored_of_ne_zero {x : ℚ} (nonzero : x ≠ 0) : SparseVector.stored x = x :=
  if_neg (by simpa using nonzero)

namespace Etas

variable {etas : Etas ℚ}

/-! ### What is stored -/

/-- The entries of an eta outside of its row. -/
structure Line (r : Fin n) (w : Fin n → ℚ) (line : List (Nat × ℚ)) : Prop where
  distinct : (keys line).Nodup
  inside : ∀ i ∈ keys line, i < n
  nonzero : ∀ e ∈ line, e.2 ≠ 0
  values : ∀ i : Fin n, valueAt line i = outside r w i

/-- The etas of the given columns. -/
structure Holds (etas : Etas ℚ) (columns : List (Overwriting n)) : Prop where
  rows : etas.rows = (columns.map fun eta => eta.1.val).toArray
  inverses : etas.inverses = (columns.map fun eta => 1 / eta.2 eta.1).toArray
  lines : ∃ lines, etas.lines = .ofLines lines ∧
    List.Forall₂ (fun eta line => Line eta.1 eta.2 line) columns lines

theorem Line.apart (h : Line r w line) : r.val ∉ keys line := by
  intro member
  obtain ⟨⟨i, a⟩, here, same⟩ := List.mem_map.mp member
  obtain rfl : i = r := same
  have value := h.values r
  rw [valueAt_of_mem h.distinct here, outside, if_pos rfl] at value
  exact h.nonzero _ here value

theorem Holds.read (h : Holds etas columns) (here : columns[k]? = some (r, w)) :
    entry etas.rows k = .ok r.val ∧ entry etas.inverses k = .ok (1 / w r) ∧
      ∃ line, etas.lines.line k = .ok line ∧ Line r w line := by
  obtain ⟨lines, written, each⟩ := h.lines
  obtain ⟨inside, column⟩ := List.getElem?_eq_some_iff.mp here
  obtain ⟨length, each⟩ := List.forall₂_iff_get.mp each
  have entries := each k inside (length ▸ inside)
  simp only [List.get_eq_getElem, column] at entries
  refine ⟨?_, ?_, _, written ▸ Compressed.line_ofLines lines k (length ▸ inside), entries⟩
  · rw [entry_eq_ok_iff, h.rows]
    simp [here]
  · rw [entry_eq_ok_iff, h.inverses]
    simp [here]

theorem Holds.count (h : Holds etas columns) : etas.rows.size = columns.length := by
  rw [h.rows]
  simp

theorem Holds.empty : Holds (.empty : Etas ℚ) ([] : List (Overwriting n)) :=
  ⟨rfl, rfl, [], rfl, .nil⟩

theorem Holds.push (h : Holds etas columns) (entries : Line r w line) :
    Holds ⟨etas.lines.pushLine line, etas.rows.push r, etas.inverses.push (1 / w r)⟩
      (columns ++ [(r, w)]) := by
  obtain ⟨lines, written, each⟩ := h.lines
  refine ⟨by simp [h.rows], by simp [h.inverses], lines ++ [line], ?_,
    List.rel_append each (.cons entries .nil)⟩
  rw [written, Compressed.ofLines_concat]

/-! ### Single etas -/

/-- The line of an eta is subtracted. No row is left with a placeholder, for no entry cancels. -/
theorem subtract_run {x : ℚ} (nonzero : x ≠ 0) (distinct : (keys line).Nodup)
    (inside : ∀ i ∈ keys line, i < n) (filled : ∀ e ∈ line, e.2 ≠ 0) (consistent : u.Consistent)
    (mode : u.packed = false) (dimension : u.dimension = n)
    (survives : ∀ i, u.elements.getD i 0 ≠ 0 → u.elements.getD i 0 - valueAt line i * x ≠ 0) :
    ∃ u', subtract line x u = .ok u' ∧ u'.Consistent ∧ u'.packed = false ∧ u'.dimension = n ∧
      ∀ i, u'.elements.getD i 0 = u.elements.getD i 0 - valueAt line i * x := by
  induction line generalizing u with
  | nil => exact ⟨u, rfl, consistent, mode, dimension, fun i => by simp⟩
  | cons e line ih =>
    obtain ⟨i, a⟩ := e
    obtain ⟨fresh, distinct⟩ := List.nodup_cons.mp distinct
    have bound : i < u.elements.size := (inside i (by simp [keys])).trans_eq dimension.symm
    have value : valueAt ((i, a) :: line) i = a := by rw [valueAt_cons, if_pos rfl]
    have other : ∀ j, j ≠ i → valueAt ((i, a) :: line) j = valueAt line j := fun j ne => by
      rw [valueAt_cons, if_neg fun same => ne same.symm]
    have result : u.elements.getD i 0 - a * x ≠ 0 := by
      by_cases free : u.elements.getD i 0 = 0
      · rw [free, zero_sub, neg_ne_zero]
        exact mul_ne_zero (filled (i, a) List.mem_cons_self) nonzero
      · have stays := survives i free
        rwa [value] at stays
    let u₁ : SparseVector ℚ := ⟨u.elements.setIfInBounds i (u.elements.getD i 0 - a * x),
      if u.elements.getD i 0 == 0 then u.indices.push i else u.indices, u.packed⟩
    have consistent₁ : u₁.Consistent :=
      consistent.store mode bound (beq_eq_false_iff_ne.mpr result)
    have read : ∀ j, u₁.elements.getD j 0 =
        if j = i then u.elements.getD i 0 - a * x else u.elements.getD j 0 := fun j =>
      getD_setIfInBounds bound
    obtain ⟨u', run, consistent', mode', dimension', values⟩ := ih distinct
      (fun j member => inside j (List.mem_cons_of_mem _ member))
      (fun e member => filled e (List.mem_cons_of_mem _ member)) consistent₁ mode
      (Array.size_setIfInBounds.trans dimension) fun j stored => by
        rw [read] at stored ⊢
        by_cases same : j = i
        · rwa [if_pos same, same, valueAt_of_not_mem fresh, zero_mul, sub_zero]
        · rw [if_neg same] at stored ⊢
          rw [← other j same]
          exact survives j stored
    refine ⟨u', ?_, consistent', mode', dimension', fun j => ?_⟩
    · rw [subtract, List.foldlM_cons]
      dsimp only
      rw [entry_getD 0 bound, checked_ok_bind, stored_of_ne_zero result]
      exact run
    · rw [values, read]
      by_cases same : j = i
      · rw [same, if_pos rfl, valueAt_of_not_mem fresh, value, zero_mul, sub_zero]
      · rw [if_neg same, other j same]

theorem Holds.apply_run (h : Holds etas columns) (here : columns[k]? = some (r, w))
    (pivot : w r ≠ 0) (consistent : u.Consistent) (mode : u.packed = false)
    (dimension : u.dimension = n) (sizable : Sizable (vec n u.elements))
    (survives : Survives (vec n u.elements) (advanced r w (vec n u.elements))) (flops : Nat) :
    ∃ u' flops', etas.apply (u, flops) k = .ok (u', flops') ∧ u'.Consistent ∧ u'.packed = false ∧
      u'.dimension = n ∧ vec n u'.elements = advanced r w (vec n u.elements) := by
  obtain ⟨row, inverse, line, read, entries⟩ := h.read here
  have bound : r.val < u.elements.size := dimension.symm ▸ r.isLt
  have own : vec n u.elements r = u.elements.getD r 0 := rfl
  simp only [apply_eq]
  rw [row, checked_ok_bind, entry_getD 0 bound, checked_ok_bind]
  by_cases zero : u.elements.getD r 0 = 0
  · rw [if_pos (by simp [zero])]
    refine ⟨u, flops, rfl, consistent, mode, dimension, funext fun i => ?_⟩
    by_cases same : i = r
    · rw [same, advanced, Function.update_self, own, zero, zero_mul]
    · rw [advanced, Function.update_of_ne same, own, zero, mul_zero, sub_zero]
  · have real : u.elements.getD r 0 ≠ SparseVector.placeholder := fun same => by
      have large := sizable r zero
      rw [own, same, abs_of_pos placeholder_pos] at large
      exact absurd large (not_le.mpr placeholder_lt_tiny)
    obtain ⟨u₁, run, consistent₁, mode₁, dimension₁, values⟩ := subtract_run zero entries.distinct
      entries.inside entries.nonzero consistent mode dimension fun i stored => by
        by_cases inside : i < n
        · rw [entries.values ⟨i, inside⟩]
          by_cases same : (⟨i, inside⟩ : Fin n) = r
          · rwa [outside, if_pos same, zero_mul, sub_zero]
          · have stays := survives ⟨i, inside⟩ stored
            rwa [advanced, Function.update_of_ne same] at stays
        · rwa [valueAt_of_not_mem fun member => inside (entries.inside i member), zero_mul, sub_zero]
    have pivoted : u₁.elements.getD r 0 = u.elements.getD r 0 := by
      rw [values, valueAt_of_not_mem entries.apart, zero_mul, sub_zero]
    have result : u.elements.getD r 0 * (1 / w r) ≠ 0 := mul_ne_zero zero (one_div_ne_zero pivot)
    have place : r.val ∈ u₁.places := consistent₁.mem_places.mpr (by
      rw [pivoted]
      exact beq_eq_false_iff_ne.mpr zero)
    have bound₁ : r.val < u₁.elements.size := consistent₁.place_lt place
    have shown : (u.elements.getD r 0 == 0 || u.elements.getD r 0 == SparseVector.placeholder) = false :=
      Bool.or_eq_false_iff.mpr ⟨beq_eq_false_iff_ne.mpr zero, beq_eq_false_iff_ne.mpr real⟩
    rw [shown, if_neg Bool.false_ne_true, read, checked_ok_bind, run, checked_ok_bind, inverse,
      checked_ok_bind, withEntry_of_lt _ bound₁, stored_of_ne_zero result]
    refine ⟨_, _, rfl, consistent₁.refill place (beq_eq_false_iff_ne.mpr result), mode₁,
      Array.size_setIfInBounds.trans dimension₁, funext fun i => ?_⟩
    unfold vec
    rw [getD_setIfInBounds bound₁]
    by_cases same : i = r
    · rw [same, if_pos rfl, advanced, Function.update_self]
    · rw [if_neg (Fin.val_ne_of_ne same), values, entries.values, advanced,
        Function.update_of_ne same]

/-- An unpacked vector of the given dimension that lists all rows with a value, and maybe others. -/
structure Covered (n : Nat) (u : SparseVector ℚ) : Prop where
  size : u.elements.size = n
  mode : u.packed = false
  inside : ∀ i ∈ u.indices, i < n
  covers : ∀ i, u.elements.getD i 0 ≠ 0 → i ∈ u.indices

theorem Covered.store (h : Covered n u) {i : Nat} (hi : i < n) (x : ℚ) :
    Covered n ⟨u.elements.setIfInBounds i x,
      if u.elements.getD i 0 == 0 then u.indices.push i else u.indices, u.packed⟩ := by
  have listed : ∀ j, j ∈ (if u.elements.getD i 0 == 0 then u.indices.push i else u.indices) ↔
      j ∈ u.indices ∨ u.elements.getD i 0 = 0 ∧ j = i := by
    intro j
    by_cases free : u.elements.getD i 0 = 0
    · rw [if_pos (beq_iff_eq.mpr free), Array.mem_push, and_iff_right free]
    · rw [if_neg (beq_iff_eq.not.mpr free)]
      exact (or_iff_left fun both => free both.1).symm
  refine ⟨Array.size_setIfInBounds.trans h.size, h.mode, fun j member => ?_,
    fun j nonzero => (listed j).mpr ?_⟩
  · rcases (listed j).mp member with old | ⟨-, rfl⟩
    · exact h.inside j old
    · exact hi
  · dsimp only at nonzero
    rw [getD_setIfInBounds (h.size.symm ▸ hi)] at nonzero
    by_cases same : j = i
    · subst same
      exact or_iff_not_imp_right.mpr fun other => h.covers _ fun zero => other ⟨zero, rfl⟩
    · rw [if_neg same] at nonzero
      exact .inl (h.covers j nonzero)

theorem Line.dot_eq (h : Line r w line) (u : SparseVector ℚ) :
    line.foldl (fun dot e => dot + e.2 * u.elements.getD e.1 0) 0 =
      ∑ i, outside r w i * vec n u.elements i := by
  have sum : line.foldl (fun dot e => dot + e.2 * u.elements.getD e.1 0) 0 =
      (line.map fun e => e.2 * u.elements.getD e.1 0).sum := by
    rw [List.sum_eq_foldl, List.foldl_map]
  rw [sum, Substitution.sum_line h.distinct h.inside (u.elements.getD · 0), Finset.sum_range]
  exact Finset.sum_congr rfl fun i _ => by rw [h.values]; rfl

theorem Holds.applyTranspose_run (h : Holds etas columns) (here : columns[k]? = some (r, w))
    (covered : Covered n u) (survives : Survives (vec n u.elements) (ledBack r w (vec n u.elements)))
    (flops : Nat) : ∃ u' flops', etas.applyTranspose (u, flops) k = .ok (u', flops') ∧
      Covered n u' ∧ vec n u'.elements = ledBack r w (vec n u.elements) := by
  obtain ⟨row, inverse, line, read, entries⟩ := h.read here
  have bound : r.val < u.elements.size := covered.size.symm ▸ r.isLt
  unfold applyTranspose
  dsimp only
  rw [row, checked_ok_bind, read, checked_ok_bind,
    dot_run fun i member => covered.size.symm ▸ entries.inside i member, checked_ok_bind,
    entries.dot_eq, entry_getD 0 bound, checked_ok_bind, inverse, checked_ok_bind]
  have own : ledBack r w (vec n u.elements) r =
      u.elements.getD r 0 * (1 / w r) - ∑ i, outside r w i * vec n u.elements i :=
    Function.update_self ..
  rw [← own]
  have other : ∀ i, i ≠ r → ledBack r w (vec n u.elements) i = vec n u.elements i := fun i ne =>
    Function.update_of_ne ne ..
  generalize ledBack r w (vec n u.elements) = z at survives own other ⊢
  by_cases idle : u.elements.getD r 0 = 0 ∧ z r = 0
  · rw [if_pos (by simp [idle])]
    refine ⟨u, flops, rfl, covered, funext fun i => ?_⟩
    by_cases same : i = r
    · rw [same, idle.2]
      exact idle.1
    · rw [other i same]
  · have result : z r ≠ 0 := by
      intro zero
      by_cases free : u.elements.getD r 0 = 0
      · exact idle ⟨free, zero⟩
      · exact survives r free zero
    rw [if_neg (by simp [result]), stored_of_ne_zero result]
    refine ⟨_, _, rfl, covered.store r.isLt (z r), funext fun i => ?_⟩
    unfold vec
    rw [getD_setIfInBounds bound]
    by_cases same : i = r
    · rw [same, if_pos rfl]
    · rw [if_neg (Fin.val_ne_of_ne same), other i same]
      rfl

/-! ### All etas -/

theorem Holds.applied (h : Holds etas columns) (explains : Explains A changes columns)
    (length : columns.length = changes.length) (consistent : u.Consistent)
    (mode : u.packed = false) (dimension : u.dimension = n) {b : Fin n → ℚ}
    (system : A.mulVec (vec n u.elements) = b) (forward : Forward A changes b) : ∃ u' flops,
      (List.range etas.rows.size).foldlM etas.apply (u, 0) = .ok (u', flops) ∧ u'.Consistent ∧
      u'.packed = false ∧ u'.dimension = n ∧
      (overwritten A changes).mulVec (vec n u'.elements) = b := by
  rw [h.count]
  obtain ⟨⟨u', flops⟩, run, consistent, mode, dimension, system⟩ := foldlM_ok (f := etas.apply)
    (l := List.range columns.length) (y := (u, 0)) (fun done (state : SparseVector ℚ × Nat) => state.1.Consistent ∧ state.1.packed = false ∧
      state.1.dimension = n ∧
      (overwritten A (changes.take done.length)).mulVec (vec n state.1.elements) = b)
    ⟨consistent, mode, dimension, system⟩ (by
      rintro done k rest ⟨u, flops⟩ split ⟨consistent, mode, dimension, system⟩
      obtain ⟨rfl, hk⟩ := range_split split
      have here := List.getElem?_eq_getElem hk
      have advanced := explains.advance here system
      obtain ⟨sizable, survives⟩ := forward done.length (by omega) _ system
      obtain ⟨u', flops', run, consistent', mode', dimension', values⟩ := h.apply_run here
        (explains done.length _ _ here).1 consistent mode dimension sizable (survives _ advanced)
        flops
      refine ⟨(u', flops'), run, consistent', mode', dimension', ?_⟩
      rw [List.length_append, List.length_singleton]
      dsimp only
      rw [values]
      exact advanced)
  refine ⟨u', flops, run, consistent, mode, dimension, ?_⟩
  rwa [List.length_range, length, List.take_length] at system

theorem Holds.appliedTranspose (h : Holds etas columns) (explains : Explains A changes columns)
    (length : columns.length = changes.length) (covered : Covered n u)
    (system : (overwritten A changes).transpose.mulVec y = vec n u.elements)
    (backward : Backward A changes y) : ∃ u' flops,
      (List.range etas.rows.size).reverse.foldlM etas.applyTranspose (u, 0) = .ok (u', flops) ∧
      Covered n u' ∧ A.transpose.mulVec y = vec n u'.elements := by
  rw [h.count]
  obtain ⟨⟨u', flops⟩, run, covered, system⟩ := foldlM_ok (f := etas.applyTranspose)
    (l := (List.range columns.length).reverse) (y := (u, 0)) (fun done (state : SparseVector ℚ × Nat) => Covered n state.1 ∧
      (overwritten A (changes.take (columns.length - done.length))).transpose.mulVec y =
        vec n state.1.elements)
    ⟨covered, by
      rw [List.length_nil, Nat.sub_zero, length, List.take_length]
      exact system⟩ (by
      rintro done k rest ⟨u, flops⟩ split ⟨covered, system⟩
      obtain ⟨last, hk⟩ := range_reverse_split split
      have here := List.getElem?_eq_getElem hk
      dsimp only at covered system
      rw [show columns.length - done.length = k + 1 by omega] at system
      have led := explains.leadBack here y
      obtain ⟨-, survives⟩ := backward.2 k (by omega)
      rw [← led, system] at survives
      obtain ⟨u', flops', run, covered', values⟩ := h.applyTranspose_run here covered survives flops
      refine ⟨(u', flops'), run, covered', ?_⟩
      dsimp only
      rw [List.length_append, List.length_singleton,
        show columns.length - (done.length + 1) = k by omega, values, ← system, led])
  refine ⟨u', flops, run, covered, ?_⟩
  rwa [List.length_reverse, List.length_range, Nat.sub_self] at system

end Etas

namespace SparseFactorization

variable {s t : SparseFactorization ℚ} {all : List (Stage ℚ)} {column : SparseVector ℚ}

/-! ### Solves -/

/-- Complete factors without tolerance, with the etas of the given columns. -/
structure Updated (s : SparseFactorization ℚ) (all : List (Stage ℚ))
    (columns : List (Overwriting n)) : Prop where
  solvable : Solvable s all
  dimension : s.dimension = n
  exact_ : s.options.zeroTolerance = 0
  etas : s.etas.Holds columns

section Solves

variable (h : Updated s all columns) (explains : Explains (s.factors.positioned n) changes columns)
  (length : columns.length = changes.length) (consistent : v.Consistent) (dimension : v.dimension = n)
include h explains length consistent dimension

theorem Updated.ftran_run (forward : Forward (s.factors.positioned n) changes (v.atRows n)) :
    ∃ x t z, ftran v s = .ok (x, x.count) t ∧
      (overwritten (s.factors.positioned n) changes).mulVec z = v.atRows n ∧ x.Answers v id z := by
  obtain rfl := h.dimension
  obtain ⟨u, found, mode, size, system, solve⟩ := h.solvable.ftran_run consistent dimension
  obtain ⟨u', flops, applied, found', mode', size', system'⟩ :=
    h.etas.applied explains length found mode size system forward
  obtain ⟨x, t, run, answers⟩ := solve u' flops applied found' mode' size'
  have sizable := (forward changes.length le_rfl _ (by
    rw [List.take_length]
    exact system')).1
  refine ⟨x, t, _, run, system', answers.consistent, answers.mode, answers.dimension, fun i => ?_⟩
  rw [answers.values, h.exact_]
  exact kept_of_sizable sizable i

theorem Updated.btran_run
    (backward : ∀ y, (overwritten (s.factors.positioned n) changes).transpose.mulVec y = v.atRows n →
      Backward (s.factors.positioned n) changes y) :
    ∃ x t y, btran v s = .ok (x, x.count) t ∧
      (overwritten (s.factors.positioned n) changes).transpose.mulVec y = v.atRows n ∧
      x.Answers v id y := by
  obtain rfl := h.dimension
  have unpacked := SparseVector.Consistent.packed_unpack v
  have size := (SparseVector.Consistent.dimension_unpack v).trans dimension
  have regular := h.solvable.complete.det_positioned_ne_zero
  have regular' : (overwritten (s.factors.positioned s.dimension) changes).det ≠ 0 := by
    have := explains.det_ne_zero length regular le_rfl
    rwa [List.take_length] at this
  obtain ⟨y, system⟩ := exists_mulVec ((Matrix.det_transpose _).trans_ne regular')
    (v.atRows s.dimension)
  have values : v.atRows s.dimension = vec s.dimension v.unpack.elements :=
    funext fun i => consistent.valueOf_unpack i
  have covered : Etas.Covered s.dimension v.unpack :=
    ⟨size, unpacked, fun i member => size ▸ consistent.unpack.inside i member,
      fun _ => consistent.unpack.covers unpacked⟩
  obtain ⟨u, flops, applied, covered, led⟩ := h.etas.appliedTranspose explains length covered
    (system.trans values) (backward y system)
  obtain ⟨x, t, y', run, system', answers⟩ := h.solvable.btran_run dimension applied covered.size
    covered.mode covered.inside covered.covers
  cases mulVec_unique ((Matrix.det_transpose _).trans_ne regular) (led.trans system'.symm)
  refine ⟨x, t, y, run, system, answers.consistent, answers.mode, answers.dimension, fun i => ?_⟩
  rw [answers.values, h.exact_]
  exact kept_of_sizable (backward y system).1 i

end Solves

/-! ### Storing an eta -/

theorem line_of_column (consistent : column.Consistent) (dimension : column.dimension = n)
    (sizable : Sizable (column.atRows n)) (pivot : column.valueOf r ≠ 0) :
    Etas.Line r (column.atRows n) ((etaEntries column r).map fun (i, x) =>
      (i, x * (1 / column.valueOf r))) := by
  have real : ∀ e ∈ column.entries, SparseVector.tiny ≤ |e.2| := fun e member => by
    have inside := consistent.keys_lt e.1 (List.mem_map_of_mem member)
    have value : column.valueOf e.1 = e.2 := valueAt_of_mem consistent.nodup_keys member
    have nonzero := beq_eq_false_iff_ne.mp (consistent.entries_ne_zero member)
    have large := sizable ⟨e.1, dimension ▸ inside⟩
    rw [SparseVector.atRows, value] at large
    exact large nonzero
  have whole : etaEntries column r = column.entries.filter fun e => e.1 != r.val := by
    refine List.filter_congr fun e member => ?_
    dsimp only
    rw [scalar_abs, decide_eq_true (real e member), Bool.and_true]
  have keyed : keys ((etaEntries column r).map fun (i, x) => (i, x * (1 / column.valueOf r))) =
      keys (column.entries.filter fun e => e.1 != r.val) := by
    rw [whole, keys, keys, List.map_map]
    rfl
  refine ⟨?_, fun i member => ?_, fun e member => ?_, fun i => ?_⟩
  · rw [keyed]
    exact nodup_keys_filter consistent.nodup_keys _
  · rw [keyed] at member
    exact dimension ▸ consistent.keys_lt i ((List.filter_sublist.map Prod.fst).subset member)
  · obtain ⟨⟨i, x⟩, here, rfl⟩ := List.mem_map.mp member
    have nonzero := beq_eq_false_iff_ne.mp
      (consistent.entries_ne_zero (List.mem_filter.mp here).1)
    exact mul_ne_zero nonzero (one_div_ne_zero pivot)
  · rw [whole, valueAt_map (· * (1 / column.valueOf r)) (zero_mul _),
      valueAt_filter fun i => i != r.val, outside, SparseVector.atRows]
    by_cases same : i = r
    · rw [if_pos same, if_neg (by simp [same]), zero_mul]
    · rw [if_neg same, if_pos (by simpa using Fin.val_ne_of_ne same)]
      rfl

theorem Updated.replaceColumn (h : Updated s all columns) (consistent : column.Consistent)
    (dimension : column.dimension = n) (sizable : Sizable (column.atRows n))
    (pivot : column.valueOf r ≠ 0)
    (run : replaceColumn column r (column.valueOf r) s = .ok () t) :
    Updated t all (columns ++ [(r, column.atRows n)]) ∧ t.factors = s.factors := by
  have bounded := ((replaceColumn_ends h.solvable.phase _ _ _).result run).2.2
  obtain ⟨_, ran⟩ | ⟨_, ran⟩ | ⟨-, -, -, ran⟩ :=
    replaceColumn_run h.solvable.phase (r.isLt.trans_eq h.dimension.symm) column (column.valueOf r)
  · exact nomatch ran.symm.trans run
  · exact nomatch ran.symm.trans run
  · cases ran.symm.trans run
    refine ⟨⟨?_, h.dimension, h.exact_, h.etas.push (line_of_column consistent dimension sizable
      pivot)⟩, rfl⟩
    exact
      { phase := h.solvable.phase
        pending := h.solvable.pending
        bounded := bounded
        length := h.solvable.length
        triangular := h.solvable.triangular
        pivots := h.solvable.pivots
        factors := h.solvable.factors
        built := h.solvable.built
        workspace := h.solvable.workspace }

end SparseFactorization

end SimplexBasis
