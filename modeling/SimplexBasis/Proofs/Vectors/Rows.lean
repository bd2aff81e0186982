import SimplexBasis.Proofs.Vectors.Values

/-!
# Operations by row

What the operations do to a consistent vector, told by its rows. A vector in a given mode is
determined by its dimension, its list of rows and its values (`Consistent.ext_rows`), and every
operation is described by what it does to these. The description is the same in both modes, so that
the mode of a vector cannot be told from what it answers (`byRow_of_consistent`).
-/

set_option linter.unusedSectionVars false

namespace SimplexBasis.SparseVector

variable {v w : SparseVector ℚ} {i j k : Nat} {x : ℚ}

namespace Consistent

/-! ### Rows -/

theorem mem_keys (h : v.Consistent) : i ∈ keys v.entries ↔ i ∈ v.indices := by
  rw [h.keys_entries, Array.mem_toList_iff]

theorem valueOf_absent (h : v.Consistent) (absent : i ∉ v.indices) : v.valueOf i = 0 :=
  valueAt_of_not_mem fun key => absent (h.mem_keys.mp key)

theorem valueOf_ne_zero_iff (h : v.Consistent) : v.valueOf i ≠ 0 ↔ i ∈ v.indices := by
  refine ⟨fun value => ?_, fun member => ?_⟩
  · by_contra absent
    exact value (h.valueOf_absent absent)
  · exact beq_eq_false_iff_ne.mp (h.valueAt_ne_zero (h.mem_keys.mpr member))

theorem valueOf_of_mem (h : v.Consistent) {e : Nat × ℚ} (member : e ∈ v.entries) :
    v.valueOf e.1 = e.2 := valueAt_of_mem h.nodup_keys member

theorem entries_eq (h : v.Consistent) :
    v.entries = v.indices.toList.map fun i => (i, v.valueOf i) := by
  rw [← h.keys_entries, List.map_map]
  refine ((List.map_congr_left fun e member => ?_).trans (List.map_id _)).symm
  exact Prod.ext rfl (h.valueOf_of_mem member)

theorem valueOf_packed (h : v.Consistent) (mode : v.packed = true)
    (place : v.indices[k]? = some i) : v.valueOf i = v.elements.getD k 0 := by
  obtain ⟨inside, rfl⟩ := Array.getElem?_eq_some_iff.mp place
  have within : k < v.elements.size := Nat.lt_of_lt_of_le inside h.count_le
  have member : (v.indices[k], v.elements[k]) ∈ v.entries := by
    unfold SparseVector.entries
    rw [if_pos mode, List.mem_iff_getElem]
    exact ⟨k, by simpa using ⟨inside, within⟩, by simp⟩
  rw [h.valueOf_of_mem member]
  simp [within]

/-- An unpacked vector is determined by its dimension, its rows and their values. -/
theorem ext_rows (h : v.Consistent) (h' : w.Consistent) (mode : v.packed = false)
    (mode' : w.packed = false) (dimension : v.dimension = w.dimension)
    (indices : v.indices = w.indices) (values : ∀ i, v.valueOf i = w.valueOf i) : v = w := by
  have elements : v.elements = w.elements := by
    refine Array.ext dimension fun k inside inside' => ?_
    have value := values k
    rw [h.valueOf_unpacked mode, h'.valueOf_unpacked mode'] at value
    simpa [inside, inside'] using value
  cases v
  cases w
  simp_all

end Consistent

/-! ### Operations that keep the rows -/

/-- The same rows, possibly in another order, with the same values. -/
structure SameRows (v w : SparseVector ℚ) : Prop where
  consistent : w.Consistent
  dimension : w.dimension = v.dimension
  rows : w.indices.toList.Perm v.indices.toList
  values : ∀ i, w.valueOf i = v.valueOf i

namespace Consistent

theorem sameRows_unpack (h : v.Consistent) : SameRows v v.unpack where
  consistent := h.unpack
  dimension := dimension_unpack v
  rows := by rw [indices_unpack]
  values i := by rw [h.unpack.valueOf_unpacked (packed_unpack v), h.valueOf_unpack]

theorem sameRows_pack (h : v.Consistent) : ∃ w, v.pack = .ok w ∧ w.packed = true ∧
    w.indices = v.indices ∧ SameRows v w := by
  obtain ⟨w, run, consistent, mode, dimension, entries⟩ := h.pack
  have indices : w.indices = v.indices := by
    rw [← Array.toList_inj, ← consistent.keys_entries, ← h.keys_entries, entries]
  exact ⟨w, run, mode, indices, consistent, dimension, by rw [indices], fun i => by
    rw [valueOf, entries, valueOf]⟩

theorem unpack_pack (h : v.Consistent) (mode : v.packed = false) (run : v.pack = .ok w) :
    w.unpack = v := by
  obtain ⟨w', run', -, indices, same⟩ := h.sameRows_pack
  obtain rfl := Except.ok.inj (run.symm.trans run')
  have back := same.consistent.sameRows_unpack
  exact back.consistent.ext_rows h (packed_unpack w) mode (back.dimension.trans same.dimension)
    ((indices_unpack w).trans indices) fun i => (back.values i).trans (same.values i)

theorem sameRows_sortIndices (h : v.Consistent) :
    SameRows v v.sortIndices ∧ v.sortIndices.packed = v.packed := by
  have consistent := h.sortIndices
  revert consistent
  unfold SparseVector.sortIndices
  split
  · rename_i mode
    have perm := Sorting.sort_perm Prod.fst v.entries
    generalize Sorting.sort Prod.fst v.entries = sorted at perm
    intro consistent
    have fits : (sorted.map Prod.snd).length ≤ v.dimension := by
      rw [List.length_map, perm.length_eq, h.length_entries]
      exact h.count_le
    have entries := @entries_packed ℚ _ _ (overwrite v.elements 0 (sorted.map Prod.snd)) sorted
      (by simpa [dimension] using fits) fun k hk => by
        rw [getD_overwrite_values fits, if_pos (by simpa using hk)]
    refine ⟨⟨consistent, by simp [dimension], ?_, fun i => ?_⟩, mode.symm⟩
    · rw [← h.keys_entries]
      exact perm.map Prod.fst
    · rw [valueOf, entries, valueOf, valueAt_perm perm.symm h.nodup_keys]
  · rename_i mode
    have unpacked : v.packed = false := by simpa using mode
    intro consistent
    refine ⟨⟨consistent, rfl, List.mergeSort_perm _ _, fun i => ?_⟩, rfl⟩
    rw [consistent.valueOf_unpacked unpacked, h.valueOf_unpacked unpacked]

end Consistent

/-! ### Setting a row -/

/-- One row set to `x`: it is stored if it was, or if `x` is not zero. -/
structure RowSet (v w : SparseVector ℚ) (i : Nat) (x : ℚ) : Prop where
  consistent : w.Consistent
  packed : w.packed = v.packed
  dimension : w.dimension = v.dimension
  indices : w.indices = if i ∈ v.indices ∨ x = 0 then v.indices else v.indices.push i
  here : w.valueOf i = if i ∈ v.indices then stored x else x
  elsewhere : ∀ k ≠ i, w.valueOf k = v.valueOf k

theorem findIdx?_eq_none (absent : i ∉ v.indices) :
    v.indices.findIdx? (· == i) = none :=
  Array.findIdx?_eq_none_iff.mpr fun k member => by
    rw [beq_eq_false_iff_ne]
    rintro rfl
    exact absent member

namespace Consistent

theorem rowSet_zero (h : v.Consistent) (absent : i ∉ v.indices) : RowSet v v i 0 where
  consistent := h
  packed := rfl
  dimension := rfl
  indices := by rw [if_pos (.inr rfl)]
  here := by rw [if_neg absent, h.valueOf_absent absent]
  elsewhere _ _ := rfl

theorem set_unpacked (h : v.Consistent) (mode : v.packed = false) (bound : i < v.dimension)
    (x : ℚ) : ∃ w, v.set i x = .ok w ∧ RowSet v w i x := by
  have size : i < v.elements.size := bound
  have listed : (v.elements.getD i 0 != 0) = true ↔ i ∈ v.indices := by
    rw [bne_iff_ne, ← h.valueOf_unpacked mode, h.valueOf_ne_zero_iff]
  -- In each case `w` holds one other element, which `valueOf_unpacked` reads.
  have values : ∀ {w : SparseVector ℚ} {y : ℚ}, w.Consistent → w.packed = false →
      w.elements = v.elements.setIfInBounds i y → w.valueOf i = y ∧
      ∀ k ≠ i, w.valueOf k = v.valueOf k := fun consistent unpacked elements =>
    ⟨by rw [consistent.valueOf_unpacked unpacked, elements, getD_setIfInBounds size, if_pos rfl],
      fun k other => by
        rw [consistent.valueOf_unpacked unpacked, elements, getD_setIfInBounds size, if_neg other,
          h.valueOf_unpacked mode]⟩
  by_cases member : i ∈ v.indices
  · have run : v.set i x =
        .ok { v with elements := v.elements.setIfInBounds i (SparseVector.stored x) } := by
      unfold SparseVector.set
      rw [if_neg (Nat.not_le.mpr bound), if_neg (by simp [mode]), if_pos (listed.mpr member)]
    have consistent := h.set run
    obtain ⟨here, elsewhere⟩ := values consistent mode rfl
    exact ⟨_, run, consistent, rfl, by simp [dimension], by rw [if_pos (.inl member)],
      by rw [here, if_pos member], elsewhere⟩
  · have vacant : ¬(v.elements.getD i 0 != 0) = true := fun filled => member (listed.mp filled)
    by_cases zero : x = 0
    · subst zero
      refine ⟨v, ?_, h.rowSet_zero member⟩
      unfold SparseVector.set
      rw [if_neg (Nat.not_le.mpr bound), if_neg (by simp [mode]), if_neg vacant, if_neg (by simp)]
    · have run : v.set i x = .ok { v with
          elements := v.elements.setIfInBounds i x, indices := v.indices.push i } := by
        unfold SparseVector.set
        rw [if_neg (Nat.not_le.mpr bound), if_neg (by simp [mode]), if_neg vacant,
          if_pos (by simpa using zero)]
      have consistent := h.set run
      obtain ⟨here, elsewhere⟩ := values consistent mode rfl
      exact ⟨_, run, consistent, rfl, by simp [dimension], by rw [if_neg (by tauto)],
        by rw [here, if_neg member], elsewhere⟩

theorem count_lt (h : v.Consistent) (bound : i < v.dimension) (absent : i ∉ v.indices) :
    v.count < v.dimension := by
  have distinct : (i :: v.indices.toList).Nodup :=
    List.nodup_cons.mpr ⟨by simpa using absent, h.distinct⟩
  have subset : i :: v.indices.toList ⊆ List.range v.dimension := fun k hk => by
    rcases List.mem_cons.mp hk with rfl | hk
    · exact List.mem_range.mpr bound
    · exact List.mem_range.mpr (h.inside k (Array.mem_toList_iff.mp hk))
  have length := (distinct.subperm subset).length_le
  rw [List.length_cons, List.length_range] at length
  exact length

/-- One place of a packed vector holds `x` for row `i`; the other places are as they were. -/
theorem valueOf_placed (h : v.Consistent) (h' : w.Consistent) (mode : v.packed = true)
    (mode' : w.packed = true) (size : k < v.elements.size)
    (elements : w.elements = v.elements.setIfInBounds k x) (here : w.indices[k]? = some i)
    (before : ∀ l, v.indices[k]? = some l → l = i)
    (others : ∀ p ≠ k, w.indices[p]? = v.indices[p]?) :
    w.valueOf i = x ∧ ∀ l ≠ i, w.valueOf l = v.valueOf l := by
  refine ⟨?_, fun l other => ?_⟩
  · rw [h'.valueOf_packed mode' here, elements, getD_setIfInBounds size, if_pos rfl]
  · by_cases listed : l ∈ v.indices
    · obtain ⟨p, place⟩ := Array.mem_iff_getElem?.mp listed
      have apart : p ≠ k := by
        rintro rfl
        exact other (before l place)
      rw [h'.valueOf_packed mode' ((others p apart).trans place), elements,
        getD_setIfInBounds size, if_neg apart, h.valueOf_packed mode place]
    · have absent : l ∉ w.indices := fun member => by
        obtain ⟨p, place⟩ := Array.mem_iff_getElem?.mp member
        by_cases same : p = k
        · subst same
          exact other (Option.some.inj (place.symm.trans here))
        · exact listed (Array.mem_iff_getElem?.mpr ⟨p, (others p same).symm.trans place⟩)
      rw [h.valueOf_absent listed, h'.valueOf_absent absent]

theorem set_packed (h : v.Consistent) (mode : v.packed = true) (bound : i < v.dimension)
    (x : ℚ) : ∃ w, v.set i x = .ok w ∧ RowSet v w i x := by
  by_cases member : i ∈ v.indices
  · obtain ⟨k, found⟩ : ∃ k, v.indices.findIdx? (· == i) = some k := by
      cases found : v.indices.findIdx? (· == i) with
      | some k => exact ⟨k, rfl⟩
      | none => simpa using Array.findIdx?_eq_none_iff.mp found i member
    obtain ⟨inside, same, -⟩ := Array.findIdx?_eq_some_iff_getElem.mp found
    have place : v.indices[k]? = some i := by
      rw [Array.getElem?_eq_getElem inside, beq_iff_eq.mp same]
    have size : k < v.elements.size := Nat.lt_of_lt_of_le inside h.count_le
    have run : v.set i x =
        .ok { v with elements := v.elements.setIfInBounds k (SparseVector.stored x) } := by
      unfold SparseVector.set
      rw [if_neg (Nat.not_le.mpr bound), if_pos mode, found]
      simp only [withEntry_of_lt _ size]
      rfl
    have consistent := h.set run
    obtain ⟨here, elsewhere⟩ := h.valueOf_placed consistent mode mode size rfl place
      (fun l old => Option.some.inj (old.symm.trans place)) fun _ _ => rfl
    exact ⟨_, run, consistent, rfl, by simp [dimension], by rw [if_pos (.inl member)],
      by rw [here, if_pos member], elsewhere⟩
  · by_cases zero : x = 0
    · subst zero
      refine ⟨v, ?_, h.rowSet_zero member⟩
      unfold SparseVector.set
      rw [if_neg (Nat.not_le.mpr bound), if_pos mode, findIdx?_eq_none member]
      rfl
    · have size : v.count < v.elements.size := h.count_lt bound member
      have run : v.set i x = .ok { v with
          elements := v.elements.setIfInBounds v.count x, indices := v.indices.push i } := by
        unfold SparseVector.set
        rw [if_neg (Nat.not_le.mpr bound), if_pos mode, findIdx?_eq_none member]
        simp only [bne_iff_ne, ne_eq, zero, not_false_eq_true, if_true, withEntry_of_lt _ size]
        rfl
      have consistent := h.set run
      obtain ⟨here, elsewhere⟩ := h.valueOf_placed consistent mode mode size rfl
        Array.getElem?_push_size (by simp [count]) fun p apart =>
          Array.getElem?_push.trans (if_neg apart)
      exact ⟨_, run, consistent, rfl, by simp [dimension], by rw [if_neg (by tauto)],
        by rw [here, if_neg member], elsewhere⟩

theorem set_row (h : v.Consistent) (bound : i < v.dimension) (x : ℚ) :
    ∃ w, v.set i x = .ok w ∧ RowSet v w i x := by
  cases mode : v.packed with
  | false => exact h.set_unpacked mode bound x
  | true => exact h.set_packed mode bound x

/-- What a row of the unpacked vector is set to is unpacked from the vector with the row set. -/
theorem unpack_set (h : v.Consistent) (changed : RowSet v w i x) (bound : i < v.dimension) :
    v.unpack.set i x = .ok w.unpack := by
  have same := h.sameRows_unpack
  have result := changed.consistent.sameRows_unpack
  obtain ⟨u, run, other⟩ := same.consistent.set_row (same.dimension.symm ▸ bound) x
  rw [run]
  congr 1
  refine other.consistent.ext_rows result.consistent (other.packed.trans (packed_unpack v))
    (packed_unpack w) ?_ ?_ fun k => ?_
  · rw [other.dimension, same.dimension, result.dimension, changed.dimension]
  · rw [other.indices, indices_unpack, indices_unpack, changed.indices]
  · rw [result.values]
    by_cases here : k = i
    · subst here
      rw [other.here, changed.here, indices_unpack]
    · rw [other.elsewhere k here, same.values, changed.elsewhere k here]

/-! ### Cleaning -/

theorem indices_clean (h : v.Consistent) (tolerance : ℚ) : (v.clean tolerance).indices.toList =
    v.indices.toList.filter fun i => max tolerance tiny ≤ |v.valueOf i| := by
  obtain ⟨consistent, -, -, entries⟩ := h.clean tolerance
  rw [← consistent.keys_entries, entries, h.entries_eq, List.filter_map, keys, List.map_map]
  simp [Function.comp_def, scalar_max, scalar_abs]

theorem unpack_clean (h : v.Consistent) (tolerance : ℚ) :
    (v.clean tolerance).unpack = v.unpack.clean tolerance := by
  have same := h.sameRows_unpack
  obtain ⟨consistent, -, dimension, -⟩ := h.clean tolerance
  obtain ⟨consistent', mode, dimension', -⟩ := same.consistent.clean tolerance
  have result := consistent.sameRows_unpack
  refine result.consistent.ext_rows consistent' (packed_unpack _) (mode.trans (packed_unpack v))
    ?_ ?_ fun i => ?_
  · rw [result.dimension, dimension, dimension', same.dimension]
  · rw [indices_unpack, ← Array.toList_inj, h.indices_clean, same.consistent.indices_clean,
      indices_unpack]
    simp only [same.values]
  · rw [result.values, h.valueOf_clean, same.consistent.valueOf_clean, same.values]

end Consistent

/-! ### Scanning -/

/-- The rows of a range that are listed when it is scanned, in ascending order. -/
def rowsWithin (v : SparseVector ℚ) (first last : Nat) (tolerance : ℚ) : List Nat :=
  (List.range v.dimension).filter fun i =>
    (first ≤ i && i < last) && (v.valueOf i != 0 && tolerance ≤ |v.valueOf i|)

theorem indices_scanRow (tolerance : ℚ) (v : SparseVector ℚ) (i : Nat) :
    (v.scanRow tolerance i).indices.toList = v.indices.toList ++
      if v.elements.getD i 0 ≠ 0 ∧ tolerance ≤ |v.elements.getD i 0| then [i] else [] := by
  unfold scanRow
  dsimp only
  rw [scalar_abs]
  split
  · rename_i filled
    rw [bne_iff_ne] at filled
    split
    · rw [if_pos ⟨filled, ‹_›⟩, Array.toList_push]
    · rw [if_neg (by tauto), List.append_nil]
  · rename_i vacant
    rw [bne_iff_ne, not_not] at vacant
    rw [if_neg (by tauto), List.append_nil]

theorem getD_scanRow (tolerance : ℚ) (v : SparseVector ℚ) (i k : Nat) :
    (v.scanRow tolerance i).elements.getD k 0 =
      if k = i ∧ |v.elements.getD k 0| < tolerance then 0 else v.elements.getD k 0 := by
  rw [(scanRow_spec tolerance v i).2.2, scalar_abs]
  by_cases same : k = i
  · subst same
    generalize v.elements.getD k 0 = x
    by_cases zero : x = 0
    · simp [zero]
    · simp [zero]
  · rw [if_neg (by tauto), if_neg (by tauto)]

/-- Rows scanned one after another: those that are not small are listed, the small ones are
cleared. -/
theorem scanRows_spec (tolerance : ℚ) (v : SparseVector ℚ) {rows : List Nat}
    (distinct : rows.Nodup) :
    (rows.foldl (scanRow tolerance) v).elements.size = v.elements.size ∧
    (rows.foldl (scanRow tolerance) v).packed = v.packed ∧
    (rows.foldl (scanRow tolerance) v).indices.toList = v.indices.toList ++ rows.filter (fun i =>
      v.elements.getD i 0 != 0 && tolerance ≤ |v.elements.getD i 0|) ∧
    ∀ k, (rows.foldl (scanRow tolerance) v).elements.getD k 0 =
      if k ∈ rows ∧ |v.elements.getD k 0| < tolerance then 0 else v.elements.getD k 0 := by
  refine foldl_invariant (fun done (u : SparseVector ℚ) => u.elements.size = v.elements.size ∧
    u.packed = v.packed ∧ u.indices.toList = v.indices.toList ++ done.filter (fun i =>
      v.elements.getD i 0 != 0 && tolerance ≤ |v.elements.getD i 0|) ∧
    ∀ k, u.elements.getD k 0 =
      if k ∈ done ∧ |v.elements.getD k 0| < tolerance then 0 else v.elements.getD k 0)
    ⟨rfl, rfl, by simp, by simp⟩ ?_
  rintro done i rest u rfl ⟨size, mode, listed, values⟩
  have fresh : i ∉ done := fun member =>
    (List.nodup_append'.mp distinct).2.2 member List.mem_cons_self
  have here : u.elements.getD i 0 = v.elements.getD i 0 := by
    rw [values, if_neg fun seen => fresh seen.1]
  obtain ⟨mode', size', -⟩ := scanRow_spec tolerance u i
  refine ⟨size'.trans size, mode'.trans mode, ?_, fun k => ?_⟩
  · rw [indices_scanRow, here, listed, List.append_assoc, List.filter_append]
    congr 2
    rw [List.filter_cons, List.filter_nil]
    exact if_congr (by simp) rfl rfl
  · rw [getD_scanRow]
    by_cases same : k = i
    · subst same
      rw [here]
      exact if_congr (by simp) rfl rfl
    · rw [if_neg (by tauto), values]
      exact if_congr (by simp [same]) rfl rfl

theorem range_within (n first last : Nat) (p : Nat → Bool) :
    (List.range' (min first (min last n)) (min last n - min first (min last n))).filter p =
      (List.range n).filter fun i => (first ≤ i && i < last) && p i := by
  generalize from_last : min last n = stop
  generalize from_first : min first stop = start
  have split : List.range n =
      List.range start ++ List.range' start (stop - start) ++ List.range' stop (n - stop) := by
    have second := List.range'_append_1 (s := start) (m := stop - start) (n := n - stop)
    rw [show start + (stop - start) = stop by omega] at second
    rw [List.append_assoc, second, List.range_eq_range', List.range_eq_range']
    have first := List.range'_append_1 (s := 0) (m := start) (n := stop - start + (n - stop))
    rw [Nat.zero_add] at first
    rw [first]
    congr 1
    omega
  have before : (List.range start).filter (fun i => (first ≤ i && i < last) && p i) = [] :=
    List.filter_eq_nil_iff.mpr fun i member => by
      have := List.mem_range.mp member
      simp only [Bool.and_eq_true, decide_eq_true_eq]
      omega
  have behind : (List.range' stop (n - stop)).filter
      (fun i => (first ≤ i && i < last) && p i) = [] :=
    List.filter_eq_nil_iff.mpr fun i member => by
      have := List.mem_range'_1.mp member
      simp only [Bool.and_eq_true, decide_eq_true_eq]
      omega
  rw [split, List.filter_append, List.filter_append, before, behind, List.nil_append,
    List.append_nil]
  refine List.filter_congr fun i member => ?_
  have := List.mem_range'_1.mp member
  have inside : (decide (first ≤ i) && decide (i < last)) = true := by
    simp only [Bool.and_eq_true, decide_eq_true_eq]
    omega
  rw [inside, Bool.true_and]

namespace Consistent

theorem scan_eq (h : v.Consistent) (mode : v.packed = false) (first last : Nat) (tolerance : ℚ) :
    ∃ (rows : List Nat) (u : SparseVector ℚ), rows.Nodup ∧
      (∀ i < v.dimension, i ∈ rows ↔ first ≤ i ∧ i < last) ∧
      (∀ p, rows.filter p = (List.range v.dimension).filter fun i =>
        (first ≤ i && i < last) && p i) ∧
      u.elements = v.elements ∧ u.packed = false ∧
      u.indices.toList = v.indices.toList.filter (fun i => !(first ≤ i && i < last)) ∧
      v.scan first last tolerance = .ok (rows.foldl (scanRow tolerance) u,
        (rows.foldl (scanRow tolerance) u).count - u.count) := by
  refine ⟨List.range' (min first (min last v.dimension))
      (min last v.dimension - min first (min last v.dimension)), { v with
        indices := v.indices.filter fun i =>
          i < min first (min last v.dimension) || min last v.dimension ≤ i },
    List.nodup_range', fun i bound => ?_, range_within _ _ _, rfl, mode, ?_, ?_⟩
  · rw [List.mem_range'_1]
    omega
  · rw [Array.toList_filter]
    refine List.filter_congr fun i member => ?_
    have bound := h.inside i (Array.mem_toList_iff.mp member)
    rw [Bool.eq_iff_iff]
    simp
    omega
  · unfold SparseVector.scan
    rw [if_neg (by simp [mode])]
    rfl

theorem scan_rows (h : v.Consistent) (mode : v.packed = false) (first last : Nat)
    (tolerance : ℚ) : ∃ w, v.scan first last tolerance =
        .ok (w, (v.rowsWithin first last tolerance).length) ∧
      w.Consistent ∧ w.packed = false ∧ w.dimension = v.dimension ∧
      w.indices.toList = v.indices.toList.filter (fun i => !(first ≤ i && i < last)) ++
        v.rowsWithin first last tolerance ∧
      ∀ i, w.valueOf i =
        if (first ≤ i ∧ i < last) ∧ |v.valueOf i| < tolerance then 0 else v.valueOf i := by
  obtain ⟨rows, u, distinct, inside, within, elements, unpacked, others, run⟩ :=
    h.scan_eq mode first last tolerance
  have consistent := h.scan run
  obtain ⟨size, packed, listed, values⟩ := scanRows_spec tolerance u distinct
  rw [elements] at size values listed
  have found : rows.filter (fun i => v.elements.getD i 0 != 0 &&
      tolerance ≤ |v.elements.getD i 0|) = v.rowsWithin first last tolerance := by
    rw [within]
    simp only [rowsWithin, h.valueOf_unpacked mode]
  rw [found, others] at listed
  refine ⟨_, run.trans ?_, consistent, packed.trans unpacked, size, listed, fun i => ?_⟩
  · have count := congrArg List.length listed
    rw [List.length_append, ← others] at count
    congr 2
    change (rows.foldl (scanRow tolerance) u).indices.toList.length - u.indices.toList.length = _
    omega
  · rw [consistent.valueOf_unpacked (packed.trans unpacked), values, h.valueOf_unpacked mode]
    by_cases bound : i < v.dimension
    · exact if_congr (and_congr_left' (inside i bound)) rfl rfl
    · have zero := getD_behind (v := v) (Nat.le_of_not_lt bound)
      rw [beq_iff_eq] at zero
      rw [zero, ite_self, ite_self]

/-! ### Another dimension -/

theorem resize_rows (h : v.Consistent) {n : Nat} (addressable : n ≤ addressableWords) :
    ∃ w, v.resize n = .ok w ∧ w.Consistent ∧ w.packed = false ∧ w.dimension = n ∧
      w.indices.toList = v.indices.toList.filter (· < n) ∧
      ∀ i, w.valueOf i = if i < n then v.valueOf i else 0 := by
  have same := h.sameRows_unpack
  have mode := packed_unpack v
  have run : v.resize n = .ok ⟨v.unpack.elements.extract 0 n ++
      Array.replicate (n - v.unpack.elements.size) 0,
      if n < v.unpack.dimension then v.unpack.indices.filter (· < n) else v.unpack.indices,
      false⟩ := by
    unfold SparseVector.resize checkCapacity
    rw [if_pos addressable]
    rfl
  have consistent := h.resize run
  refine ⟨_, run, consistent, rfl, size_resized _ n, ?_, fun i => ?_⟩
  · dsimp only
    rw [indices_unpack, same.dimension]
    split
    · rw [Array.toList_filter]
    · refine (List.filter_eq_self.mpr fun i member => ?_).symm
      have bound := h.inside i (Array.mem_toList_iff.mp member)
      rw [decide_eq_true_eq]
      omega
  · by_cases bound : i < n
    · rw [consistent.valueOf_unpacked rfl, getD_resized _ bound, if_pos bound, ← same.values,
        same.consistent.valueOf_unpacked mode]
    · rw [if_neg bound]
      refine consistent.valueOf_behind ?_
      rw [dimension, size_resized]
      exact Nat.le_of_not_lt bound

end Consistent

/-! ### Both modes -/

/-- What is read of a vector is the value at each row. -/
structure Reports (v : SparseVector ℚ) : Prop where
  get : ∀ i < v.dimension, v.get i = .ok (v.valueOf i)
  entries : v.entries = v.indices.toList.map fun i => (i, v.valueOf i)
  toDense : v.toDense = Array.ofFn fun i : Fin v.dimension => v.valueOf i
  infNorm : ∀ b, v.infNorm ≤ b ↔ 0 ≤ b ∧ ∀ i < v.dimension, |v.valueOf i| ≤ b

theorem Consistent.reports (h : v.Consistent) : Reports v where
  get _ bound := h.get_eq bound
  entries := h.entries_eq
  toDense := by
    refine Array.ext (by rw [size_toDense, Array.size_ofFn]) fun i inside _ => ?_
    have value := h.getD_toDense i
    simpa [inside] using value
  infNorm b := by
    have largest : v.infNorm = largestOf v.entries := rfl
    rw [largest, largestOf_le_iff]
    refine and_congr_right fun nonneg => ⟨fun bounded i _ => ?_, fun bounded e member => ?_⟩
    · by_cases listed : i ∈ v.indices
      · have entry : (i, v.valueOf i) ∈ v.entries := by
          rw [h.entries_eq]
          exact List.mem_map.mpr ⟨i, Array.mem_toList_iff.mpr listed, rfl⟩
        exact bounded (i, v.valueOf i) entry
      · rwa [h.valueOf_absent listed, abs_zero]
    · have value := bounded e.1 (h.keys_lt e.1 (List.mem_map_of_mem member))
      rwa [h.valueOf_of_mem member] at value

/-- The operations on a vector, told by its rows. -/
structure ByRow (v : SparseVector ℚ) : Prop where
  reports : Reports v
  pack : ∃ w, v.pack = .ok w ∧ w.packed = true ∧ w.indices = v.indices ∧ SameRows v w ∧
    Reports w ∧ (v.packed = false → w.unpack = v)
  unpack : v.unpack.packed = false ∧ v.unpack.indices = v.indices ∧ SameRows v v.unpack ∧
    Reports v.unpack
  setPacked : ∀ mode, ∃ w, v.setPacked mode = .ok w ∧ w.packed = mode ∧ SameRows v w
  sortIndices : SameRows v v.sortIndices ∧ v.sortIndices.packed = v.packed
  /-- A row is set in either mode to the same effect. -/
  set : ∀ i < v.dimension, ∀ x, ∃ w, v.set i x = .ok w ∧ RowSet v w i x ∧
    v.unpack.set i x = .ok w.unpack
  /-- Exactly the rows of some magnitude are kept, in either mode. -/
  clean : ∀ tolerance, (v.clean tolerance).indices.toList =
      v.indices.toList.filter (fun i => max tolerance tiny ≤ |v.valueOf i|) ∧
    (v.clean tolerance).count =
      (v.indices.toList.filter fun i => max tolerance tiny ≤ |v.valueOf i|).length ∧
    (∀ i, (v.clean tolerance).valueOf i =
      if max tolerance tiny ≤ |v.valueOf i| then v.valueOf i else 0) ∧
    (v.clean tolerance).unpack = v.unpack.clean tolerance
  /-- Small values in the range are cleared, and the rest of the range is listed in ascending order
  behind the rows outside of it. -/
  scan : v.packed = false → ∀ first last tolerance, ∃ w,
    v.scan first last tolerance = .ok (w, (v.rowsWithin first last tolerance).length) ∧
    w.Consistent ∧ w.packed = false ∧ w.dimension = v.dimension ∧
    w.indices.toList = v.indices.toList.filter (fun i => !(first ≤ i && i < last)) ++
      v.rowsWithin first last tolerance ∧
    ∀ i, w.valueOf i =
      if (first ≤ i ∧ i < last) ∧ |v.valueOf i| < tolerance then 0 else v.valueOf i
  resize : ∀ n ≤ addressableWords, ∃ w, v.resize n = .ok w ∧ w.Consistent ∧ w.packed = false ∧
    w.dimension = n ∧ w.indices.toList = v.indices.toList.filter (· < n) ∧
    ∀ i, w.valueOf i = if i < n then v.valueOf i else 0

theorem Consistent.setPacked_row (h : v.Consistent) (mode : Bool) :
    ∃ w, v.setPacked mode = .ok w ∧ w.packed = mode ∧ SameRows v w := by
  cases mode with
  | false => exact ⟨v.unpack, rfl, packed_unpack v, h.sameRows_unpack⟩
  | true =>
    obtain ⟨w, run, packed, -, same⟩ := h.sameRows_pack
    exact ⟨w, run, packed, same⟩

/-- Every operation on a consistent vector acts on its rows, and it does so in the same way whether
the vector is packed or not. -/
theorem byRow_of_consistent (h : v.Consistent) : ByRow v where
  reports := h.reports
  pack := by
    obtain ⟨w, run, packed, indices, same⟩ := h.sameRows_pack
    have reports := same.consistent.reports
    exact ⟨w, run, packed, indices, same, reports, fun mode => h.unpack_pack mode run⟩
  unpack := ⟨Consistent.packed_unpack v, Consistent.indices_unpack v, h.sameRows_unpack,
    h.unpack.reports⟩
  setPacked := h.setPacked_row
  sortIndices := h.sameRows_sortIndices
  set i bound x := by
    obtain ⟨w, run, changed⟩ := h.set_row bound x
    exact ⟨w, run, changed, h.unpack_set changed bound⟩
  clean tolerance := ⟨h.indices_clean tolerance, congrArg List.length (h.indices_clean tolerance),
    h.valueOf_clean tolerance, h.unpack_clean tolerance⟩
  scan mode first last tolerance := h.scan_rows mode first last tolerance
  resize _ addressable := h.resize_rows addressable

/-- Packed over rows that are stored themselves, with a placeholder among the values. -/
theorem byRow_of_overlapping : ∃ v : SparseVector ℚ,
    v = ⟨#[7, placeholder, -2, 0], #[2, 0, 1], true⟩ ∧ v.Consistent ∧ ByRow v ∧
    v.unpack = ⟨#[placeholder, -2, 7, 0], #[2, 0, 1], false⟩ ∧ ByRow v.unpack := by
  have consistent : Consistent (⟨#[7, placeholder, -2, 0], #[2, 0, 1], true⟩ : SparseVector ℚ) :=
    ⟨by decide, by decide, by decide +kernel, by decide +kernel⟩
  exact ⟨_, rfl, consistent, byRow_of_consistent consistent, by decide +kernel,
    byRow_of_consistent consistent.unpack⟩

end SimplexBasis.SparseVector
