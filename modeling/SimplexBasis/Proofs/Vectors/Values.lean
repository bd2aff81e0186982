import SimplexBasis.Proofs.Vectors.Operations

/-!
# Values

The values of a consistent vector by row, and what packing and cleaning make of them.
-/

set_option linter.unusedSectionVars false

namespace SimplexBasis

/-- A value, or zero if its magnitude is below a bound. -/
def cutBelow (bound x : ℚ) : ℚ := if bound ≤ |x| then x else 0

theorem cutBelow_zero : cutBelow 0 = id := funext fun x => if_pos (abs_nonneg x)

/-- A value as it comes out of cleaning: zero if it is small. -/
def kept (tolerance x : ℚ) : ℚ := if max tolerance SparseVector.tiny ≤ |x| then x else 0

theorem kept_zero (tolerance : ℚ) : kept tolerance 0 = 0 := ite_self 0

theorem kept_of_large {tolerance x : ℚ} (large : x = 0 ∨ max tolerance SparseVector.tiny ≤ |x|) :
    kept tolerance x = x := by
  rcases large with rfl | large
  · exact kept_zero tolerance
  · exact if_pos large

namespace SparseVector

variable {v : SparseVector ℚ} {i : Nat}

/-- The value at each row. -/
def valueOf (v : SparseVector ℚ) (i : Nat) : ℚ := valueAt v.entries i

def atRows (v : SparseVector ℚ) (n : Nat) : Fin n → ℚ := fun i => v.valueOf i

/-- A solution as it is answered: with what is kept of its values, in the mode of the right-hand
side. -/
structure Answers (x v : SparseVector ℚ) (keep : ℚ → ℚ) {n : Nat} (z : Fin n → ℚ) : Prop where
  consistent : x.Consistent
  mode : x.packed = v.packed
  dimension : x.dimension = n
  values : ∀ i : Fin n, x.valueOf i = keep (z i)

namespace Consistent

theorem covers (h : v.Consistent) (mode : v.packed = false) (nonzero : v.elements.getD i 0 ≠ 0) :
    i ∈ v.indices := by
  have member := h.mem_places.mpr (beq_eq_false_iff_ne.mpr nonzero)
  rwa [places_unpacked mode, Array.mem_toList_iff] at member

theorem valueOf_unpacked (h : v.Consistent) (mode : v.packed = false) (i : Nat) :
    v.valueOf i = v.elements.getD i 0 := by
  unfold valueOf
  by_cases member : i ∈ v.indices
  · exact valueAt_of_mem h.nodup_keys ((mem_entries_unpacked mode).mpr ⟨member, rfl⟩)
  · rw [valueAt_of_not_mem fun key => member (by
      rwa [h.keys_entries, Array.mem_toList_iff] at key)]
    by_contra other
    exact member (h.covers mode (Ne.symm other))

theorem valueOf_unpack (h : v.Consistent) (i : Nat) :
    v.valueOf i = v.unpack.elements.getD i 0 := by
  cases mode : v.packed with
  | false =>
    rw [show v.unpack = v by simp [SparseVector.unpack, mode]]
    exact h.valueOf_unpacked mode i
  | true =>
    have listed : i ∈ v.indices ↔ i ∈ keys v.entries := by
      rw [h.keys_entries, Array.mem_toList_iff]
    by_cases member : i ∈ v.indices
    · rw [h.getD_unpack mode, if_pos member]
      rfl
    · rw [valueOf, valueAt_of_not_mem fun key => member (listed.mpr key)]
      by_contra other
      have covered := h.unpack.covers (packed_unpack v) (Ne.symm other)
      rw [indices_unpack] at covered
      exact member covered

theorem valueOf_behind (h : v.Consistent) (behind : v.dimension ≤ i) : v.valueOf i = 0 :=
  valueAt_of_not_mem fun key => Nat.not_le.mpr (h.keys_lt i key) behind

theorem count_eq (h : v.Consistent) :
    v.count = ((List.range v.dimension).filter fun i => v.valueOf i != 0).length := by
  have perm : v.indices.toList.Perm ((List.range v.dimension).filter fun i => v.valueOf i != 0) := by
    refine (List.perm_ext_iff_of_nodup h.distinct (List.nodup_range.filter _)).mpr fun i => ?_
    rw [List.mem_filter, List.mem_range, bne_iff_ne, ← h.keys_entries]
    refine ⟨fun member => ⟨h.keys_lt i member, beq_eq_false_iff_ne.mp (h.valueAt_ne_zero member)⟩,
      fun value => ?_⟩
    by_contra out
    exact value.2 (valueAt_of_not_mem out)
  exact perm.length_eq

theorem get_eq (h : v.Consistent) (hi : i < v.dimension) : v.get i = .ok (v.valueOf i) := by
  unfold SparseVector.get
  cases mode : v.packed with
  | false =>
    rw [if_neg (by simp), entry_getD 0 hi, h.valueOf_unpacked mode]
  | true =>
    rw [if_pos rfl]
    cases found : v.indices.findIdx? (· == i) with
    | none =>
      have absent : i ∉ v.indices := fun member => by
        have := Array.findIdx?_eq_none_iff.mp found i member
        simp at this
      rw [valueOf, valueAt_of_not_mem fun key => absent (by
        rwa [h.keys_entries, Array.mem_toList_iff] at key)]
    | some k =>
      obtain ⟨inside, same, -⟩ := Array.findIdx?_eq_some_iff_getElem.mp found
      have within : k < v.elements.size := Nat.lt_of_lt_of_le inside h.count_le
      have member : (v.indices[k], v.elements[k]) ∈ v.entries := by
        unfold entries
        rw [if_pos mode, List.mem_iff_getElem]
        exact ⟨k, by simpa using ⟨inside, within⟩, by simp⟩
      rw [← beq_iff_eq.mp same, valueOf, valueAt_of_mem h.nodup_keys member]
      exact entry_eq_ok_iff.mpr (Array.getElem?_eq_getElem within)

theorem getD_toDense (h : v.Consistent) (i : Nat) : v.toDense.getD i 0 = v.valueOf i := by
  unfold toDense valueOf
  rw [getD_scattered _ _ h.nodup_keys fun i key => by
    rw [Array.size_replicate]
    exact h.keys_lt i key]
  split
  · rfl
  · rw [valueAt_of_not_mem ‹_›]
    simp [Array.getD]

theorem valueOf_clean (h : v.Consistent) (tolerance : ℚ) (i : Nat) :
    (v.clean tolerance).valueOf i = kept tolerance (v.valueOf i) := by
  have entries := (h.clean tolerance).2.2.2
  simp only [scalar_max, scalar_abs] at entries
  unfold valueOf kept
  rw [entries]
  by_cases member : i ∈ keys v.entries
  · obtain ⟨⟨i, x⟩, here, rfl⟩ := List.mem_map.mp member
    rw [valueAt_of_mem h.nodup_keys here]
    split
    · rename_i large
      exact valueAt_of_mem (nodup_keys_filter h.nodup_keys _)
        (List.mem_filter.mpr ⟨here, decide_eq_true large⟩)
    · rename_i small
      refine valueAt_of_not_mem fun key => small ?_
      obtain ⟨⟨j, y⟩, there, same⟩ := List.mem_map.mp key
      obtain ⟨there, large⟩ := List.mem_filter.mp there
      have value := valueAt_of_mem h.nodup_keys there
      rw [show j = i from same, valueAt_of_mem h.nodup_keys here] at value
      rw [value]
      exact of_decide_eq_true large
  · rw [valueAt_of_not_mem member, if_neg]
    · refine valueAt_of_not_mem fun key => member ?_
      exact (List.filter_sublist.map Prod.fst).subset key
    · rw [abs_zero, not_le]
      exact lt_max_of_lt_right tiny_pos

end Consistent

theorem size_toDense (v : SparseVector ℚ) : v.toDense.size = v.dimension := by
  rw [toDense, size_scattered, Array.size_replicate]

theorem valueOf_scanned (tolerance : ℚ) (xs : Array ℚ) (i : Nat) :
    (scanned tolerance xs).valueOf i = cutBelow tolerance (xs.getD i 0) := by
  obtain ⟨mode, -, values⟩ := scanned_spec tolerance xs
  rw [(Consistent.scanned tolerance xs).valueOf_unpacked mode, values, scalar_abs, cutBelow]
  by_cases large : tolerance ≤ |xs.getD i 0|
  · rw [if_neg (by tauto), if_pos large]
  · rw [if_neg large]
    split
    · rfl
    · rename_i zero
      rw [bne_iff_ne] at zero
      tauto

theorem Answers.same {x x' v v' : SparseVector ℚ} {keep : ℚ → ℚ} {n : Nat} {z : Fin n → ℚ}
    (h : x.Answers v keep z) (h' : x'.Answers v' keep z) (i : Nat) :
    x.valueOf i = x'.valueOf i := by
  by_cases inside : i < n
  · exact (h.values ⟨i, inside⟩).trans (h'.values ⟨i, inside⟩).symm
  · rw [h.consistent.valueOf_behind (by rw [h.dimension]; omega),
      h'.consistent.valueOf_behind (by rw [h'.dimension]; omega)]

theorem Answers.count {x x' v v' : SparseVector ℚ} {keep : ℚ → ℚ} {n : Nat} {z : Fin n → ℚ}
    (h : x.Answers v keep z) (h' : x'.Answers v' keep z) : x.count = x'.count := by
  rw [h.consistent.count_eq, h'.consistent.count_eq, h.dimension, h'.dimension]
  simp only [h.same h']

end SparseVector

end SimplexBasis
