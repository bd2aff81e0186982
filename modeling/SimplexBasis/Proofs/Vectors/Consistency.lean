import SimplexBasis.Proofs.Entries
import SimplexBasis.Proofs.Exact
import SimplexBasis.SparseVector

/-!
# Consistency of sparse vectors

A vector is consistent if its list names different rows below the dimension, the elements stored for
them are not zero, and all other elements are. Every operation keeps a vector consistent, except that
a zero may be added without tolerance to a row that is not stored: it would be listed as a zero.
-/

set_option linter.unusedSectionVars false

namespace SimplexBasis

variable {α : Type} [Scalar α]

/-! ### Elements of arrays -/

section Elements

variable {xs : Array α} {entries : List (Nat × α)} {rows : List Nat} {k : Nat} {x : α}

theorem size_cleared (rows : List Nat) (xs : Array α) :
    (rows.foldl (fun xs i => xs.setIfInBounds i 0) xs).size = xs.size := by
  induction rows generalizing xs with
  | nil => rfl
  | cons i rows ih => rw [List.foldl_cons, ih, Array.size_setIfInBounds]

theorem getD_cleared (rows : List Nat) (xs : Array α) (k : Nat) :
    (rows.foldl (fun xs i => xs.setIfInBounds i 0) xs).getD k 0 =
      if k ∈ rows then 0 else xs.getD k 0 := by
  induction rows generalizing xs with
  | nil => simp
  | cons i rows ih =>
    rw [List.foldl_cons, ih]
    simp only [Array.getD_eq_getD_getElem?, Array.getElem?_setIfInBounds, List.mem_cons]
    grind

theorem size_scattered (entries : List (Nat × α)) (xs : Array α) :
    (entries.foldl (fun xs (i, x) => xs.setIfInBounds i x) xs).size = xs.size := by
  induction entries generalizing xs with
  | nil => rfl
  | cons e entries ih => rw [List.foldl_cons, ih, Array.size_setIfInBounds]

theorem getD_scattered (entries : List (Nat × α)) (xs : Array α)
    (distinct : (keys entries).Nodup) (inside : ∀ i ∈ keys entries, i < xs.size) (k : Nat) :
    (entries.foldl (fun xs (i, x) => xs.setIfInBounds i x) xs).getD k 0 =
      if k ∈ keys entries then valueAt entries k else xs.getD k 0 := by
  induction entries generalizing xs with
  | nil => simp [keys]
  | cons e entries ih =>
    obtain ⟨i, x⟩ := e
    have apart : i ∉ keys entries := (List.nodup_cons.mp distinct).1
    have first : i < xs.size := inside i (by simp [keys])
    have later : ∀ j ∈ keys entries, j < (xs.setIfInBounds i x).size := fun j hj => by
      rw [Array.size_setIfInBounds]
      exact inside j (List.mem_cons_of_mem i hj)
    rw [List.foldl_cons, ih _ (List.nodup_cons.mp distinct).2 later, valueAt_cons,
      getD_setIfInBounds first]
    have listed : k ∈ keys ((i, x) :: entries) ↔ k = i ∨ k ∈ keys entries := List.mem_cons
    by_cases here : k = i
    · subst here
      rw [if_neg apart, if_pos rfl, if_pos (listed.mpr (.inl rfl)), if_pos rfl]
    · have other : i ≠ k := fun same => here same.symm
      rw [if_neg here, if_neg other]
      exact if_congr (listed.trans (or_iff_right here)).symm rfl rfl

theorem getD_overwrite_zeros {count : Nat} (fits : count ≤ xs.size) :
    (overwrite xs 0 (List.replicate count 0)).getD k 0 = if k < count then 0 else xs.getD k 0 := by
  simp only [Array.getD_eq_getD_getElem?]
  rw [getElem?_overwrite _ _ _ _ (by simpa using fits)]
  simp only [Nat.zero_le, true_and, Nat.zero_add, List.length_replicate, Nat.sub_zero]
  split
  · rename_i inside
    simp [inside]
  · rfl

theorem getD_overwrite_values {values : List α} (fits : values.length ≤ xs.size) :
    (overwrite xs 0 values).getD k 0 =
      if k < values.length then values.getD k 0 else xs.getD k 0 := by
  simp only [Array.getD_eq_getD_getElem?, List.getD_eq_getElem?_getD]
  rw [getElem?_overwrite _ _ _ _ (by simpa using fits)]
  simp only [Nat.zero_le, true_and, Nat.zero_add, Nat.sub_zero]
  split <;> rfl

end Elements

/-! ### Zeros -/

theorem bne_zero {x : α} : (x != 0) = true ↔ (x == 0) = false := by simp [bne]

/-- What the representation of vectors asks of zero and of the two bounds near it. -/
class LawfulZero (α : Type) [Scalar α] : Prop where
  zero_beq : ((0 : α) == 0) = true
  placeholder_ne : ((SparseVector.placeholder : α) == 0) = false
  tiny_ne : ∀ x : α, SparseVector.tiny ≤ Scalar.abs x → (x == 0) = false
  clean_ne : ∀ t x : α, Scalar.max t SparseVector.tiny ≤ Scalar.abs x → (x == 0) = false

theorem tiny_pos : (0 : ℚ) < SparseVector.tiny := by
  simp only [SparseVector.tiny]
  norm_num

theorem placeholder_pos : (0 : ℚ) < SparseVector.placeholder := by
  simp only [SparseVector.placeholder]
  norm_num

theorem placeholder_lt_tiny : (SparseVector.placeholder : ℚ) < SparseVector.tiny := by
  simp only [SparseVector.placeholder, SparseVector.tiny]
  norm_num

instance : LawfulZero ℚ where
  zero_beq := rfl
  placeholder_ne := by simpa using placeholder_pos.ne'
  tiny_ne x large := by
    rw [scalar_abs] at large
    simpa using abs_pos.mp (tiny_pos.trans_le large)
  clean_ne t x large := by
    rw [scalar_abs, scalar_max] at large
    simpa using abs_pos.mp (tiny_pos.trans_le ((le_max_right t _).trans large))

namespace SparseVector

/-! ### The invariant -/

def places (v : SparseVector α) : List Nat :=
  if v.packed then List.range v.count else v.indices.toList

/-- The list names different rows below the dimension, and the elements that are not zero are those
stored for them. -/
structure Consistent (v : SparseVector α) : Prop where
  distinct : v.indices.toList.Nodup
  inside : ∀ i ∈ v.indices, i < v.dimension
  stored : ∀ k ∈ v.places, (v.elements.getD k 0 == 0) = false
  vacant : ∀ k < v.dimension, k ∉ v.places → (v.elements.getD k 0 == 0) = true

section Consistent

variable {v w : SparseVector α} {i k : Nat} {x : α}

theorem places_unpacked (mode : v.packed = false) : v.places = v.indices.toList := by
  simp [places, mode]

theorem places_packed (mode : v.packed = true) : v.places = List.range v.count := by
  simp [places, mode]

variable [LawfulZero α]

theorem getD_behind (behind : v.dimension ≤ k) : (v.elements.getD k 0 == 0) = true := by
  have size : v.elements.size ≤ k := behind
  rw [Array.getD_eq_getD_getElem?, Array.getElem?_eq_none size]
  exact LawfulZero.zero_beq

namespace Consistent

theorem place_lt (h : v.Consistent) (place : k ∈ v.places) : k < v.dimension := by
  by_contra behind
  have zero := getD_behind (Nat.le_of_not_lt behind)
  rw [h.stored k place] at zero
  cases zero

theorem mem_places (h : v.Consistent) : k ∈ v.places ↔ (v.elements.getD k 0 == 0) = false := by
  refine ⟨h.stored k, fun nonzero => ?_⟩
  by_contra free
  have inside : k < v.dimension := by
    by_contra behind
    rw [getD_behind (Nat.le_of_not_lt behind)] at nonzero
    cases nonzero
  rw [h.vacant k inside free] at nonzero
  cases nonzero

theorem count_le (h : v.Consistent) : v.count ≤ v.dimension := by
  have sub : v.indices.toList ⊆ List.range v.dimension := fun i hi =>
    List.mem_range.mpr (h.inside i (Array.mem_toList_iff.mp hi))
  simpa [count] using (h.distinct.subperm sub).length_le

theorem empty (n : Nat) : (SparseVector.empty n : SparseVector α).Consistent where
  distinct := by simp [SparseVector.empty]
  inside := by simp [SparseVector.empty]
  stored := by simp [SparseVector.empty, places]
  vacant k inside _ := by
    have bound : k < n := by simpa [SparseVector.empty, dimension] using inside
    simp [SparseVector.empty, bound, LawfulZero.zero_beq]

theorem refill (h : v.Consistent) (place : k ∈ v.places) (nonzero : (x == 0) = false) :
    { v with elements := v.elements.setIfInBounds k x }.Consistent := by
  have bound : k < v.elements.size := h.place_lt place
  constructor
  · exact h.distinct
  · simpa [dimension] using h.inside
  · intro l hl
    rw [getD_setIfInBounds bound]
    split
    · exact nonzero
    · exact h.stored l hl
  · intro l hl free
    have other : l ≠ k := by
      rintro rfl
      exact free place
    rw [getD_setIfInBounds bound, if_neg other]
    exact h.vacant l (by simpa [dimension] using hl) free

theorem append (h : v.Consistent) (fresh : i ∉ v.indices) (bound : i < v.dimension)
    (place : (if v.packed then v.count else i) = k) (inside : k < v.dimension)
    (nonzero : (x == 0) = false) :
    { v with elements := v.elements.setIfInBounds k x, indices := v.indices.push i }.Consistent := by
  have places' : places { v with
      elements := v.elements.setIfInBounds k x
      indices := v.indices.push i } = v.places ++ [k] := by
    subst place
    cases mode : v.packed <;> simp [places, mode, count, List.range_succ]
  have size : k < v.elements.size := inside
  constructor
  · simp only [Array.toList_push]
    exact List.nodup_append'.mpr ⟨h.distinct, List.nodup_singleton i, by simpa using fresh⟩
  · intro j hj
    rcases Array.mem_push.mp hj with old | rfl
    · simpa [dimension] using h.inside j old
    · simpa [dimension] using bound
  · intro l hl
    rw [getD_setIfInBounds size]
    rw [places', List.mem_append, List.mem_singleton] at hl
    split
    · exact nonzero
    · rename_i other
      exact h.stored l (hl.resolve_right other)
  · intro l hl free
    rw [places', List.mem_append, List.mem_singleton, not_or] at free
    rw [getD_setIfInBounds size, if_neg free.2]
    exact h.vacant l (by simpa [dimension] using hl) free.1

end Consistent

/-! ### The check -/

theorem marks?_eq_some {entries : List (Nat × α)} {seen : Array Bool}
    (distinct : (keys entries).Nodup)
    (fresh : ∀ i ∈ keys entries, i < seen.size ∧ seen.getD i true = false)
    (nonzero : ∀ e ∈ entries, (e.2 == 0) = false) :
    ∃ marks, marks? entries seen = some marks ∧ marks.size = seen.size ∧
      (∀ i ∈ keys entries, marks.getD i false = true) ∧
      ∀ i, seen.getD i false = true → marks.getD i false = true := by
  induction entries generalizing seen with
  | nil => exact ⟨seen, rfl, rfl, by simp [keys], fun _ => id⟩
  | cons e entries ih =>
    obtain ⟨i, x⟩ := e
    obtain ⟨apart, rest⟩ := List.nodup_cons.mp distinct
    obtain ⟨bound, unseen⟩ := fresh i (by simp [keys])
    have marked : ∀ j ∈ keys entries, j < (seen.setIfInBounds i true).size ∧
        (seen.setIfInBounds i true).getD j true = false := fun j hj => by
      have other : j ≠ i := fun same => apart (same ▸ hj)
      rw [Array.size_setIfInBounds, getD_setIfInBounds bound, if_neg other]
      exact fresh j (List.mem_cons_of_mem i hj)
    obtain ⟨marks, run, size, all, kept⟩ := ih rest marked fun e he =>
      nonzero e (List.mem_cons_of_mem _ he)
    have filled : (x == 0) = false := nonzero (i, x) List.mem_cons_self
    refine ⟨marks, ?_, size.trans Array.size_setIfInBounds, fun j hj => ?_, fun j hj => ?_⟩
    · simpa [marks?, unseen, filled] using run
    · rcases List.mem_cons.mp hj with rfl | later
      · exact kept j (by rw [getD_setIfInBounds bound, if_pos rfl])
      · exact all j later
    · refine kept j ?_
      rw [getD_setIfInBounds bound]
      split
      · rfl
      · exact hj

theorem keys_entries (fits : v.packed = true → v.count ≤ v.dimension) :
    keys v.entries = v.indices.toList := by
  unfold entries keys
  split
  · rename_i mode
    exact List.map_fst_zip (by simpa [count, dimension] using fits mode)
  · simp [Function.comp_def]

theorem mem_entries_unpacked (mode : v.packed = false) :
    (i, x) ∈ v.entries ↔ i ∈ v.indices ∧ v.elements.getD i 0 = x := by
  simp [entries, mode]

theorem values_packed (mode : v.packed = true) (fits : v.count ≤ v.dimension) :
    v.entries.map Prod.snd = v.elements.toList.take v.count := by
  have enough : v.indices.toList.length ≤ v.elements.toList.length := by
    simpa [count, dimension] using fits
  simp only [entries, mode, if_true]
  rw [List.zip_eq_zip_take_min, Nat.min_eq_left enough, List.map_snd_zip (by simp)]
  rfl

namespace Consistent

theorem keys_entries (h : v.Consistent) : keys v.entries = v.indices.toList :=
  SparseVector.keys_entries fun _ => h.count_le

theorem entries_ne_zero (h : v.Consistent) {e : Nat × α} (member : e ∈ v.entries) :
    (e.2 == 0) = false := by
  obtain ⟨i, x⟩ := e
  cases mode : v.packed with
  | false =>
    obtain ⟨listed, rfl⟩ := (mem_entries_unpacked mode).mp member
    exact h.stored i (by simpa [places_unpacked mode] using listed)
  | true =>
    have value : x ∈ v.elements.toList.take v.count :=
      values_packed mode h.count_le ▸ List.mem_map_of_mem member
    obtain ⟨k, inside, rfl⟩ := List.mem_iff_getElem.mp value
    rw [List.length_take, Array.length_toList] at inside
    have place : k ∈ v.places := by
      rw [places_packed mode, List.mem_range]
      omega
    have filled := h.stored k place
    rw [Array.getD_eq_getD_getElem?, Array.getElem?_eq_getElem (by omega)] at filled
    simpa using filled

theorem isConsistent (h : v.Consistent) : v.isConsistent = true := by
  obtain ⟨marks, run, size, all, -⟩ := @marks?_eq_some _ _ _ v.entries
    (Array.replicate v.dimension false) (by rw [h.keys_entries]; exact h.distinct)
    (fun i hi => by
      rw [h.keys_entries, Array.mem_toList_iff] at hi
      simp [h.inside i hi]) fun e he => h.entries_ne_zero he
  unfold SparseVector.isConsistent
  rw [run]
  cases mode : v.packed with
  | false =>
    simp only [Bool.false_eq_true, if_false, List.all_eq_true, List.mem_range, Bool.or_eq_true]
    intro i bound
    by_cases listed : i ∈ v.indices
    · exact .inl (all i (by rwa [h.keys_entries, Array.mem_toList_iff]))
    · exact .inr (h.vacant i bound (by simpa [places_unpacked mode] using listed))
  | true =>
    simp only [if_true, List.all_eq_true]
    intro x behind
    obtain ⟨k, inside, rfl⟩ := List.mem_iff_getElem.mp behind
    rw [List.length_drop, Array.length_toList] at inside
    have free : v.count + k ∉ v.places := by simp [places_packed mode]
    have empty := h.vacant (v.count + k) (by unfold dimension; omega) free
    rw [Array.getD_eq_getD_getElem?, Array.getElem?_eq_getElem (by omega)] at empty
    simpa using empty

end Consistent

end Consistent

end SparseVector

end SimplexBasis
