import SimplexBasis.Proofs.Vectors.Consistency

/-!
# Operations on sparse vectors

Vectors are built empty, from the values of all rows or from entries, and changed by operations on
single rows and on the whole. What is reached in this way is consistent in both modes, as long as no
zero is added without tolerance to a row that is not stored.
-/

set_option linter.unusedSectionVars false

namespace SimplexBasis.SparseVector

variable {α : Type} [Scalar α] [LawfulZero α] {v w : SparseVector α} {i k : Nat} {x : α}

/-! ### Single rows -/

theorem stored_ne (x : α) : (stored x == 0) = false := by
  unfold stored
  split
  · exact LawfulZero.placeholder_ne
  · simpa using ‹¬(x == 0) = true›

namespace Consistent

theorem set (h : v.Consistent) (run : v.set i x = .ok w) : w.Consistent := by
  unfold SparseVector.set at run
  split at run
  · cases run
  rename_i within
  have bound : i < v.dimension := Nat.lt_of_not_le within
  split at run
  · rename_i mode
    split at run
    · rename_i k found
      obtain ⟨elements, written, same⟩ := except_bind_eq_ok.mp run
      obtain ⟨-, rfl⟩ := withEntry_eq_ok_iff.mp written
      cases same
      have place : k ∈ v.places := by
        rw [places_packed mode, List.mem_range]
        exact (Array.findIdx?_eq_some_iff_getElem.mp found).1
      exact h.refill place (stored_ne x)
    · rename_i missing
      split at run
      · rename_i nonzero
        obtain ⟨elements, written, same⟩ := except_bind_eq_ok.mp run
        obtain ⟨inside, rfl⟩ := withEntry_eq_ok_iff.mp written
        cases same
        have fresh : i ∉ v.indices := fun member => by
          simpa using Array.findIdx?_eq_none_iff.mp missing i member
        exact h.append fresh bound (by simp [mode]) inside (bne_zero.mp nonzero)
      · cases run
        exact h
  · rename_i mode
    have unpacked : v.packed = false := by simpa using mode
    split at run
    · rename_i filled
      cases run
      exact h.refill (h.mem_places.mpr (bne_zero.mp filled)) (stored_ne x)
    · rename_i vacant
      split at run
      · rename_i nonzero
        cases run
        have fresh : i ∉ v.indices := fun member => by
          have filled := h.stored i (by simpa [places_unpacked unpacked] using member)
          exact vacant (bne_zero.mpr filled)
        exact h.append fresh bound (by simp [unpacked]) bound (bne_zero.mp nonzero)
      · cases run
        exact h

theorem append_row (h : v.Consistent) (unpacked : v.packed = false) (bound : i < v.dimension)
    (vacant : (v.elements.getD i 0 == 0) = true) (nonzero : (x == 0) = false) :
    { v with elements := v.elements.setIfInBounds i x, indices := v.indices.push i }.Consistent := by
  refine h.append (fun member => ?_) bound (by simp [unpacked]) bound nonzero
  have filled := h.stored i (by simpa [places_unpacked unpacked] using member)
  rw [filled] at vacant
  cases vacant

theorem store (h : v.Consistent) (unpacked : v.packed = false) (bound : i < v.dimension)
    (nonzero : (x == 0) = false) :
    { v with
      elements := v.elements.setIfInBounds i x
      indices := if v.elements.getD i 0 == 0 then v.indices.push i else v.indices }.Consistent := by
  by_cases vacant : (v.elements.getD i 0 == 0) = true
  · rw [if_pos vacant]
    exact h.append_row unpacked bound vacant nonzero
  · rw [if_neg vacant]
    exact h.refill (h.mem_places.mpr (Bool.not_eq_true _ ▸ vacant)) nonzero

theorem insert (h : v.Consistent) (run : v.insert i x = .ok w) : w.Consistent := by
  unfold SparseVector.insert at run
  split at run
  · cases run
  rename_i mode
  obtain ⟨y, read, run⟩ := except_bind_eq_ok.mp run
  obtain ⟨bound, value⟩ := getD_of_entry 0 read
  split at run
  · rename_i vacant
    cases run
    exact h.append_row (by simpa using mode) bound (value ▸ vacant) (stored_ne x)
  · cases run

theorem add (h : v.Consistent) (run : v.add i x = .ok w) : w.Consistent := by
  unfold SparseVector.add at run
  split at run
  · cases run
  rename_i mode
  have unpacked : v.packed = false := by simpa using mode
  obtain ⟨old, read, run⟩ := except_bind_eq_ok.mp run
  obtain ⟨bound, value⟩ := getD_of_entry 0 read
  split at run
  · rename_i filled
    cases run
    refine h.refill (h.mem_places.mpr (value ▸ bne_zero.mp filled)) ?_
    split
    · exact LawfulZero.tiny_ne _ ‹_›
    · exact LawfulZero.placeholder_ne
  · rename_i vacant
    split at run
    · rename_i large
      cases run
      have empty : (old == 0) = true := by simpa [bne] using vacant
      exact h.append_row unpacked bound (value ▸ empty) (LawfulZero.tiny_ne x large)
    · cases run
      exact h

theorem addRaw (h : v.Consistent) (nonzero : (x == 0) = false ∨ i ∈ v.indices)
    (run : v.addRaw i x = .ok w) : w.Consistent := by
  unfold SparseVector.addRaw at run
  split at run
  · cases run
  rename_i mode
  have unpacked : v.packed = false := by simpa using mode
  obtain ⟨old, read, run⟩ := except_bind_eq_ok.mp run
  obtain ⟨bound, value⟩ := getD_of_entry 0 read
  split at run
  · rename_i vacant
    cases run
    refine h.append_row unpacked bound (value ▸ vacant) (nonzero.resolve_right fun listed => ?_)
    have filled := h.stored i (by simpa [places_unpacked unpacked] using listed)
    rw [value, vacant] at filled
    cases filled
  · rename_i filled
    cases run
    have nonzero : (old == 0) = false := by simpa using filled
    exact h.refill (h.mem_places.mpr (value ▸ nonzero)) (stored_ne _)

end Consistent

/-! ### The whole vector -/

theorem consistent_packed {elements : Array α} {entries : List (Nat × α)}
    (distinct : (keys entries).Nodup) (inside : ∀ i ∈ keys entries, i < elements.size)
    (nonzero : ∀ e ∈ entries, (e.2 == 0) = false)
    (front : ∀ k < entries.length, elements.getD k 0 = (entries.map Prod.snd).getD k 0)
    (behind : ∀ k, entries.length ≤ k → (elements.getD k 0 == 0) = true) :
    Consistent ⟨elements, (entries.map Prod.fst).toArray, true⟩ where
  distinct := distinct
  inside i hi := inside i (by simpa [keys] using hi)
  stored k hk := by
    have bound : k < entries.length := by simpa [places, count] using hk
    rw [front k bound]
    have read : (entries.map Prod.snd).getD k 0 = entries[k].2 := by simp [bound]
    rw [read]
    exact nonzero _ (List.getElem_mem bound)
  vacant k _ free := behind k (by simpa [places, count] using free)

theorem entries_packed {elements : Array α} {entries : List (Nat × α)}
    (fits : entries.length ≤ elements.size)
    (front : ∀ k < entries.length, elements.getD k 0 = (entries.map Prod.snd).getD k 0) :
    SparseVector.entries ⟨elements, (entries.map Prod.fst).toArray, true⟩ = entries := by
  refine List.ext_getElem (by simp [SparseVector.entries, fits]) fun k _ hk => ?_
  have bound : k < elements.size := hk.trans_le fits
  have value := front k hk
  simp only [Array.getD_eq_getD_getElem?, List.getD_eq_getElem?_getD, List.getElem?_map] at value
  rw [Array.getElem?_eq_getElem bound, List.getElem?_eq_getElem hk] at value
  simp only [SparseVector.entries, if_true, List.getElem_zip, List.getElem_map,
    Array.getElem_toList]
  exact Prod.ext rfl value

theorem entries_unpacked (elements : Array α) (entries : List (Nat × α)) :
    SparseVector.entries ⟨elements, (entries.map Prod.fst).toArray, false⟩ =
      entries.map fun e => (e.1, elements.getD e.1 0) := by
  simp [SparseVector.entries]

def scanned (tolerance : α) (values : Array α) : SparseVector α :=
  (List.range values.size).foldl (scanRow tolerance) ⟨values, #[], false⟩

/-- A row that is scanned keeps its value, unless that is small. -/
theorem scanRow_spec (tolerance : α) (v : SparseVector α) (i : Nat) :
    (v.scanRow tolerance i).packed = v.packed ∧
      (v.scanRow tolerance i).elements.size = v.elements.size ∧
      ∀ k, (v.scanRow tolerance i).elements.getD k 0 =
        if k = i ∧ v.elements.getD i 0 != 0 ∧ ¬tolerance ≤ Scalar.abs (v.elements.getD i 0) then 0
        else v.elements.getD k 0 := by
  unfold scanRow
  dsimp only
  split
  · rename_i filled
    split
    · exact ⟨rfl, rfl, fun k => by rw [if_neg (by tauto)]⟩
    · refine ⟨rfl, Array.size_setIfInBounds, fun k => ?_⟩
      by_cases bound : i < v.elements.size
      · rw [getD_setIfInBounds bound]
        exact if_congr (by tauto) rfl rfl
      · simp only [Array.getD_eq_getD_getElem?, Array.getElem?_setIfInBounds]
        grind
  · exact ⟨rfl, rfl, fun k => by rw [if_neg (by tauto)]⟩

theorem scanned_spec (tolerance : α) (xs : Array α) : (scanned tolerance xs).packed = false ∧
    (scanned tolerance xs).elements.size = xs.size ∧
    ∀ k, (scanned tolerance xs).elements.getD k 0 =
      if xs.getD k 0 != 0 ∧ ¬tolerance ≤ Scalar.abs (xs.getD k 0) then 0 else xs.getD k 0 := by
  have done := foldl_invariant (f := scanRow tolerance) (l := List.range xs.size)
    (y := ⟨xs, #[], false⟩) (fun done (v : SparseVector α) => v.packed = false ∧
      v.elements.size = xs.size ∧ ∀ k, v.elements.getD k 0 =
        if k < done.length ∧ xs.getD k 0 != 0 ∧ ¬tolerance ≤ Scalar.abs (xs.getD k 0) then 0
        else xs.getD k 0)
    ⟨rfl, rfl, fun k => by simp⟩ (by
      rintro done i rest v split ⟨mode, size, values⟩
      obtain ⟨rfl, -⟩ := range_split split
      obtain ⟨mode', size', values'⟩ := scanRow_spec tolerance v done.length
      have here : v.elements.getD done.length 0 = xs.getD done.length 0 := by
        rw [values, if_neg (by omega)]
      refine ⟨mode'.trans mode, size'.trans size, fun k => ?_⟩
      rw [values', here, List.length_append, List.length_singleton]
      by_cases same : k = done.length
      · subst same
        rw [here]
        exact if_congr (by simp) rfl rfl
      · rw [if_neg (by tauto), values]
        exact if_congr (and_congr_left' (by omega)) rfl rfl)
  rw [List.length_range] at done
  refine ⟨done.1, done.2.1, fun k => ?_⟩
  refine (done.2.2 k).trans ?_
  by_cases bound : k < xs.size
  · exact if_congr (and_iff_right bound) rfl rfl
  · rw [if_neg (by tauto), Array.getD_eq_getD_getElem?, Array.getElem?_eq_none (by omega)]
    simp

/-- Scanned from the first row to the last, a vector lists what its elements say, whatever it has
listed before. -/
theorem scan_all {xs : Array α} {indices : Array Nat} (inside : ∀ i ∈ indices, i < xs.size)
    (tolerance : α) : (⟨xs, indices, false⟩ : SparseVector α).scan 0 xs.size tolerance =
      .ok (scanned tolerance xs, (scanned tolerance xs).count) := by
  have none_ : indices.filter (fun i => i < 0 || xs.size ≤ i) = #[] := by
    rw [Array.filter_eq_empty_iff]
    intro i member
    simpa using inside i member
  unfold scan
  dsimp only [dimension]
  rw [if_neg (by simp), Nat.min_self, Nat.zero_min, none_, Nat.sub_zero, ← List.range_eq_range']
  rfl

namespace Consistent

theorem length_entries (h : v.Consistent) : v.entries.length = v.count := by
  have length := congrArg List.length h.keys_entries
  simpa [keys, count] using length

theorem keys_lt (h : v.Consistent) : ∀ i ∈ keys v.entries, i < v.dimension := by
  intro i hi
  rw [h.keys_entries, Array.mem_toList_iff] at hi
  exact h.inside i hi

theorem nodup_keys (h : v.Consistent) : (keys v.entries).Nodup := by
  rw [h.keys_entries]
  exact h.distinct

theorem valueAt_ne_zero (h : v.Consistent) (member : i ∈ keys v.entries) :
    (valueAt v.entries i == 0) = false := by
  obtain ⟨⟨j, x⟩, here, rfl⟩ := List.mem_map.mp member
  rw [valueAt_of_mem h.nodup_keys here]
  exact h.entries_ne_zero here

/-! #### Modes -/

theorem getD_unpack (h : v.Consistent) (mode : v.packed = true) (k : Nat) :
    v.unpack.elements.getD k 0 = if k ∈ v.indices then valueAt v.entries k
      else if k < v.count then 0 else v.elements.getD k 0 := by
  unfold SparseVector.unpack
  simp only [mode, if_true]
  rw [getD_scattered _ _ h.nodup_keys (by simpa [dimension] using h.keys_lt),
    getD_overwrite_zeros h.count_le, h.keys_entries]
  simp only [Array.mem_toList_iff]

theorem dimension_unpack (v : SparseVector α) : v.unpack.dimension = v.dimension := by
  unfold SparseVector.unpack
  split
  · simp only [dimension]
    rw [size_scattered, size_overwrite]
  · rfl

theorem packed_unpack (v : SparseVector α) : v.unpack.packed = false := by
  unfold SparseVector.unpack
  split
  · rfl
  · simpa using ‹¬v.packed = true›

theorem indices_unpack (v : SparseVector α) : v.unpack.indices = v.indices := by
  unfold SparseVector.unpack
  split <;> rfl

theorem unpack (h : v.Consistent) : v.unpack.Consistent := by
  cases mode : v.packed with
  | false => simpa [SparseVector.unpack, mode] using h
  | true =>
    have listed : v.unpack.places = v.indices.toList := by
      rw [places_unpacked (packed_unpack v), indices_unpack]
    constructor
    · rw [indices_unpack]
      exact h.distinct
    · rw [indices_unpack, dimension_unpack]
      exact h.inside
    · intro i hi
      rw [listed, Array.mem_toList_iff] at hi
      rw [h.getD_unpack mode, if_pos hi]
      exact h.valueAt_ne_zero (by rwa [h.keys_entries, Array.mem_toList_iff])
    · intro i bound free
      rw [listed, Array.mem_toList_iff] at free
      rw [h.getD_unpack mode, if_neg free]
      split
      · exact LawfulZero.zero_beq
      · rename_i behind
        rw [dimension_unpack] at bound
        exact h.vacant i bound (by simpa [places_packed mode] using behind)

theorem pack (h : v.Consistent) : ∃ w, v.pack = .ok w ∧ w.Consistent ∧ w.packed = true ∧
    w.dimension = v.dimension ∧ w.entries = v.entries := by
  unfold SparseVector.pack
  split
  · rename_i mode
    exact ⟨v, rfl, h, mode, rfl, rfl⟩
  rename_i mode
  have unpacked : v.packed = false := by simpa using mode
  rw [if_neg (Nat.not_lt.mpr h.count_le)]
  have rows : v.indices = (v.entries.map Prod.fst).toArray := by
    rw [← v.indices.toArray_toList, ← h.keys_entries]
  have cleared (k : Nat) : ((v.indices.foldl (fun xs i => xs.setIfInBounds i 0)
      v.elements).getD k 0 == 0) = true := by
    rw [← Array.foldl_toList, getD_cleared]
    split
    · exact LawfulZero.zero_beq
    · rename_i free
      by_cases bound : k < v.dimension
      · exact h.vacant k bound (by rwa [places_unpacked unpacked])
      · exact getD_behind (Nat.le_of_not_lt bound)
  have size : (v.indices.foldl (fun xs i => xs.setIfInBounds i 0) v.elements).size =
      v.dimension := by
    rw [← Array.foldl_toList, size_cleared]
    rfl
  have fits : (v.entries.map Prod.snd).length ≤ v.dimension := by
    rw [List.length_map, h.length_entries]
    exact h.count_le
  have front : ∀ k < v.entries.length,
      (overwrite (v.indices.foldl (fun xs i => xs.setIfInBounds i 0) v.elements) 0
        (v.entries.map Prod.snd)).getD k 0 = (v.entries.map Prod.snd).getD k 0 := fun k hk => by
    rw [getD_overwrite_values (size ▸ fits), if_pos (by simpa using hk)]
  have packed := consistent_packed h.nodup_keys
    (by rw [size_overwrite, size]; exact h.keys_lt) (fun e => h.entries_ne_zero) front
    (fun k hk => by
      rw [getD_overwrite_values (size ▸ fits), if_neg (by simpa using hk)]
      exact cleared k)
  have same := entries_packed (by simpa [size] using fits) front
  rw [← rows] at packed same
  exact ⟨_, rfl, packed, rfl, by simp [dimension, size], same⟩

theorem setPacked (h : v.Consistent) {mode : Bool} (run : v.setPacked mode = .ok w) :
    w.Consistent := by
  unfold SparseVector.setPacked at run
  split at run
  · obtain ⟨u, packed, consistent, -⟩ := h.pack
    cases packed.symm.trans run
    exact consistent
  · cases run
    exact h.unpack

/-! #### All entries -/

theorem clear (h : v.Consistent) : v.clear.Consistent := by
  have zeros : ∀ k, (v.clear.elements.getD k 0 == 0) = true := by
    intro k
    unfold SparseVector.clear
    dsimp only
    split
    · rename_i mode
      rw [getD_overwrite_zeros h.count_le]
      split
      · exact LawfulZero.zero_beq
      · rename_i behind
        by_cases bound : k < v.dimension
        · exact h.vacant k bound (by simpa [places_packed mode] using behind)
        · exact getD_behind (Nat.le_of_not_lt bound)
    · rename_i mode
      split
      · rw [← Array.foldl_toList, getD_cleared]
        split
        · exact LawfulZero.zero_beq
        · rename_i free
          by_cases bound : k < v.dimension
          · exact h.vacant k bound (by rwa [places_unpacked (by simpa using mode)])
          · exact getD_behind (Nat.le_of_not_lt bound)
      · have empty : (Array.replicate v.dimension (0 : α)).getD k 0 = 0 := by
          rw [Array.getD_eq_getD_getElem?, Array.getElem?_replicate]
          split <;> rfl
        rw [empty]
        exact LawfulZero.zero_beq
  have none : v.clear.places = [] := by
    unfold places
    split <;> simp [SparseVector.clear, count]
  constructor
  · simp [SparseVector.clear]
  · simp [SparseVector.clear]
  · simp [none]
  · exact fun k _ _ => zeros k

theorem foldl_clearing (p : α → Prop) [DecidablePred p] (entries : List (Nat × α))
    (xs : Array α) :
    entries.foldl (fun xs (i, x) => if p x then xs else xs.setIfInBounds i 0) xs =
      (keys (entries.filter fun e => !decide (p e.2))).foldl
        (fun xs i => xs.setIfInBounds i 0) xs := by
  induction entries generalizing xs with
  | nil => rfl
  | cons e entries ih =>
    rw [List.foldl_cons, ih]
    by_cases kept : p e.2 <;> simp [kept, keys]

theorem mem_keys_filter (unpacked : v.packed = false) (p : Nat × α → Bool) :
    i ∈ keys (v.entries.filter p) ↔ i ∈ v.indices ∧ p (i, v.elements.getD i 0) = true := by
  constructor
  · intro member
    obtain ⟨⟨j, x⟩, kept, rfl⟩ := List.mem_map.mp member
    obtain ⟨here, passes⟩ := List.mem_filter.mp kept
    obtain ⟨listed, rfl⟩ := (mem_entries_unpacked unpacked).mp here
    exact ⟨listed, passes⟩
  · rintro ⟨listed, passes⟩
    exact List.mem_map.mpr ⟨(i, v.elements.getD i 0),
      List.mem_filter.mpr ⟨(mem_entries_unpacked unpacked).mpr ⟨listed, rfl⟩, passes⟩, rfl⟩

theorem filter_entries (h : v.Consistent) (p : Nat × α → Bool) :
    (keys (v.entries.filter p)).Nodup ∧ (∀ i ∈ keys (v.entries.filter p), i < v.dimension) ∧
      ∀ e ∈ v.entries.filter p, (e.2 == 0) = false :=
  ⟨(List.filter_sublist.map Prod.fst).nodup h.nodup_keys,
    fun i hi => h.keys_lt i ((List.filter_sublist.map Prod.fst).subset hi),
    fun _ he => h.entries_ne_zero (List.mem_of_mem_filter he)⟩

theorem clean_packed (h : v.Consistent) (tolerance : α) (mode : v.packed = true) :
    (v.clean tolerance).Consistent ∧ (v.clean tolerance).packed = v.packed ∧
    (v.clean tolerance).dimension = v.dimension ∧ (v.clean tolerance).entries =
      v.entries.filter fun e => Scalar.max tolerance tiny ≤ Scalar.abs e.2 := by
  unfold SparseVector.clean
  simp only [mode, if_true]
  have few := List.length_filter_le
    (fun e : Nat × α => decide (Scalar.max tolerance tiny ≤ Scalar.abs e.2)) v.entries
  obtain ⟨distinct, listed, nonzero⟩ := h.filter_entries fun e =>
    decide (Scalar.max tolerance tiny ≤ Scalar.abs e.2)
  rw [h.length_entries] at few
  generalize v.entries.filter (fun e =>
    decide (Scalar.max tolerance tiny ≤ Scalar.abs e.2)) = kept at *
  have enough := h.count_le
  have fits : (kept.map Prod.snd).length ≤
      (overwrite v.elements 0 (List.replicate v.count 0)).size := by
    rw [List.length_map, size_overwrite]
    exact few.trans enough
  have front : ∀ k < kept.length,
      (overwrite (overwrite v.elements 0 (List.replicate v.count 0)) 0
        (kept.map Prod.snd)).getD k 0 = (kept.map Prod.snd).getD k 0 := fun k hk => by
    rw [getD_overwrite_values fits, if_pos (by simpa using hk)]
  refine ⟨consistent_packed distinct (fun i hi => ?_) nonzero front fun k hk => ?_, trivial, ?_,
    entries_packed (by simpa using fits) front⟩
  · rw [size_overwrite, size_overwrite]
    exact listed i hi
  · rw [getD_overwrite_values fits, if_neg (by simpa using hk), getD_overwrite_zeros enough]
    split
    · exact LawfulZero.zero_beq
    · rename_i behind
      by_cases bound : k < v.dimension
      · exact h.vacant k bound (by simpa [places_packed mode] using behind)
      · exact getD_behind (Nat.le_of_not_lt bound)
  · simp [dimension]

theorem clean_unpacked (h : v.Consistent) (tolerance : α) (mode : v.packed = false) :
    (v.clean tolerance).Consistent ∧ (v.clean tolerance).packed = v.packed ∧
    (v.clean tolerance).dimension = v.dimension ∧ (v.clean tolerance).entries =
      v.entries.filter fun e => Scalar.max tolerance tiny ≤ Scalar.abs e.2 := by
  unfold SparseVector.clean
  simp only [mode, Bool.false_eq_true, if_false]
  rw [foldl_clearing (fun x => Scalar.max tolerance tiny ≤ Scalar.abs x)]
  obtain ⟨distinct, listed, -⟩ := h.filter_entries fun e =>
    decide (Scalar.max tolerance tiny ≤ Scalar.abs e.2)
  have dropped (i : Nat) : i ∈ keys (v.entries.filter fun e =>
      !decide (Scalar.max tolerance tiny ≤ Scalar.abs e.2)) ↔
      i ∈ v.indices ∧ ¬Scalar.max tolerance tiny ≤ Scalar.abs (v.elements.getD i 0) := by
    rw [mem_keys_filter mode]
    simp
  have kept (i : Nat) : i ∈ keys (v.entries.filter fun e =>
      decide (Scalar.max tolerance tiny ≤ Scalar.abs e.2)) ↔
      i ∈ v.indices ∧ Scalar.max tolerance tiny ≤ Scalar.abs (v.elements.getD i 0) := by
    rw [mem_keys_filter mode]
    simp
  refine ⟨⟨distinct, fun i hi => ?_, fun k hk => ?_, fun k _ free => ?_⟩, trivial, ?_, ?_⟩
  · rw [dimension, size_cleared]
    exact listed i (by simpa [keys] using hi)
  · have here := (kept k).mp (by simpa [places, keys] using hk)
    rw [getD_cleared, if_neg fun gone => ((dropped k).mp gone).2 here.2]
    exact h.stored k (by simpa [places_unpacked mode] using here.1)
  · have gone : k ∈ v.indices → ¬Scalar.max tolerance tiny ≤ Scalar.abs (v.elements.getD k 0) :=
      fun member large => free (by simpa [places, keys] using (kept k).mpr ⟨member, large⟩)
    rw [getD_cleared]
    split
    · exact LawfulZero.zero_beq
    · rename_i still
      have absent : k ∉ v.indices := fun member => still ((dropped k).mpr ⟨member, gone member⟩)
      by_cases bound : k < v.dimension
      · exact h.vacant k bound (by simpa [places_unpacked mode] using absent)
      · exact getD_behind (Nat.le_of_not_lt bound)
  · simp [dimension, size_cleared]
  · rw [entries_unpacked]
    refine (List.map_congr_left fun e he => ?_).trans (List.map_id _)
    obtain ⟨here, large⟩ := List.mem_filter.mp he
    obtain ⟨-, value⟩ := (mem_entries_unpacked mode).mp (show (e.1, e.2) ∈ v.entries from here)
    have still : e.1 ∉ keys (v.entries.filter fun e =>
        !decide (Scalar.max tolerance tiny ≤ Scalar.abs e.2)) := fun gone =>
      ((dropped e.1).mp gone).2 (value ▸ of_decide_eq_true large)
    rw [getD_cleared, if_neg still, value]
    rfl

/-- The entries of a consistent vector that are kept, the others being cleared. -/
theorem clean (h : v.Consistent) (tolerance : α) : (v.clean tolerance).Consistent ∧
    (v.clean tolerance).packed = v.packed ∧ (v.clean tolerance).dimension = v.dimension ∧
    (v.clean tolerance).entries =
      v.entries.filter fun e => Scalar.max tolerance tiny ≤ Scalar.abs e.2 := by
  cases mode : v.packed with
  | true => exact mode ▸ h.clean_packed tolerance mode
  | false => exact mode ▸ h.clean_unpacked tolerance mode

theorem sortIndices (h : v.Consistent) : v.sortIndices.Consistent := by
  unfold SparseVector.sortIndices
  split
  · rename_i mode
    have perm := Sorting.sort_perm Prod.fst v.entries
    generalize Sorting.sort Prod.fst v.entries = sorted at perm
    have length : sorted.length = v.count := perm.length_eq.trans h.length_entries
    have keysPerm : (keys sorted).Perm (keys v.entries) := perm.map Prod.fst
    have fits : (sorted.map Prod.snd).length ≤ v.dimension := by
      rw [List.length_map, length]
      exact h.count_le
    refine consistent_packed (keysPerm.nodup_iff.mpr h.nodup_keys) ?_
      (fun e he => h.entries_ne_zero (perm.mem_iff.mp he)) (fun k hk => ?_) fun k hk => ?_
    · intro i hi
      rw [size_overwrite]
      exact h.keys_lt i (keysPerm.mem_iff.mp hi)
    · rw [getD_overwrite_values fits, if_pos (by simpa using hk)]
    · rw [getD_overwrite_values fits, if_neg (by simpa using hk)]
      by_cases bound : k < v.dimension
      · exact h.vacant k bound (by rw [places_packed mode, List.mem_range]; omega)
      · exact getD_behind (Nat.le_of_not_lt bound)
  · rename_i mode
    have unpacked : v.packed = false := by simpa using mode
    have perm := List.mergeSort_perm v.indices.toList fun a b => decide (a ≤ b)
    have listed : ∀ i, i ∈ ({ v with
        indices := (v.indices.toList.mergeSort fun a b => a ≤ b).toArray }).places ↔
        i ∈ v.places := fun i => by
      simp [places, unpacked]
    constructor
    · exact perm.nodup_iff.mpr h.distinct
    · intro i hi
      exact h.inside i (by simpa using hi)
    · exact fun k hk => h.stored k ((listed k).mp hk)
    · exact fun k bound free => h.vacant k bound fun place => free ((listed k).mpr place)

theorem size_resized (xs : Array α) (n : Nat) :
    (xs.extract 0 n ++ Array.replicate (n - xs.size) 0).size = n := by
  simp only [Array.size_append, Array.size_extract, Array.size_replicate]
  omega

theorem getD_resized (xs : Array α) {n : Nat} (bound : k < n) :
    (xs.extract 0 n ++ Array.replicate (n - xs.size) 0).getD k 0 = xs.getD k 0 := by
  simp only [Array.getD_eq_getD_getElem?, Array.getElem?_append, Array.size_extract,
    Array.getElem?_extract, Array.getElem?_replicate]
  grind

theorem resize (h : v.Consistent) {n : Nat} (run : v.resize n = .ok w) : w.Consistent := by
  unfold SparseVector.resize at run
  obtain ⟨-, -, run⟩ := except_bind_eq_ok.mp run
  cases run
  have unpacked := h.unpack
  have mode := packed_unpack v
  generalize v.unpack = u at unpacked mode
  have element (k : Nat) (bound : k < n) :
      (u.elements.extract 0 n ++ Array.replicate (n - u.dimension) 0).getD k 0 =
        u.elements.getD k 0 := getD_resized u.elements bound
  have size : (u.elements.extract 0 n ++ Array.replicate (n - u.dimension) 0).size = n :=
    size_resized u.elements n
  have listed (i : Nat) : i ∈ (if n < u.dimension then u.indices.filter (· < n) else u.indices) ↔
      i ∈ u.indices ∧ i < n := by
    split
    · simp
    · rename_i wide
      exact ⟨fun member => ⟨member, (unpacked.inside i member).trans_le (Nat.le_of_not_lt wide)⟩,
        And.left⟩
  constructor
  · dsimp only
    split
    · rw [Array.toList_filter]
      exact unpacked.distinct.filter _
    · exact unpacked.distinct
  · intro i hi
    rw [dimension, size]
    exact ((listed i).mp hi).2
  · intro k hk
    obtain ⟨member, bound⟩ := (listed k).mp (by simpa [places] using hk)
    rw [element k bound]
    exact unpacked.stored k (by simpa [places_unpacked mode] using member)
  · intro k bound free
    rw [dimension, size] at bound
    rw [element k bound]
    by_cases inside : k < u.dimension
    · refine unpacked.vacant k inside fun place => free ?_
      have member : k ∈ u.indices := by simpa [places_unpacked mode] using place
      simpa [places] using (listed k).mpr ⟨member, bound⟩
    · exact getD_behind (Nat.le_of_not_lt inside)

/-! #### Scanning -/

/-- A vector of which the given rows, in which something may stand, are still to be listed. -/
structure Scanning (rows : List Nat) (v : SparseVector α) : Prop where
  unpacked : v.packed = false
  distinct : (v.indices.toList ++ rows).Nodup
  inside : ∀ i, i ∈ v.indices ∨ i ∈ rows → i < v.dimension
  stored : ∀ i ∈ v.indices, (v.elements.getD i 0 == 0) = false
  vacant : ∀ i < v.dimension, i ∉ v.indices → i ∉ rows → (v.elements.getD i 0 == 0) = true

theorem Scanning.consistent (h : Scanning [] v) : v.Consistent where
  distinct := by simpa using h.distinct
  inside i hi := h.inside i (.inl hi)
  stored i hi := h.stored i (by simpa [places_unpacked h.unpacked] using hi)
  vacant i bound free := h.vacant i bound (by simpa [places_unpacked h.unpacked] using free)
    List.not_mem_nil

section Scanning

variable {rows : List Nat} (h : Scanning (i :: rows) v)

include h

theorem Scanning.fresh : i ∉ v.indices := by
  intro member
  have apart := (List.nodup_append'.mp h.distinct).2.2
  exact apart (Array.mem_toList_iff.mpr member) List.mem_cons_self

theorem Scanning.remaining : (v.indices.toList ++ rows).Nodup :=
  h.distinct.sublist ((List.Sublist.refl _).append (List.sublist_cons_self i rows))

theorem Scanning.list (filled : (v.elements.getD i 0 == 0) = false) :
    Scanning rows { v with indices := v.indices.push i } := by
  have moved : ((v.indices.push i).toList ++ rows).Nodup := by simpa using h.distinct
  refine ⟨h.unpacked, moved, fun k hk => ?_, fun k hk => ?_, fun k hk free later => ?_⟩
  · refine h.inside k ?_
    rw [Array.mem_push] at hk
    rcases hk with (old | rfl) | later
    · exact .inl old
    · exact .inr List.mem_cons_self
    · exact .inr (List.mem_cons_of_mem i later)
  · rcases Array.mem_push.mp hk with old | rfl
    · exact h.stored k old
    · exact filled
  · rw [Array.mem_push, not_or] at free
    exact h.vacant k hk free.1 (by simp [free.2, later])

theorem Scanning.clear : Scanning rows { v with elements := v.elements.setIfInBounds i 0 } := by
  have bound : i < v.elements.size := h.inside i (.inr List.mem_cons_self)
  refine ⟨h.unpacked, h.remaining, fun k hk => ?_, fun k hk => ?_, fun k hk free later => ?_⟩
  · rw [dimension, Array.size_setIfInBounds]
    exact h.inside k (hk.imp_right (List.mem_cons_of_mem i))
  · have other : k ≠ i := fun same => h.fresh (same ▸ hk)
    rw [getD_setIfInBounds bound, if_neg other]
    exact h.stored k hk
  · rw [getD_setIfInBounds bound]
    split
    · exact LawfulZero.zero_beq
    · rename_i other
      rw [dimension, Array.size_setIfInBounds] at hk
      exact h.vacant k hk free (by simp [other, later])

theorem Scanning.skip (empty : (v.elements.getD i 0 == 0) = true) : Scanning rows v := by
  refine ⟨h.unpacked, h.remaining, fun k hk => h.inside k (hk.imp_right (List.mem_cons_of_mem i)),
    h.stored, fun k hk free later => ?_⟩
  by_cases here : k = i
  · exact here ▸ empty
  · exact h.vacant k hk free (by simp [here, later])

theorem Scanning.scanRow (tolerance : α) : Scanning rows (v.scanRow tolerance i) := by
  unfold SparseVector.scanRow
  dsimp only
  split
  · rename_i filled
    split
    · exact h.list (bne_zero.mp filled)
    · exact h.clear
  · rename_i empty
    rw [bne, Bool.not_eq_true, Bool.not_eq_false'] at empty
    exact h.skip empty

end Scanning

theorem Scanning.foldl {rows : List Nat} (h : Scanning rows v) (tolerance : α) :
    (rows.foldl (SparseVector.scanRow tolerance) v).Consistent := by
  induction rows generalizing v with
  | nil => exact h.consistent
  | cons i rows ih => exact ih (h.scanRow tolerance)

theorem scan (h : v.Consistent) {first last count : Nat} {tolerance : α}
    (run : v.scan first last tolerance = .ok (w, count)) : w.Consistent := by
  unfold SparseVector.scan at run
  split at run
  · cases run
  rename_i mode
  have unpacked : v.packed = false := by simpa using mode
  dsimp only at run
  generalize from_last : min last v.dimension = last at run
  generalize from_first : min first last = first at run
  have within : first ≤ last := from_first ▸ Nat.min_le_right _ _
  have ending : last ≤ v.dimension := from_last ▸ Nat.min_le_right _ _
  obtain ⟨rfl, -⟩ := Prod.mk.inj (Except.ok.inj run)
  have outside (i : Nat) : i ∈ v.indices.filter (fun i => i < first || last ≤ i) ↔
      i ∈ v.indices ∧ (i < first ∨ last ≤ i) := by
    simp
  have rows (i : Nat) : i ∈ List.range' first (last - first) ↔ first ≤ i ∧ i < last := by
    rw [List.mem_range'_1]
    omega
  have start : Scanning (List.range' first (last - first))
      { v with indices := v.indices.filter fun i => i < first || last ≤ i } := by
    refine ⟨unpacked, ?_, fun i hi => ?_, fun i hi => ?_, fun i bound free later => ?_⟩
    · refine List.nodup_append'.mpr ⟨?_, List.nodup_range', fun i here there => ?_⟩
      · rw [Array.toList_filter]
        exact h.distinct.filter _
      · have := ((outside i).mp (Array.mem_toList_iff.mp here)).2
        have := (rows i).mp there
        omega
    · rcases hi with kept | scanned
      · exact h.inside i ((outside i).mp kept).1
      · exact ((rows i).mp scanned).2.trans_le ending
    · exact h.stored i (by simpa [places_unpacked unpacked] using ((outside i).mp hi).1)
    · refine h.vacant i bound fun place => free ((outside i).mpr ⟨?_, ?_⟩)
      · simpa [places_unpacked unpacked] using place
      · rw [rows] at later
        omega
  exact start.foldl tolerance

/-! #### Building -/

theorem scanned (tolerance : α) (values : Array α) :
    (SparseVector.scanned tolerance values).Consistent := by
  have start : Scanning (List.range values.size) (⟨values, #[], false⟩ : SparseVector α) := by
    refine ⟨rfl, ?_, fun i hi => ?_, fun i hi => ?_, fun i bound _ later => ?_⟩
    · simpa using List.nodup_range
    · simpa [dimension] using hi
    · simp at hi
    · exact absurd (List.mem_range.mpr bound) later
  exact start.foldl tolerance

theorem ofDense (values : Array α) : (SparseVector.ofDense values).Consistent := scanned 0 values

theorem foldlM_add {list : List (Nat × α)} (h : v.Consistent)
    (run : list.foldlM (fun v (i, x) => v.add i x) v = .ok w) : w.Consistent := by
  induction list generalizing v with
  | nil =>
    cases run
    exact h
  | cons e list ih =>
    obtain ⟨u, added, rest⟩ := except_bind_eq_ok.mp run
    exact ih (h.add added) rest

theorem ofEntries {n : Nat} {list : List (Nat × α)} (run : SparseVector.ofEntries n list = .ok w) :
    w.Consistent := by
  unfold SparseVector.ofEntries at run
  obtain ⟨-, -, run⟩ := except_bind_eq_ok.mp run
  exact (Consistent.empty n).foldlM_add run

end Consistent

/-! ### Histories -/

/-- The operations that change a vector. -/
inductive Operation (α : Type)
  | set (i : Nat) (x : α)
  | insert (i : Nat) (x : α)
  | add (i : Nat) (x : α)
  | addRaw (i : Nat) (x : α)
  | clear
  | scan (first last : Nat) (tolerance : α)
  | clean (tolerance : α)
  | pack
  | unpack
  | setPacked (packed : Bool)
  | sortIndices
  | resize (n : Nat)

namespace Operation

/-- The vector that an operation leaves, if it is not refused. -/
def perform (v : SparseVector α) : Operation α → Checked (SparseVector α)
  | set i x => v.set i x
  | insert i x => v.insert i x
  | add i x => v.add i x
  | addRaw i x => v.addRaw i x
  | clear => .ok v.clear
  | scan first last tolerance => do return (← v.scan first last tolerance).1
  | clean tolerance => .ok (v.clean tolerance)
  | pack => v.pack
  | unpack => .ok v.unpack
  | setPacked packed => v.setPacked packed
  | sortIndices => .ok v.sortIndices
  | resize n => v.resize n

/-- The operation does not add a zero without tolerance to a row that is not stored. -/
def Proper (v : SparseVector α) : Operation α → Prop
  | addRaw i x => (x == 0) = false ∨ i ∈ v.indices
  | _ => True

theorem perform_consistent {operation : Operation α} (h : v.Consistent)
    (proper : operation.Proper v) (run : operation.perform v = .ok w) : w.Consistent := by
  cases operation with
  | set i x => exact h.set run
  | insert i x => exact h.insert run
  | add i x => exact h.add run
  | addRaw i x => exact h.addRaw proper run
  | clear =>
    cases run
    exact h.clear
  | scan first last tolerance =>
    obtain ⟨⟨u, count⟩, scanned, same⟩ := except_bind_eq_ok.mp run
    cases same
    exact h.scan scanned
  | clean tolerance =>
    cases run
    exact (h.clean tolerance).1
  | pack =>
    obtain ⟨u, packed, consistent, -⟩ := h.pack
    cases packed.symm.trans run
    exact consistent
  | unpack =>
    cases run
    exact h.unpack
  | setPacked packed => exact h.setPacked run
  | sortIndices =>
    cases run
    exact h.sortIndices
  | resize n => exact h.resize run

end Operation

/-- The vectors as they are built. -/
inductive Built : SparseVector α → Prop
  | empty (n : Nat) : Built (SparseVector.empty n)
  | ofDense (values : Array α) : Built (SparseVector.ofDense values)
  | ofEntries {n : Nat} {list : List (Nat × α)} {v : SparseVector α} :
      SparseVector.ofEntries n list = .ok v → Built v

theorem Built.consistent (h : Built v) : v.Consistent := by
  cases h with
  | empty n => exact Consistent.empty n
  | ofDense values => exact Consistent.ofDense values
  | ofEntries run => exact Consistent.ofEntries run

/-- `w` is reached from `v` by proper operations one after another. -/
inductive Reaches (v : SparseVector α) : List (Operation α) → SparseVector α → Prop
  | start : Reaches v [] v
  | step {operations : List (Operation α)} {u w : SparseVector α} {operation : Operation α} :
      Reaches v operations u → operation.Proper u → operation.perform u = .ok w →
      Reaches v (operations ++ [operation]) w

/-- Whatever is reached from a vector as it was built passes the check of consistency: the rows are
different and below the dimension, nothing stored is zero, and nothing else is stored. -/
theorem isConsistent_of_reaches {operations : List (Operation α)} (built : Built v)
    (reached : Reaches v operations w) : w.isConsistent = true ∧ w.Consistent := by
  have consistent : w.Consistent := by
    induction reached with
    | start => exact built.consistent
    | step _ proper run ih => exact Operation.perform_consistent ih proper run
  exact ⟨consistent.isConsistent, consistent⟩

deriving instance DecidableEq for SparseVector

/-- Values are built, one of them cancels, and what is left is packed and cleaned. -/
theorem isConsistent_of_cancelled : Built (ofDense #[0, 2, 0, 5] : SparseVector ℚ) ∧
    Reaches (ofDense #[0, 2, 0, 5] : SparseVector ℚ)
      [.add 1 (-2), .addRaw 0 3, .pack, .clean 0]
      ⟨#[5, 3, 0, 0], #[3, 0], true⟩ ∧
    isConsistent (⟨#[5, 3, 0, 0], #[3, 0], true⟩ : SparseVector ℚ) = true := by
  have cancelled : Reaches (ofDense #[0, 2, 0, 5] : SparseVector ℚ) [.add 1 (-2)]
      ⟨#[0, placeholder, 0, 5], #[1, 3], false⟩ := .step .start trivial (by decide +kernel)
  have stored : Reaches (ofDense #[0, 2, 0, 5] : SparseVector ℚ) [.add 1 (-2), .addRaw 0 3]
      ⟨#[3, placeholder, 0, 5], #[1, 3, 0], false⟩ :=
    .step cancelled (.inl (by decide +kernel)) (by decide +kernel)
  have packed : Reaches (ofDense #[0, 2, 0, 5] : SparseVector ℚ)
      [.add 1 (-2), .addRaw 0 3, .pack] ⟨#[placeholder, 5, 3, 0], #[1, 3, 0], true⟩ :=
    .step stored trivial (by decide +kernel)
  have cleaned : Reaches (ofDense #[0, 2, 0, 5] : SparseVector ℚ)
      [.add 1 (-2), .addRaw 0 3, .pack, .clean 0]
      ⟨#[5, 3, 0, 0], #[3, 0], true⟩ := .step packed trivial (by decide +kernel)
  exact ⟨.ofDense _, cleaned, (isConsistent_of_reaches (.ofDense _) cleaned).1⟩

/-- A zero added without tolerance is listed, which no stored value may be. -/
theorem addRaw_lists_zero : ∃ w : SparseVector ℚ, Built (SparseVector.empty 2 : SparseVector ℚ) ∧
    (Operation.addRaw 1 0).perform (SparseVector.empty 2) = .ok w ∧ w.isConsistent = false :=
  ⟨⟨#[0, 0], #[1], false⟩, .empty 2, by decide +kernel, by decide +kernel⟩

end SimplexBasis.SparseVector
